import LayoutRules.Scenario.Step
import LayoutRules.Settings

namespace LayoutRules.Scenario

structure StepReport where
  result : Except Failure Answer
  events : List Event
  entries : List Entry

def Step.perform (step : Step) (desk : Desk) : StepReport × Desk :=
  let (result, after) := step.run.run.run desk
  let s := after.session
  (⟨result, s.client.events.toList, s.journal.entries.toList⟩,
    { after with
      session := { s with
        client := { s.client with events := #[] }
        journal := { s.journal with entries := #[] } } })

def performAll : List Step → Desk → List StepReport
  | [], _ => []
  | step :: steps, desk =>
    let (report, desk) := step.perform desk
    report :: performAll steps desk

structure Program where
  level : Option Text
  steps : List Step

/-- Runs the steps in order. A step that fails does not end the program, but an unknown level keeps
it from being run. -/
def Program.run (p : Program) : Except Fault (List StepReport) := do
  let journal ← match p.level with
    | some name => Journal.configureFrom {} { level := some name }
    | none => .ok {}
  return performAll p.steps { session := { client := {}, journal } }

end LayoutRules.Scenario
