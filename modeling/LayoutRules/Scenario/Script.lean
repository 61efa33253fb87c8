import LayoutRules.Names
import LayoutRules.Scenario.Method
import LayoutRules.Trail

namespace LayoutRules.Scenario

variable {α β : Type}

inductive Failure where
  | unknownName (name : Text)
  | fault (f : Fault)
deriving DecidableEq

def Failure.message : Failure → Text
  | .unknownName name => ("unknown name " ++ name : Text).untilZero
  | .fault f => f.message

structure Desk where
  rules : Names (Rule Tally Method) := {}
  trails : Names (Trail Tally Method) := {}
  session : Session Tally := { client := {} }

/-- A step of a scenario. Like a run it keeps, when it fails, what was done before. -/
abbrev Script := ExceptT Failure (StateM Desk)

namespace Script

def lift (x : Run Tally α) : Script α := ExceptT.mk fun desk =>
  match x.exec desk.session with
  | (.ok a, s) => (.ok a, { desk with session := s })
  | (.error e, s) => (.error (.fault e), { desk with session := s })

def rule (name : Text) : Script (Rule Tally Method) := do
  match (← get).rules.get? name with
  | some r => return r
  | none => throw (.unknownName name)

def trail (name : Text) : Script (Trail Tally Method) := do
  match (← get).trails.get? name with
  | some t => return t
  | none => throw (.unknownName name)

def nameRule (name : Text) (r : Rule Tally Method) : Script Unit :=
  modify fun desk => { desk with rules := desk.rules.insert name r }

def nameTrail (name : Text) (t : Trail Tally Method) : Script Unit :=
  modify fun desk => { desk with trails := desk.trails.insert name t }

def sameNames (r : Rule Tally Method) : Script (List Text) := do
  return (← get).rules.select r.same

def iterate (step : Nat → α → Script α) : Nat → Nat → α → Script α
  | 0, _, a => return a
  | n + 1, i, a => do
    let a ← step i a
    iterate step n (i + 1) a

end Script

end LayoutRules.Scenario
