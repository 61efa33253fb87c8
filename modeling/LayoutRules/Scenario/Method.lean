import LayoutRules.Scenario.Tally

namespace LayoutRules.Scenario

inductive Method where
  | absent
  | barren
  | answer
  | resolve
  | twice
  /-- Answers where the source does, with the candidates that the source's answer lacks. -/
  | minus
  /-- Keeps newlines if the source blocks when the rule is derived, and else all but newlines. -/
  | byBlocking
  | fixed (body : Option (Override Tally))
  /-- Follows another method for so many calls. Later ones make no override, or raise a message. -/
  | limited (counter limit : Nat) (method : Method) (late : Option Text)
  /-- Follows another method if the source has a clause with this label. -/
  | ifLabelled (label : Text) (method : Method)
  | recorded (id : Text) (method : Method)

namespace Method

abbrev Source := Rule Tally Method

def minusAnswer (source : Source) : Override Tally := fun c => do
  match ← source.answer c with
  | some cs => return some (c.candidates.filter fun x => !cs.contains x)
  | none => return none

def twiceAnswer (source : Source) : Override Tally := fun c => do
  let cs ← source.resolve c
  return some (← source.resolve (c.withCandidates cs))

def derive (source : Source) : Method → Run Tally (Option (Override Tally))
  | .absent => Run.fail .absentCall
  | .barren => return none
  | .answer => return some source.answer
  | .resolve => return some fun c => some <$> source.resolve c
  | .twice => return some (twiceAnswer source)
  | .minus => return some (minusAnswer source)
  | .byBlocking => return some (if source.blocks then Override.newlines else Override.nonNewlines)
  | .fixed body => return body
  | .limited counter limit method late => do
    if (← Tally.advance counter) ≤ limit then method.derive source
    else match late with
      | some message => Run.fail (.raised message)
      | none => return none
  | .ifLabelled label method => do
    if ← source.any fun c => return c.label = label then method.derive source else return none
  | .recorded id method => do
    Tally.record (.recipe id source.render)
    method.derive source

instance : Recipe Method Tally := ⟨fun method source => method.derive source⟩

end Method

end LayoutRules.Scenario
