import LayoutRules.Rule.Clause

namespace LayoutRules.Rule

variable {σ φ : Type}

/-- The candidates that a rule leaves open: its answer, or else all that the choice has. -/
def resolve (r : Rule σ φ) (c : Choice) : Run σ (List Candidate) := do
  return (← r.answer c).getD c.candidates

@[simp]
theorem resolve_empty (c : Choice) : resolve (.empty : Rule σ φ) c = pure c.candidates := rfl

theorem answer_followedBy (p q : Rule σ φ) (c : Choice) :
    p.answer.followedBy q.answer c = (do
      let kept ← p.resolve c
      return some (← q.resolve (c.withCandidates kept))) := by
  simp only [Override.followedBy, resolve, bind_assoc, pure_bind, Choice.candidates_withCandidates]

theorem answer_otherwise (p q : Rule σ φ) (c : Choice) :
    p.answer.otherwise q.answer c = (do
      match ← p.answer c with
      | some cs => return some cs
      | none => q.answer c) := rfl

/-- The expiry as it stands behind a label. An exclamation mark shows that the rule blocks. -/
def renderExpiry (expiry : Expiry) (blocking : Bool) : Text :=
  expiry.render ++ (if blocking then "!" else "") ++ "d"

def render : Rule σ φ → Text
  | .empty => "NoPolicy"
  | .clause _ _ expiry blocking label => label ++ renderExpiry expiry blocking
  | .seq _ _ p q => "(" ++ p.render ++ " & " ++ q.render ++ ")"
  | .alt _ _ p q => "(" ++ p.render ++ " | " ++ q.render ++ ")"
  | .derived _ source _ _ expiry label =>
    label ++ "*(" ++ source.render ++ ")" ++ renderExpiry expiry source.blocks

def expiredText (label : Text) (expiry : Expiry) (b : Boundary) : Text :=
  "expired " ++ label ++ expiry.render ++ " at boundary " ++ Text.ofNat b.index ++
    " ('" ++ b.left.text ++ "' '" ++ b.right.text ++ "')"

variable [Recipe φ σ]

/-- What is left of a rule at a boundary. A derived rule is always derived anew, so that its
override never rests on more than what is left of its source. -/
def narrow (r : Rule σ φ) (b : Boundary) : Run σ (Rule σ φ) := do
  match r with
  | .empty => return .empty
  | .clause n body expiry blocking label =>
    if expiry.activeAt b then return .clause n body expiry blocking label
    Run.write .trace fun _ => expiredText label expiry b
    return .empty
  | .seq n body p q =>
    let p' ← p.narrow b
    let q' ← q.narrow b
    rejoin (.seq n body p q) p q p' q' (p'.followedBy q')
  | .alt n body p q =>
    let p' ← p.narrow b
    let q' ← q.narrow b
    rejoin (.alt n body p q) p q p' q' (p'.otherwise q')
  | .derived _ source recipe _ expiry label =>
    if expiry.activeAt b then
      let source' ← source.narrow b
      source'.derive expiry recipe label
    else
      Run.write .trace fun _ => expiredText label expiry b
      return .empty

def narrow? (r : Rule σ φ) (b : Boundary) : Run σ (Option (Rule σ φ)) := do
  let r' ← r.narrow b
  return if r'.isEmpty then none else some r'

/-- What is left of a rule without the clauses that fail the test. A derived rule that fails goes
with all it comes from, which is then not tested; one that passes is derived anew. -/
def filter (r : Rule σ φ) (test : Test σ φ) : Run σ (Rule σ φ) := do
  match r with
  | .empty => return .empty
  | .clause n body expiry blocking label =>
    let whole := .clause n body expiry blocking label
    return if ← test ⟨whole, label, expiry, false⟩ then whole else .empty
  | .seq n body p q =>
    let p' ← p.filter test
    let q' ← q.filter test
    rejoin (.seq n body p q) p q p' q' (p'.followedBy q')
  | .alt n body p q =>
    let p' ← p.filter test
    let q' ← q.filter test
    rejoin (.alt n body p q) p q p' q' (p'.otherwise q')
  | .derived n source recipe body expiry label =>
    if ← test ⟨.derived n source recipe body expiry label, label, expiry, true⟩ then
      let source' ← source.filter test
      source'.derive expiry recipe label
    else
      return .empty

end LayoutRules.Rule
