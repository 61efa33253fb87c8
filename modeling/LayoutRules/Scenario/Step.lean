import LayoutRules.Rule.Outline
import LayoutRules.Scenario.Build

namespace LayoutRules.Scenario

inductive Step where
  | setRule (out : Text) (rule : RuleExpr) (quiet : Bool)
  | drop (name : Text)
  | narrow? (rule : RuleExpr) (b : Boundary)
  | answer (rule : RuleExpr) (c : Choice)
  | resolve (rule : RuleExpr) (c : Choice)
  | any (rule : RuleExpr) (test : TestExpr)
  | same (first second : RuleExpr)
  | render (rule : RuleExpr)
  | info (rule : RuleExpr)
  | outline (rule : RuleExpr)
  | clauses (rule : RuleExpr)
  | walk (rule : RuleExpr) (boundaries : List Boundary) (choices : List Choice)
  | setTrail (out : Text) (rule : RuleExpr)
  | showTrail (trail : Text)
  | narrowTrail (trail out : Text) (b : Boundary)
  | attach (trail out : Text) (rule : RuleExpr)
  | attachFallback (trail out : Text) (rule : RuleExpr)
  | without (trail out : Text) (test : TestExpr)
  | advance (trail out : Text) (c : Choice) (taken : Candidate) (rule : RuleExpr)
  | candidates (trail : Text) (c : Choice)

structure RuleView where
  text : Text
  isEmpty : Bool
  blocks : Bool
  names : List Text

structure ClauseView where
  label : Text
  expiry : Expiry
  blocks : Bool
  isDerived : Bool
  rule : Text
  names : List Text

/-- One boundary of a walk: what is left of the rule there, whether that is still the same rule,
and what it answers. -/
structure Stage where
  text : Text
  unchanged : Bool
  blocks : Bool
  answers : List (Option (List Candidate))

structure TrailView where
  text : Text
  cost : Int
  depth : Nat
  blocks : Bool
  names : List Text

inductive Answer where
  | rule (view : Option RuleView)
  | emptiness (isEmpty : Bool)
  | truth (b : Bool)
  | sameness (same : Bool)
  | text (t : Text)
  | candidates (answer : Option (List Candidate))
  | info (view : RuleView)
  | outline (tree : Outline Tally Method)
  | clauses (views : List ClauseView)
  | walk (stages : List Stage)
  | trail (view : TrailView)

open Script

def ruleView (r : Rule Tally Method) : Script RuleView :=
  return ⟨r.render, r.isEmpty, r.blocks, ← sameNames r⟩

def clauseView (c : Clause Tally Method) : Script ClauseView :=
  return ⟨c.label, c.expiry, c.blocks, c.isDerived, c.rule.render, ← sameNames c.rule⟩

def trailView (t : Trail Tally Method) : Script TrailView :=
  return ⟨t.rule.render, t.cost, t.depth, t.blocks, ← sameNames t.rule⟩

def stages (choices : List Choice) : Rule Tally Method → List Boundary → Script (List Stage)
  | _, [] => return []
  | r, b :: bs => do
    let r' ← lift (r.narrow b)
    let answers ← lift (choices.mapM r'.answer)
    let stage : Stage := ⟨r'.render, r'.same r, r'.blocks, answers⟩
    return stage :: (← stages choices r' bs)

def keepTrail (out : Text) (t : Trail Tally Method) : Script Answer := do
  nameTrail out t
  return .trail (← trailView t)

def Step.run : Step → Script Answer
  | .setRule out rule quiet => do
    let r ← rule.build
    nameRule out r
    if quiet then return .emptiness r.isEmpty
    let view ← ruleView r
    return .rule (some { view with names := view.names.filter (· ≠ out) })
  | .drop name => do
    let known := ((← get).rules.get? name).isSome
    modify fun desk => { desk with rules := desk.rules.erase name }
    return .truth known
  | .narrow? rule b => do
    let r ← rule.build
    match ← lift (r.narrow? b) with
    | some r' => return .rule (some (← ruleView r'))
    | none => return .rule none
  | .answer rule c => do
    let r ← rule.build
    return .candidates (← lift (r.answer c))
  | .resolve rule c => do
    let r ← rule.build
    return .candidates (some (← lift (r.resolve c)))
  | .any rule test => do
    let r ← rule.build
    let t ← test.buildRecorded
    return .truth (← lift (r.any t))
  | .same first second => do
    let p ← first.build
    let q ← second.build
    return .sameness (p.same q)
  | .render rule => do
    let r ← rule.build
    return .text r.render
  | .info rule => do
    let r ← rule.build
    return .info (← ruleView r)
  | .outline rule => do
    let r ← rule.build
    return .outline r.outline
  | .clauses rule => do
    let r ← rule.build
    return .clauses (← r.clauses.mapM clauseView)
  | .walk rule boundaries choices => do
    let r ← rule.build
    return .walk (← stages choices r boundaries)
  | .setTrail out rule => do
    let r ← rule.build
    keepTrail out (Trail.ofRule r)
  | .showTrail name => do
    let t ← trail name
    return .trail (← trailView t)
  | .narrowTrail name out b => do
    let t ← trail name
    keepTrail out (← lift (t.narrow b))
  | .attach name out rule => do
    let t ← trail name
    let r ← rule.build
    keepTrail out (← lift (t.attach r))
  | .attachFallback name out rule => do
    let t ← trail name
    let r ← rule.build
    keepTrail out (← lift (t.attachFallback r))
  | .without name out test => do
    let t ← trail name
    let test ← test.buildRecorded
    keepTrail out (← lift (t.without test))
  | .advance name out c taken rule => do
    let t ← trail name
    let r ← rule.build
    keepTrail out (← lift (t.advance c taken r))
  | .candidates name c => do
    let t ← trail name
    return .candidates (some (← lift (t.candidates c)))

end LayoutRules.Scenario
