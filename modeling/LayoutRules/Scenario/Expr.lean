import LayoutRules.Choice
import LayoutRules.Expiry

namespace LayoutRules.Scenario

inductive Edit where
  | pass
  | newlines
  | nonNewlines
  | const (candidates : List Candidate)
  | take (n : Nat)
  | drop (n : Nat)
  | last
  | reverse
  | addCost (n : Int)
  | addTag (s : Text)
  | append (candidates : List Candidate)

def Edit.apply (c : Choice) : Edit → List Candidate
  | .pass => c.candidates
  | .newlines => c.newlines
  | .nonNewlines => c.nonNewlines
  | .const candidates => candidates
  | .take n => c.candidates.take n
  | .drop n => c.candidates.drop n
  | .last => c.candidates.getLast?.toList
  | .reverse => c.candidates.reverse
  | .addCost n => c.candidates.map fun x => { x with cost := x.cost + n }
  | .addTag s => c.candidates.map fun x => { x with tag := x.tag ++ s }
  | .append candidates => c.candidates ++ candidates

inductive Guard where
  | leftText (s : Text)
  | rightText (s : Text)
  | indexBelow (n : Nat)
  | atLeast (n : Nat)
  | offers (candidate : Candidate)

def Guard.holds (c : Choice) : Guard → Bool
  | .leftText s => c.boundary.left.text = s
  | .rightText s => c.boundary.right.text = s
  | .indexBelow n => c.boundary.index < n
  | .atLeast n => n ≤ c.candidates.length
  | .offers candidate => c.candidates.contains candidate

inductive Joint where
  | seq
  | alt
  | alternating

/-- The plan of a rule that is built step by step. The steps differ in the offset of their expiry
and in the number behind their label. One step may be saved under a name. -/
structure ChainPlan where
  count : Nat
  expiry : Expiry
  stride : Int
  label : Text
  saveAt : Option Nat
  saveAs : Text

namespace ChainPlan

def expiryAt (plan : ChainPlan) (i : Nat) : Expiry :=
  { plan.expiry with offset := plan.expiry.offset + i * plan.stride }

def labelAt (plan : ChainPlan) (i : Nat) : Text := plan.label ++ Text.ofNat i

end ChainPlan

mutual

inductive OverrideExpr where
  | absent
  | undefined
  | edit (e : Edit)
  | guarded (g : Guard) (body : OverrideExpr)
  | answer (rule : RuleExpr)
  | resolve (rule : RuleExpr)
  | raising (message : Text)
  | recorded (id : Text) (body : OverrideExpr)

inductive RecipeExpr where
  | absent
  | barren
  | answer
  | resolve
  | twice
  | minus
  | byBlocking
  | fixed (body : OverrideExpr)
  | limited (limit : Nat) (recipe : RecipeExpr) (late : Option Text)
  | ifLabelled (label : Text) (recipe : RecipeExpr)
  | recorded (id : Text) (recipe : RecipeExpr)

inductive TestExpr where
  | absent
  | always (b : Bool)
  | not (test : TestExpr)
  | all (tests : List TestExpr)
  | any (tests : List TestExpr)
  | label (s : Text)
  | labelStart (s : Text)
  | expiry (e : Expiry)
  | edgeName (s : Text)
  | offsetBelow (n : Int)
  | activeAt (b : Boundary)
  | blocks
  | isDerived
  | isRule (rule : RuleExpr)
  | renders (s : Text)
  | inside (test : TestExpr)
  | answers (c : Choice)
  | raising (message : Text)

inductive RuleExpr where
  | named (name : Text)
  | empty
  | clause (expiry : Expiry) (body : OverrideExpr) (label : Text) (blocking : Bool)
  | derived (source : RuleExpr) (expiry : Expiry) (recipe : RecipeExpr) (label : Text)
  | seq (first second : RuleExpr)
  | alt (first second : RuleExpr)
  | narrow (rule : RuleExpr) (b : Boundary)
  | filter (rule : RuleExpr) (test : TestExpr)
  | chain (plan : ChainPlan) (start : RuleExpr) (joint : Joint) (clauseFirst : Bool)
      (body : OverrideExpr) (blockingAt : Option Nat)
  | tower (plan : ChainPlan) (start : RuleExpr) (recipe : RecipeExpr)
  | ofTrail (name : Text)

end

end LayoutRules.Scenario
