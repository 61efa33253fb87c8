import LayoutRules.Scenario.Expr
import LayoutRules.Scenario.Script

namespace LayoutRules.Scenario

abbrev ClauseTest := Test Tally Method

def allTests : List ClauseTest → ClauseTest
  | [], _ => return true
  | t :: ts, c => do
    if ← t c then allTests ts c else return false

def someTest : List ClauseTest → ClauseTest
  | [], _ => return false
  | t :: ts, c => do
    if ← t c then return true else someTest ts c

def Joint.join (i : Nat) (p q : Rule Tally Method) : Joint → Run Tally (Rule Tally Method)
  | .seq => p.followedBy q
  | .alt => p.otherwise q
  | .alternating => if i % 2 = 0 then p.followedBy q else p.otherwise q

def ChainPlan.save (plan : ChainPlan) (i : Nat) (r : Rule Tally Method) : Script Unit :=
  if plan.saveAt = some i then Script.nameRule plan.saveAs r else pure ()

def TestExpr.recorded : TestExpr → ClauseTest → ClauseTest
  | .absent, t => t
  | _, t => recordedTest t

mutual

/-- An override that is missing is no override. Inside another one it fails when it is called. -/
def OverrideExpr.build : OverrideExpr → Script (Option (Override Tally))
  | .absent => return none
  | .undefined => return some Override.undefined
  | .edit e => return some (Override.total fun c => e.apply c)
  | .guarded g body => do
    let f := (← body.build).getD (Override.failing .absentCall)
    return some (Override.only (fun c => g.holds c) f)
  | .answer rule => do
    let r ← rule.build
    return some r.answer
  | .resolve rule => do
    let r ← rule.build
    return some fun c => some <$> r.resolve c
  | .raising message => return some (Override.failing (.raised message))
  | .recorded id body => do
    return (← body.build).map (recordedOverride id)

def RecipeExpr.build : RecipeExpr → Script (Option Method)
  | .absent => return none
  | .barren => return some .barren
  | .answer => return some .answer
  | .resolve => return some .resolve
  | .twice => return some .twice
  | .minus => return some .minus
  | .byBlocking => return some .byBlocking
  | .fixed body => do
    return some (.fixed (← body.build))
  | .limited limit recipe late => do
    let method := (← recipe.build).getD .absent
    return some (.limited (← Script.lift Tally.newCounter) limit method late)
  | .ifLabelled label recipe => do
    return some (.ifLabelled label ((← recipe.build).getD .absent))
  | .recorded id recipe => do
    return (← recipe.build).map (.recorded id)

def TestExpr.build : TestExpr → Script ClauseTest
  | .absent => return Test.absent
  | .always b => return fun _ => return b
  | .not test => return Test.not (← test.build)
  | .all tests => return allTests (← TestExpr.buildAll tests)
  | .any tests => return someTest (← TestExpr.buildAll tests)
  | .label s => return fun c => return c.label = s
  | .labelStart s => return fun c => return c.label.startsWith s
  | .expiry e => return fun c => return c.expiry = e
  | .edgeName s => return fun c => return c.expiry.edge.name = s
  | .offsetBelow n => return fun c => return c.expiry.offset < n
  | .activeAt b => return fun c => return c.expiry.activeAt b
  | .blocks => return fun c => return c.blocks
  | .isDerived => return fun c => return c.isDerived
  | .isRule rule => do
    let r ← rule.build
    return fun c => return c.rule.same r
  | .renders s => return fun c => return c.rule.render = s
  | .inside test => do
    let t ← test.build
    return fun c => c.rule.any t
  | .answers d => return fun c => Option.isSome <$> c.rule.answer d
  | .raising message => return fun _ => Run.fail (.raised message)

def TestExpr.buildAll : List TestExpr → Script (List ClauseTest)
  | [] => return []
  | t :: ts => do
    let t ← t.build
    return t :: (← TestExpr.buildAll ts)

def RuleExpr.build : RuleExpr → Script (Rule Tally Method)
  | .named name => Script.rule name
  | .empty => return .empty
  | .clause expiry body label blocking => do
    let f ← body.build
    Script.lift (Rule.clauseOf expiry f label blocking)
  | .derived source expiry recipe label => do
    let r ← source.build
    let g ← recipe.build
    Script.lift (r.derivedBy expiry g label)
  | .seq first second => do
    let p ← first.build
    let q ← second.build
    Script.lift (p.followedBy q)
  | .alt first second => do
    let p ← first.build
    let q ← second.build
    Script.lift (p.otherwise q)
  | .narrow rule b => do
    let r ← rule.build
    Script.lift (r.narrow b)
  | .filter rule test => do
    let r ← rule.build
    let t ← test.build
    Script.lift (r.filter (test.recorded t))
  | .chain plan start joint clauseFirst body blockingAt => do
    let r ← start.build
    Script.iterate (fun i sofar => do
      let f ← body.build
      let c ← Script.lift
        (Rule.clauseOf (plan.expiryAt i) f (plan.labelAt i) (blockingAt = some i))
      let next ← Script.lift
        (if clauseFirst then joint.join i c sofar else joint.join i sofar c)
      plan.save i next
      return next) plan.count 0 r
  | .tower plan start recipe => do
    let r ← start.build
    Script.iterate (fun i sofar => do
      let g ← recipe.build
      let next ← Script.lift (sofar.derivedBy (plan.expiryAt i) g (plan.labelAt i))
      plan.save i next
      return next) plan.count 0 r
  | .ofTrail name => Trail.rule <$> Script.trail name

end

def TestExpr.buildRecorded (test : TestExpr) : Script ClauseTest := do
  return test.recorded (← test.build)

end LayoutRules.Scenario
