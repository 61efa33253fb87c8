import LayoutRules.Text

namespace LayoutRules

inductive Fault where
  | clauseWithoutOverride (label : Text)
  | derivedWithoutRecipe (label : Text)
  | recipeWithoutOverride (label : Text)
  | unknownLevel (name : Text)
  | absentCall
  | raised (message : Text)
deriving DecidableEq

namespace Fault

def wording : Fault → Text
  | .clauseWithoutOverride label => "splitpolicy: clause '" ++ label ++ "' has no override"
  | .derivedWithoutRecipe label => "splitpolicy: proxy '" ++ label ++ "' has no factory"
  | .recipeWithoutOverride label =>
    "splitpolicy: proxy '" ++ label ++ "' factory returned no override"
  | .unknownLevel name => "splitpolicy: unknown log level '" ++ name ++ "'"
  | .absentCall => ""
  | .raised message => message

/-- A message is read up to its first zero byte, which a label may bring into it. -/
def message (f : Fault) : Text := f.wording.untilZero

end Fault

end LayoutRules
