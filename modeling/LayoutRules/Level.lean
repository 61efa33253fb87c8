import LayoutRules.Fault

namespace LayoutRules

/-- How grave an entry is, from the least to the most. No entry is written at `off`, which is a
threshold above all others. -/
inductive Level where
  | trace
  | debug
  | info
  | warn
  | error
  | critical
  | off
deriving DecidableEq, Inhabited

namespace Level

def rank : Level → Nat
  | .trace => 0
  | .debug => 1
  | .info => 2
  | .warn => 3
  | .error => 4
  | .critical => 5
  | .off => 6

def names : List (Text × Level) :=
  [("trace", .trace), ("debug", .debug), ("info", .info), ("warn", .warn), ("warning", .warn),
   ("err", .error), ("error", .error), ("critical", .critical), ("off", .off)]

/-- The level of a name in a reading that cannot fail: what is not a name counts as `off`. -/
def spelled (name : Text) : Level := (names.lookup name).getD .off

/-- The level of a name. That a text reads as `off` is believed only of the name itself, and every
other text, the empty one too, is refused. -/
def ofName (name : Text) : Except Fault Level :=
  if spelled name = .off ∧ name ≠ "off" then .error (.unknownLevel name) else .ok (spelled name)

end Level

end LayoutRules
