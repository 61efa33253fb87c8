import LayoutRules.Override
import LayoutRules.Rule.Operations

namespace LayoutRules.Scenario

/-- A call of the client, as it is recorded: an override with the choice it was given, a recipe
with the rule it was given, or a test with what it saw of a clause. -/
inductive Event where
  | override (id : Text) (index : Nat) (candidates : List Candidate)
  | recipe (id : Text) (rule : Text)
  | test (label : Text) (expiry : Expiry) (blocks isDerived : Bool)
deriving DecidableEq

structure Tally where
  events : Array Event := #[]
  counters : Array Nat := #[]

namespace Tally

def record (e : Event) : Run Tally Unit :=
  Run.onClient fun t => ((), { t with events := t.events.push e })

def newCounter : Run Tally Nat :=
  Run.onClient fun t => (t.counters.size, { t with counters := t.counters.push 0 })

def advance (counter : Nat) : Run Tally Nat :=
  Run.onClient fun t =>
    let n := t.counters.getD counter 0 + 1
    (n, { t with counters := t.counters.setIfInBounds counter n })

end Tally

def recordedOverride (id : Text) (f : Override Tally) : Override Tally := fun c => do
  Tally.record (.override id c.boundary.index c.candidates)
  f c

def recordedTest {φ : Type} (test : Test Tally φ) : Test Tally φ := fun c => do
  Tally.record (.test c.label c.expiry c.blocks c.isDerived)
  test c

end LayoutRules.Scenario
