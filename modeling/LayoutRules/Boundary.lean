import LayoutRules.Text

namespace LayoutRules

structure Token where
  text : Text := ""
  start : Int := 0
  stop : Int := 0
deriving DecidableEq, Inhabited

/-- The boundary between two adjacent tokens. The offsets do not decrease along a forward scan. -/
structure Boundary where
  left : Token := {}
  right : Token := {}
  index : Nat := 0
deriving DecidableEq, Inhabited

namespace Boundary

/-- The scan goes from the first boundary to the second without going back. -/
def NotAfter (b c : Boundary) : Prop := b.left.stop ≤ c.left.stop ∧ b.right.stop ≤ c.right.stop

instance (b c : Boundary) : Decidable (b.NotAfter c) :=
  inferInstanceAs (Decidable (_ ∧ _))

theorem NotAfter.refl (b : Boundary) : b.NotAfter b := ⟨Int.le_refl _, Int.le_refl _⟩

end Boundary

end LayoutRules
