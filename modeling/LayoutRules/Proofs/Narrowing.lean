import LayoutRules.Rule.Operations

namespace LayoutRules

variable {σ φ : Type}

def Test.active (b : Boundary) : Test σ φ := fun c => return c.expiry.activeAt b

/-- Passes what is active at a boundary, and writes down what is not. -/
def Test.reporting (b : Boundary) : Test σ φ := fun c => do
  if c.expiry.activeAt b then return true
  Run.write .trace fun _ => Rule.expiredText c.label c.expiry b
  return false

namespace Test

variable {b : Boundary} {c : Clause σ φ}

theorem exec_reporting_of_active (h : c.expiry.activeAt b = true) (s : Session σ) :
    (reporting b c).exec s = (.ok true, s) := by
  simp [reporting, h]

theorem exec_reporting_of_expired (h : c.expiry.activeAt b = false) (s : Session σ) :
    (reporting b c).exec s = (.ok false, { s with
      journal := s.journal.write ⟨.trace, Rule.expiredText c.label c.expiry b⟩ }) := by
  simp only [reporting, h, Bool.false_eq_true, ↓reduceIte]
  exact Run.exec_bind_ok (Run.exec_write _ _ s)

end Test

namespace Rule

variable [Recipe φ σ]

/-- Narrowing is filtering by a test that reports what it drops. What holds of filtering under any
test therefore holds of narrowing. -/
theorem narrow_eq_filter (r : Rule σ φ) (b : Boundary) : r.narrow b = r.filter (.reporting b) := by
  induction r with
  | empty => rfl
  | clause n body expiry blocking label =>
    cases h : expiry.activeAt b <;> simp [narrow, filter, Test.reporting, h]
  | seq n body p q ihp ihq | alt n body p q ihp ihq => simp only [narrow, filter, ihp, ihq]
  | derived n source recipe body expiry label ih =>
    cases h : expiry.activeAt b <;> simp [narrow, filter, Test.reporting, h, ih]

end Rule

end LayoutRules
