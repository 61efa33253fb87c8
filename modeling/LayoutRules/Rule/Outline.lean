import LayoutRules.Rule.Clause

namespace LayoutRules

/-- The tree of a rule: its clauses as they are, and how the rest is made of them. It leaves out
under which serial numbers the rest was made, and which override a recipe made. -/
inductive Outline (σ φ : Type) where
  | empty
  | clause (serial : Nat) (body : Override σ) (expiry : Expiry) (blocking : Bool) (label : Text)
  | seq (first second : Outline σ φ)
  | alt (first second : Outline σ φ)
  | derived (source : Outline σ φ) (recipe : φ) (expiry : Expiry) (label : Text)

variable {σ φ : Type}

def Rule.outline : Rule σ φ → Outline σ φ
  | .empty => .empty
  | .clause n body expiry blocking label => .clause n body expiry blocking label
  | .seq _ _ p q => .seq p.outline q.outline
  | .alt _ _ p q => .alt p.outline q.outline
  | .derived _ source recipe _ expiry label => .derived source.outline recipe expiry label

@[simp]
theorem Rule.outline_eq_empty_iff {r : Rule σ φ} : r.outline = .empty ↔ r = .empty := by
  cases r <;> simp [Rule.outline]

def Outline.blocks : Outline σ φ → Bool
  | .empty => false
  | .clause _ _ _ blocking _ => blocking
  | .seq p q => p.blocks || q.blocks
  | .alt p q => p.blocks || q.blocks
  | .derived source _ _ _ => source.blocks

theorem Rule.blocks_outline (r : Rule σ φ) : r.outline.blocks = r.blocks := by
  induction r with
  | empty => rfl
  | clause => rfl
  | seq _ _ p q ihp ihq => simp only [Rule.outline, Outline.blocks, Rule.blocks, ihp, ihq]
  | alt _ _ p q ihp ihq => simp only [Rule.outline, Outline.blocks, Rule.blocks, ihp, ihq]
  | derived _ source _ _ _ _ ih => simp only [Rule.outline, Outline.blocks, Rule.blocks, ih]

end LayoutRules
