import LayoutRules.Proofs.Scan

namespace LayoutRules

variable {σ φ : Type}

namespace Rule

theorem any_pure (r : Rule σ φ) (cond : Clause σ φ → Bool) :
    (r.any fun c => return cond c) = pure (r.clauses.any cond) := by
  induction r with
  | empty => rfl
  | clause => simp [any, clauses]
  | seq _ _ p q ihp ihq | alt _ _ p q ihp ihq =>
    simp only [any, clauses, ihp, ihq, pure_bind, List.any_append]
    cases p.clauses.any cond <;> rfl
  | derived n source recipe body expiry label ih =>
    simp only [any, clauses, ih, pure_bind, List.any_cons]
    split <;> simp_all

variable [Recipe φ σ] {w : Bench σ φ} {p : Rule σ φ}

theorem comes_carry (hw : w.Reached) (hp : p ∈ w.rules) (bs : List Boundary) :
    w.Comes (p.carry bs) (p.outline.carry bs) p.outline := by
  rw [carry_eq_cutAll, Outline.carry_eq_cutAll]
  exact hw.comes_cutAll hp (bs.map .narrow)

theorem exec_carry_of_dependable (hw : w.Reached) (hp : p ∈ w.rules) (hd : p.outline.Dependable)
    (bs : List Boundary) :
    ∃ q, ∃ v : Bench σ φ, (p.carry bs).exec w.session = (.ok q, v.session) ∧ v.Reached ∧
      q ∈ v.rules ∧ q.outline.Dependable := by
  obtain ⟨q, v, hq, hv, _, hmem, ho⟩ := (comes_carry hw hp bs).exists_made hd
  refine ⟨q, v, hq, hv, hmem, hd.mono ?_⟩
  rw [ho, Outline.carry_eq_cutAll]
  exact Outline.gathers_recipes.cutAll_subset _ _

end Rule

end LayoutRules
