import LayoutRules.Proofs.Cuts

namespace LayoutRules

variable {σ φ : Type}

namespace Outline

def carry (o : Outline σ φ) (bs : List Boundary) : Outline σ φ := bs.foldl (fun o b => o.narrow b) o

theorem carry_eq_cutAll (o : Outline σ φ) (bs : List Boundary) :
    o.carry bs = o.cutAll (bs.map .narrow) := by
  rw [carry, cutAll, List.foldl_map]
  congr 1
  funext o b
  exact narrow_eq_sift b o

@[simp]
theorem carry_empty (bs : List Boundary) : (.empty : Outline σ φ).carry bs = .empty := by
  induction bs with
  | nil => rfl
  | cons b bs ih => exact ih

theorem carry_append (o : Outline σ φ) (as bs : List Boundary) :
    o.carry (as ++ bs) = (o.carry as).carry bs :=
  List.foldl_append

theorem carry_eq_narrow {bs : List Boundary} {b : Boundary} (h : ∀ a ∈ bs, a.NotAfter b)
    (o : Outline σ φ) : o.carry (bs ++ [b]) = o.narrow b := by
  induction bs generalizing o with
  | nil => rfl
  | cons a bs ih =>
    rw [List.forall_mem_cons] at h
    show (o.narrow a).carry (bs ++ [b]) = o.narrow b
    rw [ih h.2, narrow_narrow h.1]

end Outline

variable [Recipe φ σ] {G : φ → Prop} {make : φ → Outline σ φ → Override σ}
variable {w : Bench σ φ} {p : Rule σ φ}

namespace Rule

def carry (p : Rule σ φ) (bs : List Boundary) : Run σ (Rule σ φ) :=
  bs.foldlM (fun q b => q.narrow b) p

theorem carry_cons (p : Rule σ φ) (b : Boundary) (bs : List Boundary) :
    p.carry (b :: bs) = p.narrow b >>= fun q => q.carry bs :=
  List.foldlM_cons

theorem carry_eq_cutAll (p : Rule σ φ) (bs : List Boundary) :
    p.carry bs = p.cutAll (bs.map .narrow) := by
  rw [carry, cutAll, List.foldlM_map]
  rfl

theorem exec_carry (hG : WellBehaved G make) (hw : w.Reached) (hp : p ∈ w.rules)
    (hg : ∀ g ∈ p.outline.recipes, G g) (bs : List Boundary) :
    ∃ q, ∃ v : Bench σ φ, (p.carry bs).exec w.session = (.ok q, v.session) ∧ v.Reached ∧
      q ∈ v.rules ∧ q.outline = p.outline.carry bs ∧ ∀ g ∈ q.outline.recipes, G g := by
  rw [carry_eq_cutAll, Outline.carry_eq_cutAll]
  exact exec_cutAll hG hw hp hg (bs.map .narrow)

/-- Along a forward scan it does not matter at which boundaries a rule is narrowed on the way. What
it comes to has the tree and the answers that the rule has when it is narrowed directly to the last
boundary; narrowing once more at that boundary changes neither; and a rule of which nothing is left
at some boundary on the way comes to nothing directly, too. -/
theorem carry_forward (hG : WellBehaved G make) (hw : w.Reached) (hp : p ∈ w.rules)
    (hg : ∀ g ∈ p.outline.recipes, G g) {bs : List Boundary} {b : Boundary}
    (hb : (bs ++ [b]).Pairwise Boundary.NotAfter) :
    ∃ q t q' t', (p.carry (bs ++ [b])).exec w.session = (.ok q, t) ∧
      (p.narrow b).exec w.session = (.ok q', t') ∧ q.outline = q'.outline ∧ q.answer = q'.answer ∧
      (∃ q₂ t₂, (q'.narrow b).exec t' = (.ok q₂, t₂) ∧ q₂.outline = q'.outline ∧
        q₂.answer = q'.answer) ∧
      ∀ as, as <+: bs ++ [b] → ∀ u, (p.carry as).exec w.session = (.ok .empty, u) →
        q' = .empty := by
  have hlast : ∀ a ∈ bs, a.NotAfter b := fun a ha =>
    (List.pairwise_append.1 hb).2.2 a ha b (List.mem_singleton_self b)
  obtain ⟨q, v, hq, hv, hqv, ho, _⟩ := exec_carry hG hw hp hg (bs ++ [b])
  obtain ⟨q', t', hq', ho'⟩ := exec_narrow hG hw hp hg b
  have hw' := hw.make (.narrow p b) (by simpa using hp) hq'
  have hgq' : ∀ g ∈ q'.outline.recipes, G g := fun g hm =>
    hg g (Outline.gathers_recipes.prune_subset _ _ (ho' ▸ hm))
  obtain ⟨q₂, t₂, hq₂, ho₂⟩ := exec_narrow hG hw' (by simp) hgq' b
  have hw₂ := hw'.make (.narrow q' b) (by simp) hq₂
  have he : q.outline = q'.outline := by
    rw [ho, ho', Outline.carry_eq_narrow hlast]
  have he₂ : q₂.outline = q'.outline := by
    rw [ho₂, ho', Outline.narrow_narrow (Boundary.NotAfter.refl b)]
  refine ⟨q, v.session, q', t', hq, hq', he, ?_, ⟨q₂, t₂, hq₂, he₂, ?_⟩, ?_⟩
  · exact answer_eq_of_outline_eq hG hv hw' hqv (by simp) he hgq'
  · exact answer_eq_of_outline_eq hG hw₂ hw' (by simp) (by simp) he₂ hgq'
  · intro as hprefix u hu
    obtain ⟨cs, hcs⟩ := hprefix
    obtain ⟨q₀, v₀, hq₀, _, _, ho₀, _⟩ := exec_carry hG hw hp hg as
    cases hq₀.symm.trans hu
    have h₀ : p.outline.carry as = .empty := ho₀.symm
    have hempty : q'.outline = .empty := by
      rw [ho', ← Outline.carry_eq_narrow hlast, ← hcs, Outline.carry_append, h₀,
        Outline.carry_empty]
    exact outline_eq_empty_iff.1 hempty

end Rule

namespace Scenario

theorem guarded_carry_forward :
    workbench.Reached ∧ guarded ∈ workbench.rules ∧
      (∀ g ∈ guarded.outline.recipes, g = .answer) ∧
      ([early, pastBrief] ++ [pastMirror]).Pairwise Boundary.NotAfter ∧
      ∃ q t q' t', (guarded.carry ([early, pastBrief] ++ [pastMirror])).exec workbench.session =
          (.ok q, t) ∧
        (guarded.narrow pastMirror).exec workbench.session = (.ok q', t') ∧
        q.outline = q'.outline ∧ q.answer = q'.answer := by
  have hmem : guarded ∈ workbench.rules := by simp [workbench]
  have hg : ∀ g ∈ guarded.outline.recipes, g = .answer := by
    simp [guarded, mirror, whole, opening, brief, joined, broken, Rule.outline, Outline.recipes]
  have hb : ([early, pastBrief] ++ [pastMirror]).Pairwise Boundary.NotAfter := by decide
  obtain ⟨q, t, q', t', hq, hq', ho, ha, _⟩ :=
    Rule.carry_forward wellBehaved_answer workbench_reached hmem hg hb
  exact ⟨workbench_reached, hmem, hg, hb, q, t, q', t', hq, hq', ho, ha⟩

end Scenario

end LayoutRules
