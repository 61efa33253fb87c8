import LayoutRules.Proofs.Cuts

namespace LayoutRules

variable {σ φ : Type}

namespace Connective

theorem override_assoc (k : Connective) (f g h : Override σ) :
    k.override (k.override f g) h = k.override f (k.override g h) := by
  funext c
  cases k with
  | seq =>
    -- However the candidates are passed on, an answer that is there is the one that is kept.
    simp only [override, Override.followedBy, bind_assoc, pure_bind, Option.getD_some,
      Choice.candidates_withCandidates]
    rfl
  | alt =>
    simp only [override, Override.otherwise, bind_assoc]
    congr 1
    funext a
    cases a with
    | none => rfl
    | some cs => rw [pure_bind]

theorem node_ne (k : Connective) (p q : Outline σ φ) : k.node p q ≠ .empty := by
  cases k <;> simp [node]

theorem view_assoc (k : Connective) {α : Type} {view : Outline σ φ → α} (op : α → α → α)
    (hv : ∀ p q, view (k.node p q) = op (view p) (view q))
    (hop : ∀ a b c, op (op a b) c = op a (op b c)) (x y z : Outline σ φ) :
    view (Outline.join k.node (Outline.join k.node x y) z) =
      view (Outline.join k.node x (Outline.join k.node y z)) := by
  by_cases hx : x = .empty
  · rw [hx, Outline.empty_join, Outline.empty_join]
  by_cases hy : y = .empty
  · rw [hy, Outline.empty_join, Outline.join_empty]
  by_cases hz : z = .empty
  · rw [hz, Outline.join_empty, Outline.join_empty]
  rw [Outline.join_of_ne hx hy, Outline.join_of_ne hy hz, Outline.join_of_ne (k.node_ne x y) hz,
    Outline.join_of_ne hx (k.node_ne y z), hv, hv, hv, hv, hop]

theorem cutAll_join (k : Connective) (cuts : List Cut) (x y : Outline σ φ) :
    (Outline.join k.node x y).cutAll cuts =
      Outline.join k.node (x.cutAll cuts) (y.cutAll cuts) := by
  induction cuts generalizing x y with
  | nil => rfl
  | cons c cs ih =>
    have hnode : ∀ p q : Outline σ φ, (k.node p q).sift c.keeps =
        Outline.join k.node (p.sift c.keeps) (q.sift c.keeps) := by
      cases k <;> exact fun _ _ => rfl
    show ((Outline.join k.node x y).sift c.keeps).cutAll cs = _
    rw [Outline.map_join rfl hnode, ih]
    rfl

end Connective

namespace Outline

theorem recipes_join {G : φ → Prop} (k : Connective) {p q : Outline σ φ} (hp : ∀ g ∈ p.recipes, G g)
    (hq : ∀ g ∈ q.recipes, G g) : ∀ g ∈ (join k.node p q).recipes, G g :=
  fun g hg => (List.mem_append.1 (gathers_recipes.node_subset k p q hg)).elim (hp g) (hq g)

def profiles : Outline σ φ → List Profile
  | .empty => []
  | .clause _ _ expiry blocking label => [⟨⟨label, expiry, false⟩, blocking⟩]
  | .seq p q => p.profiles ++ q.profiles
  | .alt p q => p.profiles ++ q.profiles
  | .derived source _ expiry label => ⟨⟨label, expiry, true⟩, source.blocks⟩ :: source.profiles

end Outline

namespace Rule

theorem profiles_outline (r : Rule σ φ) : r.outline.profiles = r.clauses.map Clause.profile := by
  induction r with
  | empty | clause => rfl
  | seq _ _ p q ihp ihq | alt _ _ p q ihp ihq =>
    simp only [outline, Outline.profiles, clauses, List.map_append, ihp, ihq]
  | derived _ source _ _ _ _ ih =>
    simp only [outline, Outline.profiles, clauses, List.map_cons, ih, blocks_outline]
    rfl

theorem anyOf_eq_of_profiles (test : Profile → Run σ Bool) {cs ds : List (Clause σ φ)}
    (h : cs.map Clause.profile = ds.map Clause.profile) :
    anyOf (fun c => test c.profile) cs = anyOf (fun c => test c.profile) ds := by
  induction cs generalizing ds with
  | nil =>
    cases ds with
    | nil => rfl
    | cons d ds => cases h
  | cons c cs ih =>
    cases ds with
    | nil => cases h
    | cons d ds =>
      simp only [List.map_cons, List.cons.injEq] at h
      simp only [anyOf, h.1, ih h.2]

/-- Two rules between which a client cannot tell, unless by what their answers are made of. A search
tests the same profiles in both, one after the other, whatever the tests do besides. -/
structure Alike (p q : Rule σ φ) : Prop where
  answer : p.answer = q.answer
  isEmpty : p.isEmpty = q.isEmpty
  blocks : p.blocks = q.blocks
  profiles : p.clauses.map Clause.profile = q.clauses.map Clause.profile
  any : ∀ test : Profile → Run σ Bool,
    (p.any fun c => test c.profile) = q.any fun c => test c.profile

end Rule

variable [Recipe φ σ] {G : φ → Prop} {make : φ → Outline σ φ → Override σ}
variable {w v : Bench σ φ}

theorem Rule.alike_of_assoc (hG : WellBehaved G make) (hw : w.Reached) (hv : v.Reached)
    {p q : Rule σ φ} (hp : p ∈ w.rules) (hq : q ∈ v.rules) (hgp : ∀ g ∈ p.outline.recipes, G g)
    (hgq : ∀ g ∈ q.outline.recipes, G g) (k : Connective) {x y z : Outline σ φ}
    (hop : p.outline = Outline.join k.node (Outline.join k.node x y) z)
    (hoq : q.outline = Outline.join k.node x (Outline.join k.node y z)) : p.Alike q := by
  have hprofiles : p.clauses.map Clause.profile = q.clauses.map Clause.profile := by
    rw [← profiles_outline, ← profiles_outline, hop, hoq]
    refine k.view_assoc (· ++ ·) (fun _ _ => ?_) List.append_assoc x y z
    cases k <;> rfl
  refine ⟨?_, ?_, ?_, hprofiles, fun test => ?_⟩
  · rw [answer_outline hG (hw.founded_parts hp) hgp, answer_outline hG (hv.founded_parts hq) hgq,
      hop, hoq]
    refine k.view_assoc k.override (fun _ _ => ?_) k.override_assoc x y z
    cases k <;> rfl
  · rw [← isEmpty_outline, ← isEmpty_outline, hop, hoq]
    refine k.view_assoc (fun _ _ => false) (fun _ _ => ?_) (fun _ _ _ => rfl) x y z
    cases k <;> rfl
  · rw [← blocks_outline, ← blocks_outline, hop, hoq]
    refine k.view_assoc (· || ·) (fun _ _ => ?_) Bool.or_assoc x y z
    cases k <;> rfl
  · rw [any_eq_anyOf_clauses, any_eq_anyOf_clauses]
    exact anyOf_eq_of_profiles test hprofiles

namespace Connective

variable {p q a b c : Rule σ φ}

theorem exec_join_cutAll (k : Connective) (hG : WellBehaved G make) (hw : w.Reached)
    (hp : p ∈ w.rules) (hq : q ∈ w.rules) (hgp : ∀ g ∈ p.outline.recipes, G g)
    (hgq : ∀ g ∈ q.outline.recipes, G g) (cuts : List Cut) :
    ∃ r, ∃ v : Bench σ φ, (k.join p q >>= fun pq => pq.cutAll cuts).exec w.session =
        (.ok r, v.session) ∧ v.Reached ∧ r ∈ v.rules ∧
      r.outline = Outline.join k.node (p.outline.cutAll cuts) (q.outline.cutAll cuts) ∧
      ∀ g ∈ r.outline.recipes, G g := by
  obtain ⟨pq, u, he, hu, _, hmem, ho⟩ := hw.exec_join k hp hq
  have hg : ∀ g ∈ pq.outline.recipes, G g := ho ▸ Outline.recipes_join k hgp hgq
  obtain ⟨r, v, hr, hv, hrv, hor, hgr⟩ := Rule.exec_cutAll hG hu hmem hg cuts
  exact ⟨r, v, (Run.exec_bind_ok he).trans hr, hv, hrv, by rw [hor, ho, cutAll_join], hgr⟩

/-- It does not matter which two of three rules in a row are put together first, and whenever. A
client cannot tell the results apart, however often it cuts both of them down, although operands
vanish on the way and conditions see whether what they keep blocks. -/
theorem alike_assoc (k : Connective) (hG : WellBehaved G make) (hw : w.Reached) (hv : v.Reached)
    (hr : ∀ p ∈ [a, b, c], p ∈ w.rules ∧ p ∈ v.rules)
    (hg : ∀ p ∈ [a, b, c], ∀ g ∈ p.outline.recipes, G g) (cuts : List Cut) :
    ∃ l s r t,
      (do
        let ab ← k.join a b
        let abc ← k.join ab c
        abc.cutAll cuts).exec w.session = (.ok l, s) ∧
      (do
        let bc ← k.join b c
        let abc ← k.join a bc
        abc.cutAll cuts).exec v.session = (.ok r, t) ∧ l.Alike r := by
  simp only [List.forall_mem_cons] at hr hg
  obtain ⟨⟨haw, hav⟩, ⟨hbw, hbv⟩, ⟨hcw, hcv⟩, _⟩ := hr
  obtain ⟨hga, hgb, hgc, _⟩ := hg
  obtain ⟨ab, w₁, hab, hw₁, hsw, habm, hoab⟩ := hw.exec_join k haw hbw
  obtain ⟨bc, v₁, hbc, hv₁, hsv, hbcm, hobc⟩ := hv.exec_join k hbv hcv
  have hgab : ∀ g ∈ ab.outline.recipes, G g := hoab ▸ Outline.recipes_join k hga hgb
  have hgbc : ∀ g ∈ bc.outline.recipes, G g := hobc ▸ Outline.recipes_join k hgb hgc
  obtain ⟨l, w₂, hl, hw₂, hlm, hol, hgl⟩ :=
    exec_join_cutAll k hG hw₁ habm (hsw hcw) hgab hgc cuts
  obtain ⟨r, v₂, hr, hv₂, hrm, hor, hgr⟩ :=
    exec_join_cutAll k hG hv₁ (hsv hav) hbcm hga hgbc cuts
  rw [hoab, cutAll_join] at hol
  rw [hobc, cutAll_join] at hor
  exact ⟨l, w₂.session, r, v₂.session, (Run.exec_bind_ok hab).trans hl,
    (Run.exec_bind_ok hbc).trans hr, Rule.alike_of_assoc hG hw₂ hv₂ hlm hrm hgl hgr k hol hor⟩

end Connective

namespace Scenario

def derivedBlocking : Cut := .filter fun x => !x.mark.isDerived || x.blocks

theorem opening_guarded_broken_alike :
    workbench.Reached ∧ (∀ p ∈ [opening, guarded, broken], p ∈ workbench.rules) ∧
      (∀ p ∈ [opening, guarded, broken], ∀ g ∈ p.outline.recipes, g = .answer) ∧
      ∃ l s r t,
        (do
          let ab ← opening.followedBy guarded
          let abc ← ab.followedBy broken
          abc.cutAll [.narrow pastBrief, derivedBlocking, .narrow pastMirror]).exec
            workbench.session = (.ok l, s) ∧
        (do
          let bc ← guarded.followedBy broken
          let abc ← opening.followedBy bc
          abc.cutAll [.narrow pastBrief, derivedBlocking, .narrow pastMirror]).exec
            workbench.session = (.ok r, t) ∧
        l.Alike r ∧ l.clauses.length = 3 := by
  have hmem : ∀ p ∈ [opening, guarded, broken], p ∈ workbench.rules := by simp [workbench]
  have hg : ∀ p ∈ [opening, guarded, broken], ∀ g ∈ p.outline.recipes, g = .answer := by
    simp [guarded, mirror, whole, opening, brief, joined, broken, Rule.outline, Outline.recipes]
  obtain ⟨l, s, r, t, hl, hr, h⟩ := Connective.alike_assoc .seq wellBehaved_answer
    workbench_reached workbench_reached (fun p hp => ⟨hmem p hp, hmem p hp⟩) hg
    [.narrow pastBrief, derivedBlocking, .narrow pastMirror]
  refine ⟨workbench_reached, hmem, hg, l, s, r, t, hl, hr, h, ?_⟩
  cases hl
  rfl

end Scenario

end LayoutRules
