import LayoutRules.Proofs.WellBehaved

namespace LayoutRules

variable {σ φ : Type}

inductive Leg (σ φ : Type) where
  | narrow (b : Boundary)
  | advance (c : Choice) (taken : Candidate) (rule : Rule σ φ)

namespace Leg

def move : Leg σ φ → Move σ φ
  | .narrow b => .narrow b
  | .advance c taken r => .advance c taken r

def boundary : Leg σ φ → Boundary
  | .narrow b => b
  | .advance c _ _ => c.boundary

def rules (leg : Leg σ φ) : List (Rule σ φ) := leg.move.rules

def costs : Leg σ φ → List Int
  | .narrow _ => []
  | .advance _ taken _ => [taken.cost]

def run [Recipe φ σ] (t : Trail σ φ) (leg : Leg σ φ) : Run σ (Trail σ φ) := leg.move.run t

/-- What a leg does to a tree that has been narrowed to its boundary. -/
def attach (o : Outline σ φ) : Leg σ φ → Outline σ φ
  | .narrow _ => o
  | .advance _ _ r => o.followedBy r.outline

end Leg

namespace Outline

/-- What is left of a tree at the boundary of the last of the legs, if there is one. -/
def narrowLast (o : Outline σ φ) (legs : List (Leg σ φ)) : Outline σ φ :=
  match legs.getLast? with
  | none => o
  | some leg => o.narrow leg.boundary

/-- The trees of the rules that the legs attach follow in turn, each as it is left at the end. -/
def attachAll (o : Outline σ φ) : List (Leg σ φ) → Outline σ φ
  | [] => o
  | .narrow _ :: legs => o.attachAll legs
  | .advance _ _ r :: legs => (o.followedBy (r.outline.narrowLast legs)).attachAll legs

def direct (o : Outline σ φ) (legs : List (Leg σ φ)) : Outline σ φ :=
  (o.narrowLast legs).attachAll legs

variable {legs : List (Leg σ φ)} {leg : Leg σ φ}

theorem narrowLast_snoc (h : ∀ l ∈ legs, l.boundary.NotAfter leg.boundary) (o : Outline σ φ) :
    o.narrowLast (legs ++ [leg]) = (o.narrowLast legs).narrow leg.boundary := by
  unfold narrowLast
  rw [List.getLast?_concat]
  cases hl : legs.getLast? with
  | none => rfl
  | some l => exact (narrow_narrow (h l (List.mem_of_getLast? hl)) o).symm

theorem attachAll_snoc (h : ∀ l ∈ legs, l.boundary.NotAfter leg.boundary) (o : Outline σ φ) :
    (o.narrow leg.boundary).attachAll (legs ++ [leg]) =
      leg.attach ((o.attachAll legs).narrow leg.boundary) := by
  induction legs generalizing o with
  | nil => cases leg <;> rfl
  | cons l legs ih =>
    rw [List.forall_mem_cons] at h
    cases l with
    | narrow b => exact ih h.2 o
    | advance c taken r =>
      simp only [List.cons_append, attachAll]
      rw [narrowLast_snoc h.2, narrow, narrow, ← prune_followedBy]
      exact ih h.2 (o.followedBy (r.outline.narrowLast legs))

theorem direct_snoc (leg : Leg σ φ) (h : ∀ l ∈ legs, l.boundary.NotAfter leg.boundary)
    (o : Outline σ φ) :
    o.direct (legs ++ [leg]) = leg.attach ((o.direct legs).narrow leg.boundary) := by
  rw [direct, narrowLast_snoc h, attachAll_snoc h]
  rfl

namespace Gathers

variable {α : Type} {f : Outline σ φ → List α} {P : α → Prop}

theorem narrowLast (hf : Gathers f) {o : Outline σ φ} (ho : ∀ x ∈ f o, P x)
    (legs : List (Leg σ φ)) : ∀ x ∈ f (o.narrowLast legs), P x := by
  unfold Outline.narrowLast
  cases legs.getLast? with
  | none => exact ho
  | some leg => exact fun x hx => ho x (hf.prune_subset _ _ hx)

theorem attachAll (hf : Gathers f) {o : Outline σ φ} (ho : ∀ x ∈ f o, P x)
    (hl : ∀ leg ∈ legs, ∀ r ∈ leg.rules, ∀ x ∈ f r.outline, P x) :
    ∀ x ∈ f (o.attachAll legs), P x := by
  induction legs generalizing o with
  | nil => exact ho
  | cons leg legs ih =>
    rw [List.forall_mem_cons] at hl
    cases leg with
    | narrow b => exact ih ho hl.2
    | advance c taken r =>
      have hr := hf.narrowLast (hl.1 r (by simp [Leg.rules, Leg.move])) legs
      refine ih (fun x hx => ?_) hl.2
      obtain hx | hx := List.mem_append.1 (hf.followedBy_subset _ _ hx)
      · exact ho x hx
      · exact hr x hx

theorem direct (hf : Gathers f) {o : Outline σ φ} (ho : ∀ x ∈ f o, P x)
    (hl : ∀ leg ∈ legs, ∀ r ∈ leg.rules, ∀ x ∈ f r.outline, P x) :
    ∀ x ∈ f (o.direct legs), P x :=
  hf.attachAll (hf.narrowLast ho legs) hl

end Gathers

end Outline

variable [Recipe φ σ]

namespace Rule

def narrowLast (p : Rule σ φ) (legs : List (Leg σ φ)) : Run σ (Rule σ φ) :=
  match legs.getLast? with
  | none => return p
  | some leg => p.narrow leg.boundary

/-- The rules that the legs attach follow in turn, each narrowed once, to the last boundary that
comes after it. -/
def attachAll (p : Rule σ φ) : List (Leg σ φ) → Run σ (Rule σ φ)
  | [] => return p
  | .narrow _ :: legs => p.attachAll legs
  | .advance _ _ r :: legs => do
    let r' ← r.narrowLast legs
    let p' ← p.followedBy r'
    p'.attachAll legs

/-- A rule and the rules that the legs attach, put together without a journey. -/
def direct (p : Rule σ φ) (legs : List (Leg σ φ)) : Run σ (Rule σ φ) := do
  let p' ← p.narrowLast legs
  p'.attachAll legs

end Rule

/-- On this bench a trail has gone these legs, having started from this rule. Between any two legs
the client may do as it likes. -/
inductive Travelled (p : Rule σ φ) : Bench σ φ → Trail σ φ → List (Leg σ φ) → Prop
  | start {w : Bench σ φ} (hw : w.Reached) (hp : p ∈ w.rules) : Travelled p w (.ofRule p) []
  | pause {w w' : Bench σ φ} {t : Trail σ φ} {legs : List (Leg σ φ)} (h : Travelled p w t legs)
      (hs : w.Step w') : Travelled p w' t legs
  | go {w : Bench σ φ} {t t' : Trail σ φ} {legs : List (Leg σ φ)} {s : Session σ}
      (h : Travelled p w t legs) (leg : Leg σ φ) (hl : ∀ r ∈ leg.rules, r ∈ w.rules)
      (he : (leg.run t).exec w.session = (.ok t', s)) :
      Travelled p ⟨s, t'.rule :: w.rules⟩ t' (legs ++ [leg])

variable {w : Bench σ φ} {p : Rule σ φ} {t : Trail σ φ} {legs : List (Leg σ φ)}

namespace Travelled

theorem reached (h : Travelled p w t legs) :
    w.Reached ∧ p ∈ w.rules ∧ t.rule ∈ w.rules ∧
      ∀ leg ∈ legs, ∀ r ∈ leg.rules, r ∈ w.rules := by
  induction h with
  | start hw hp => exact ⟨hw, hp, hp, by simp⟩
  | pause _ hs ih =>
    obtain ⟨hw, hp, ht, hl⟩ := ih
    have hsub := hs.rules_subset
    exact ⟨hw.step hs, hsub hp, hsub ht, fun leg hm r hr => hsub (hl leg hm r hr)⟩
  | @go w t t' legs s _ leg hg he ih =>
    obtain ⟨hw, hp, ht, hl⟩ := ih
    refine ⟨hw.move ht hg he, List.mem_cons_of_mem _ hp, List.mem_cons_self, ?_⟩
    intro l hm r hr
    rw [List.mem_append, List.mem_singleton] at hm
    obtain hm | rfl := hm
    · exact List.mem_cons_of_mem _ (hl l hm r hr)
    · exact List.mem_cons_of_mem _ (hg r hr)

end Travelled

variable {G : φ → Prop} {make : φ → Outline σ φ → Override σ}

theorem Leg.exec_run (hG : WellBehaved G make) (hw : w.Reached) (ht : t.rule ∈ w.rules)
    (hg : ∀ g ∈ t.rule.outline.recipes, G g) (leg : Leg σ φ) :
    ∃ t' s, (leg.run t).exec w.session = (.ok t', s) ∧
      t'.rule.outline = leg.attach (t.rule.outline.narrow leg.boundary) ∧
      t'.cost = leg.costs.foldl (· + ·) t.cost ∧ t'.depth = t.depth + leg.costs.length := by
  obtain ⟨q, u, hq, ho⟩ := Rule.exec_narrow hG hw ht hg leg.boundary
  cases leg with
  | narrow b =>
    exact ⟨{ t with rule := q }, u, Trail.exec_narrow hq, ho, rfl, rfl⟩
  | advance c taken r =>
    obtain ⟨q', v, hq', ho'⟩ := Rule.exec_followedBy q r u
    obtain ⟨j, hj⟩ := Trail.exec_advance taken hq hq'
    refine ⟨_, _, hj, ?_, rfl, rfl⟩
    rw [ho', ho]
    rfl

namespace Travelled

theorem outline_eq (hG : WellBehaved G make) (h : Travelled p w t legs)
    (hp : ∀ g ∈ p.outline.recipes, G g)
    (hg : ∀ leg ∈ legs, ∀ r ∈ leg.rules, ∀ g ∈ r.outline.recipes, G g)
    (hb : (legs.map Leg.boundary).Pairwise Boundary.NotAfter) :
    t.rule.outline = p.outline.direct legs ∧ t.cost = (legs.flatMap Leg.costs).foldl (· + ·) 0 ∧
      t.depth = (legs.flatMap Leg.costs).length := by
  induction h with
  | start => exact ⟨rfl, rfl, rfl⟩
  | pause _ _ ih => exact ih hg hb
  | @go w t t' legs s h leg hl he ih =>
    rw [List.forall_mem_append] at hg
    rw [List.map_append, List.pairwise_append] at hb
    obtain ⟨ho, hcost, hdepth⟩ := ih hg.1 hb.1
    obtain ⟨hw, _, ht, _⟩ := h.reached
    have hgt : ∀ g ∈ t.rule.outline.recipes, G g := by
      rw [ho]
      exact Outline.gathers_recipes.direct hp hg.1
    obtain ⟨t₁, s₁, he₁, ho₁, hcost₁, hdepth₁⟩ := Leg.exec_run hG hw ht hgt leg
    cases he₁.symm.trans he
    have hlast : ∀ l ∈ legs, l.boundary.NotAfter leg.boundary := fun l hl =>
      hb.2.2 _ (List.mem_map_of_mem hl) _ (by simp)
    refine ⟨?_, ?_, ?_⟩
    · rw [ho₁, ho, Outline.direct_snoc leg hlast]
    · rw [hcost₁, hcost]
      simp
    · rw [hdepth₁, hdepth]
      simp

end Travelled

namespace Rule

theorem exec_narrowLast (hG : WellBehaved G make) (hw : w.Reached) (hp : p ∈ w.rules)
    (hg : ∀ g ∈ p.outline.recipes, G g) (legs : List (Leg σ φ)) :
    ∃ q, ∃ v : Bench σ φ, (p.narrowLast legs).exec w.session = (.ok q, v.session) ∧ v.Reached ∧
      w.rules ⊆ v.rules ∧ q ∈ v.rules ∧ q.outline = p.outline.narrowLast legs := by
  unfold narrowLast Outline.narrowLast
  cases legs.getLast? with
  | none => exact ⟨p, w, rfl, hw, List.Subset.refl _, hp, rfl⟩
  | some leg =>
    obtain ⟨q, s, hq, ho⟩ := exec_narrow hG hw hp hg leg.boundary
    have hw' := hw.make (.narrow p leg.boundary) (by simpa using hp) hq
    exact ⟨q, ⟨s, q :: w.rules⟩, hq, hw', List.subset_cons_self _ _, List.mem_cons_self, ho⟩

theorem exec_attachAll (hG : WellBehaved G make) (hw : w.Reached) (hp : p ∈ w.rules)
    (hl : ∀ leg ∈ legs, ∀ r ∈ leg.rules, r ∈ w.rules)
    (hg : ∀ leg ∈ legs, ∀ r ∈ leg.rules, ∀ g ∈ r.outline.recipes, G g) :
    ∃ q, ∃ v : Bench σ φ, (p.attachAll legs).exec w.session = (.ok q, v.session) ∧ v.Reached ∧
      q ∈ v.rules ∧ q.outline = p.outline.attachAll legs := by
  induction legs generalizing w p with
  | nil => exact ⟨p, w, rfl, hw, hp, rfl⟩
  | cons leg legs ih =>
    rw [List.forall_mem_cons] at hl hg
    cases leg with
    | narrow b => exact ih hw hp hl.2 hg.2
    | advance c taken r =>
      have hr : r ∈ w.rules := hl.1 r (by simp [Leg.rules, Leg.move])
      obtain ⟨r', v, hr', hv, hsub, hmem, ho⟩ :=
        exec_narrowLast hG hw hr (hg.1 r (by simp [Leg.rules, Leg.move])) legs
      obtain ⟨p', u, hp', ho'⟩ := exec_followedBy p r' v.session
      have hv' := hv.make (.seq p r') (by simp [hsub hp, hmem]) hp'
      obtain ⟨q, v', hq, hvq, hqmem, hoq⟩ := ih hv' List.mem_cons_self
        (fun leg hm r hr => List.mem_cons_of_mem _ (hsub (hl.2 leg hm r hr))) hg.2
      refine ⟨q, v', ?_, hvq, hqmem, ?_⟩
      · rw [attachAll, Run.exec_bind_ok hr', Run.exec_bind_ok hp']
        exact hq
      · rw [hoq, ho', ho]
        rfl

theorem exec_direct (hG : WellBehaved G make) (hw : w.Reached) (hp : p ∈ w.rules)
    (hl : ∀ leg ∈ legs, ∀ r ∈ leg.rules, r ∈ w.rules) (hgp : ∀ g ∈ p.outline.recipes, G g)
    (hg : ∀ leg ∈ legs, ∀ r ∈ leg.rules, ∀ g ∈ r.outline.recipes, G g) :
    ∃ q, ∃ v : Bench σ φ, (p.direct legs).exec w.session = (.ok q, v.session) ∧ v.Reached ∧
      q ∈ v.rules ∧ q.outline = p.outline.direct legs := by
  obtain ⟨p', v, hp', hv, hsub, hmem, ho⟩ := exec_narrowLast hG hw hp hgp legs
  obtain ⟨q, v', hq, hvq, hqmem, hoq⟩ := exec_attachAll hG hv hmem
    (fun leg hm r hr => hsub (hl leg hm r hr)) hg
  refine ⟨q, v', ?_, hvq, hqmem, ?_⟩
  · rw [direct, Run.exec_bind_ok hp']
    exact hq
  · rw [hoq, ho]
    rfl

theorem exec_direct_snoc (hG : WellBehaved G make) (hw : w.Reached) (hp : p ∈ w.rules)
    (hl : ∀ leg ∈ legs, ∀ r ∈ leg.rules, r ∈ w.rules) (hgp : ∀ g ∈ p.outline.recipes, G g)
    (hg : ∀ leg ∈ legs, ∀ r ∈ leg.rules, ∀ g ∈ r.outline.recipes, G g) {b : Boundary}
    (hb : ∀ leg ∈ legs, leg.boundary.NotAfter b) :
    ∃ q, ∃ v : Bench σ φ, (p.direct (legs ++ [.narrow b])).exec w.session = (.ok q, v.session) ∧
      v.Reached ∧ q ∈ v.rules ∧ q.outline = (p.outline.direct legs).narrow b := by
  have hl' : ∀ leg ∈ legs ++ [.narrow b], ∀ r ∈ leg.rules, r ∈ w.rules := by
    rw [List.forall_mem_append]
    exact ⟨hl, by simp [Leg.rules, Leg.move]⟩
  have hg' : ∀ leg ∈ legs ++ [.narrow b], ∀ r ∈ leg.rules, ∀ g ∈ r.outline.recipes, G g := by
    rw [List.forall_mem_append]
    exact ⟨hg, by simp [Leg.rules, Leg.move]⟩
  obtain ⟨q, v, hq, hv, hmem, ho⟩ := exec_direct hG hw hp hl' hgp hg'
  refine ⟨q, v, hq, hv, hmem, ?_⟩
  rw [ho, Outline.direct_snoc (.narrow b) hb]
  rfl

end Rule

theorem Travelled.exec_candidates (hG : WellBehaved G make) (h : Travelled p w t legs)
    (hp : ∀ g ∈ p.outline.recipes, G g)
    (hg : ∀ leg ∈ legs, ∀ r ∈ leg.rules, ∀ g ∈ r.outline.recipes, G g)
    (hb : (legs.map Leg.boundary).Pairwise Boundary.NotAfter) (c : Choice) :
    ∃ q, ∃ v : Bench σ φ, ∃ s,
      (p.direct legs >>= fun q' => q'.narrow c.boundary).exec w.session = (.ok q, v.session) ∧
      v.Reached ∧ q ∈ v.rules ∧ q.outline = (p.outline.direct legs).narrow c.boundary ∧
      (t.candidates c).exec w.session = (q.resolve c).exec s := by
  obtain ⟨hw, hpw, ht, hl⟩ := h.reached
  obtain ⟨ho, _⟩ := h.outline_eq hG hp hg hb
  have hgd : ∀ g ∈ (p.outline.direct legs).recipes, G g := Outline.gathers_recipes.direct hp hg
  obtain ⟨q', v', hq', hv', hmem', hoq'⟩ := Rule.exec_direct hG hw hpw hl hp hg
  obtain ⟨q, u, hq, hoq⟩ := Rule.exec_narrow hG hv' hmem' (by rwa [hoq']) c.boundary
  obtain ⟨r, s, hr, hor⟩ := Rule.exec_narrow hG hw ht (by rwa [ho]) c.boundary
  have hv := hv'.make (.narrow q' c.boundary) (by simpa using hmem') hq
  have hwr := hw.make (.narrow t.rule c.boundary) (by simpa using ht) hr
  rw [hoq'] at hoq
  have he : r.outline = q.outline := by rw [hor, hoq, ho]
  have hgq : ∀ g ∈ q.outline.recipes, G g := by
    rw [hoq]
    exact fun g hm => hgd g (Outline.gathers_recipes.prune_subset _ _ hm)
  have ha := Rule.answer_eq_of_outline_eq hG hwr hv (by simp) (by simp) he hgq
  refine ⟨q, ⟨u, q :: v'.rules⟩, s, ?_, hv, by simp, hoq, ?_⟩
  · rw [Run.exec_bind_ok hq']
    exact hq
  · rw [Trail.candidates, Run.exec_bind_ok hr, Rule.resolve, Rule.resolve, ha]

/-- A journey goes on without fail, and comes to what its rules come to when they are put together
without it, each narrowed once. This holds of the tree and the answers of the trail's rule and of
the candidates at any further choice, while cost and depth are those of the candidates taken. If
the choice is ahead, its boundary may as well count as one more leg. If clauses are pure and recipes
keep them so, the candidates do not depend on the session. -/
theorem travelled_eq_direct (hG : WellBehaved G make) (h : Travelled p w t legs)
    (hp : ∀ g ∈ p.outline.recipes, G g)
    (hg : ∀ leg ∈ legs, ∀ r ∈ leg.rules, ∀ g ∈ r.outline.recipes, G g)
    (hb : (legs.map Leg.boundary).Pairwise Boundary.NotAfter) :
    (∃ q u, (p.direct legs).exec w.session = (.ok q, u) ∧ t.rule.outline = q.outline ∧
      t.rule.answer = q.answer) ∧
    t.cost = (legs.flatMap Leg.costs).foldl (· + ·) 0 ∧ t.depth = (legs.flatMap Leg.costs).length ∧
    (∀ leg : Leg σ φ, ∃ t' s, (leg.run t).exec w.session = (.ok t', s)) ∧
    ∀ c : Choice, ∃ q u v,
      (p.direct legs >>= fun q' => q'.narrow c.boundary).exec w.session = (.ok q, u) ∧
      (t.candidates c).exec w.session = (q.resolve c).exec v ∧
      ((∀ leg ∈ legs, leg.boundary.NotAfter c.boundary) →
        ∃ q' u', (p.direct (legs ++ [.narrow c.boundary])).exec w.session = (.ok q', u') ∧
          q'.outline = q.outline ∧ q'.answer = q.answer) ∧
      (KeepsPure G make → (∀ f ∈ p.outline.bodies, f.Pure) →
        (∀ leg ∈ legs, ∀ r ∈ leg.rules, ∀ f ∈ r.outline.bodies, f.Pure) →
        ∃ cs, (∃ s, (t.candidates c).exec w.session = (.ok cs, s)) ∧
          ∀ s, ∃ s', (q.resolve c).exec s = (.ok cs, s')) := by
  obtain ⟨hw, hpw, ht, hl⟩ := h.reached
  obtain ⟨ho, hcost, hdepth⟩ := h.outline_eq hG hp hg hb
  have hgd : ∀ g ∈ (p.outline.direct legs).recipes, G g := Outline.gathers_recipes.direct hp hg
  refine ⟨?_, hcost, hdepth, fun leg => ?_, fun c => ?_⟩
  · obtain ⟨q, v, hq, hv, hmem, hoq⟩ := Rule.exec_direct hG hw hpw hl hp hg
    have he : t.rule.outline = q.outline := by rw [ho, hoq]
    exact ⟨q, v.session, hq, he, Rule.answer_eq_of_outline_eq hG hw hv ht hmem he (by rwa [hoq])⟩
  · obtain ⟨t', s, he, _⟩ := leg.exec_run hG hw ht (by rwa [ho])
    exact ⟨t', s, he⟩
  · obtain ⟨q, v, s, hq, hv, hmem, hoq, hcand⟩ := h.exec_candidates hG hp hg hb c
    have hgq : ∀ g ∈ q.outline.recipes, G g := by
      rw [hoq]
      exact fun g hm => hgd g (Outline.gathers_recipes.prune_subset _ _ hm)
    refine ⟨q, v.session, s, hq, hcand, fun hc => ?_, fun hK hbp hbl => ?_⟩
    · obtain ⟨q', v', hq', hv', hmem', hoq'⟩ := Rule.exec_direct_snoc hG hw hpw hl hp hg hc
      have he : q'.outline = q.outline := by rw [hoq', hoq]
      exact ⟨q', v'.session, hq', he, Rule.answer_eq_of_outline_eq hG hv' hv hmem' hmem he hgq⟩
    · have hbq : ∀ f ∈ q.outline.bodies, f.Pure := by
        rw [hoq]
        exact fun f hm => Outline.gathers_bodies.direct hbp hbl f
          (Outline.gathers_bodies.prune_subset _ _ hm)
      have hpure : q.answer.Pure := by
        rw [Rule.answer_outline hG (hv.founded_parts hmem) hgq]
        exact Outline.pure_answer hK hgq hbq
      obtain ⟨cs, hcs⟩ := Rule.exec_resolve_of_pure hpure c
      exact ⟨cs, hcand ▸ hcs s, hcs⟩

namespace Scenario

theorem keepsPure_answer :
    KeepsPure (fun g : Method => g = .answer) fun _ (o : Outline Tally Method) =>
      o.mirroredAnswer :=
  fun _ _ ho => Outline.pure_mirroredAnswer ho

def layover : List (Leg Tally Method) :=
  [.advance ⟨pastBrief, []⟩ { gap := .space, cost := 2 } opening, .narrow pastMirror,
    .advance ⟨pastMirror, []⟩ { gap := .newline, cost := 3 } broken]

theorem layover_eq_direct :
    ∃ w t, Travelled guarded w t layover ∧
      (∀ g ∈ guarded.outline.recipes, g = .answer) ∧
      (∀ leg ∈ layover, ∀ r ∈ leg.rules, ∀ g ∈ r.outline.recipes, g = .answer) ∧
      (layover.map Leg.boundary).Pairwise Boundary.NotAfter ∧
      (∃ q u, (guarded.direct layover).exec w.session = (.ok q, u) ∧ t.rule.outline = q.outline ∧
        t.rule.answer = q.answer) ∧
      t.cost = 5 ∧ t.depth = 2 ∧
      ∃ q u q' u' cs s,
        (guarded.direct layover >>= fun q => q.narrow pastMirror).exec w.session = (.ok q, u) ∧
        (guarded.direct (layover ++ [.narrow pastMirror])).exec w.session = (.ok q', u') ∧
        q'.outline = q.outline ∧ q'.answer = q.answer ∧
        (t.candidates finale).exec w.session = (.ok cs, s) ∧
        ∀ s, ∃ s', (q.resolve finale).exec s = (.ok cs, s') := by
  have h := Travelled.start (p := guarded) workbench_reached (by simp [workbench])
  have h := h.go (.advance ⟨pastBrief, []⟩ { gap := .space, cost := 2 } opening)
    (by simp [Leg.rules, Leg.move, workbench]) rfl
  have h := h.go (.narrow pastMirror) (by simp [Leg.rules, Leg.move]) rfl
  have h := h.go (.advance ⟨pastMirror, []⟩ { gap := .newline, cost := 3 } broken)
    (by simp [Leg.rules, Leg.move, workbench]) rfl
  have hp : ∀ g ∈ guarded.outline.recipes, g = .answer := by
    simp [guarded, mirror, whole, opening, brief, joined, broken, Rule.outline, Outline.recipes]
  have hg : ∀ leg ∈ layover, ∀ r ∈ leg.rules, ∀ g ∈ r.outline.recipes, g = .answer := by
    simp [layover, Leg.rules, Leg.move, opening, brief, joined, broken, Rule.outline, Outline.recipes]
  have hb : (layover.map Leg.boundary).Pairwise Boundary.NotAfter := by decide
  obtain ⟨hdirect, hcost, hdepth, _, hcand⟩ :=
    travelled_eq_direct wellBehaved_answer h hp hg hb
  obtain ⟨q, u, v, hq, _, hahead, hpure⟩ := hcand finale
  obtain ⟨q', u', hq', ho', ha'⟩ := hahead (by decide)
  obtain ⟨cs, ⟨s, hcs⟩, hall⟩ := hpure keepsPure_answer
    (by simp [guarded, mirror, whole, opening, brief, joined, broken, Rule.outline, Outline.bodies,
      Override.newlines, Override.nonNewlines, Override.pure_total])
    (by simp [Leg.rules, Leg.move, opening, brief, joined, broken, Rule.outline, Outline.bodies,
      Override.newlines, Override.nonNewlines, Override.pure_total])
  exact ⟨_, _, h, hp, hg, hb, hdirect, hcost, hdepth, q, u, q', u', cs, s, hq, hq', ho', ha', hcs,
    hall⟩

end Scenario

end LayoutRules
