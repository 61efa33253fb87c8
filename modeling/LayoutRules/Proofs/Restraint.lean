import LayoutRules.Proofs.Cuts

namespace LayoutRules

variable {σ φ α β : Type}

theorem Run.exec_bind_eq_error {x : Run σ α} {f : α → Run σ β} {s t : Session σ} {e : Fault} :
    (x >>= f).exec s = (.error e, t) ↔
      x.exec s = (.error e, t) ∨ ∃ a u, x.exec s = (.ok a, u) ∧ (f a).exec u = (.error e, t) := by
  rw [exec_bind]
  constructor
  · intro h
    split at h
    · rename_i a u ha
      exact .inr ⟨a, u, ha, h⟩
    · rename_i ha
      cases h
      exact .inl ha
  · rintro (h | ⟨a, u, ha, h⟩)
    · rw [h]
    · rw [ha]
      exact h

variable {R : List Candidate → List Candidate → Prop}

namespace Override

/-- Wherever the override answers, its answer is related to what it was given. -/
def Restricts (R : List Candidate → List Candidate → Prop) (f : Override σ) : Prop :=
  ∀ c s cs t, (f c).exec s = (.ok (some cs), t) → R cs c.candidates

variable {f g : Override σ}

theorem Restricts.getD (hrefl : ∀ cs, R cs cs) (hf : f.Restricts R) {c : Choice} {s t : Session σ}
    {a : Option (List Candidate)} (h : (f c).exec s = (.ok a, t)) :
    R (a.getD c.candidates) c.candidates := by
  cases a with
  | none => exact hrefl _
  | some cs => exact hf c s cs t h

theorem Restricts.followedBy (hrefl : ∀ cs, R cs cs)
    (htrans : ∀ {as bs cs}, R as bs → R bs cs → R as cs) (hf : f.Restricts R) (hg : g.Restricts R) :
    (f.followedBy g).Restricts R := by
  intro c s cs t h
  obtain ⟨a, u, ha, h⟩ := Run.exec_bind_eq_ok.1 h
  obtain ⟨b, v, hb, h⟩ := Run.exec_bind_eq_ok.1 h
  cases h
  exact htrans (hg.getD hrefl hb) (hf.getD hrefl ha)

theorem Restricts.otherwise (hf : f.Restricts R) (hg : g.Restricts R) :
    (f.otherwise g).Restricts R := by
  intro c s cs t h
  obtain ⟨a, u, ha, h⟩ := Run.exec_bind_eq_ok.1 h
  cases a with
  | none => exact hg c u cs t h
  | some cs' =>
    cases h
    exact hf c s _ _ ha

theorem restricts_keep (p : Candidate → Bool) : (keep p : Override σ).Restricts List.Sublist := by
  intro c s cs t h
  cases h
  exact List.filter_sublist

end Override

namespace Rule

/-- What the rule leaves open is always related to what was open before. -/
def Restricts (R : List Candidate → List Candidate → Prop) (r : Rule σ φ) : Prop :=
  ∀ c s cs t, (r.resolve c).exec s = (.ok cs, t) → R cs c.candidates

theorem restricts_of_answer (hrefl : ∀ cs, R cs cs) {r : Rule σ φ} (h : r.answer.Restricts R) :
    r.Restricts R := by
  intro c s cs t he
  obtain ⟨a, u, ha, he⟩ := Run.exec_bind_eq_ok.1 he
  cases he
  exact h.getD hrefl ha

theorem Restricts.answer {r : Rule σ φ} (h : r.Restricts R) : r.answer.Restricts R :=
  fun c s cs t he => h c s cs t (Run.exec_bind_ok he)

end Rule

variable [Recipe φ σ]

/-- What the recipe makes of a rule that restricts restricts as well. -/
def RestrictsBy (R : List Candidate → List Candidate → Prop) (g : φ) : Prop :=
  ∀ {w : Bench σ φ} {p : Rule σ φ} {f : Override σ} {s : Session σ}, w.Reached → p ∈ w.rules →
    p.Restricts R → (Recipe.derive g p).exec w.session = (.ok (some f), s) → f.Restricts R

namespace Rule

/-- A rule whose clauses restrict, and whose recipes see to it that derived rules do. -/
structure Restrained (R : List Candidate → List Candidate → Prop) (r : Rule σ φ) : Prop where
  bodies : ∀ f ∈ r.outline.bodies, f.Restricts R
  recipes : ∀ g ∈ r.outline.recipes, RestrictsBy R g

variable {r q : Rule σ φ} {s t : Session σ}

theorem restricts_of_restrained (hrefl : ∀ cs, R cs cs)
    (htrans : ∀ {as bs cs}, R as bs → R bs cs → R as cs) (hf : ∀ p ∈ r.parts, p.Founded)
    (hr : r.Restrained R) : r.Restricts R := by
  refine restricts_of_answer hrefl ?_
  obtain ⟨hb, hg⟩ := hr
  induction r with
  | empty =>
    intro c s cs t h
    cases h
  | clause n body => exact hb body (List.mem_singleton_self _)
  | seq n body p q ihp ihq =>
    simp only [parts, List.forall_mem_cons, List.forall_mem_append] at hf
    simp only [outline, Outline.bodies, Outline.recipes, List.forall_mem_append] at hb hg
    obtain ⟨⟨_, _, rfl⟩, hfp, hfq⟩ := hf
    exact (ihp hfp hb.1 hg.1).followedBy hrefl htrans (ihq hfq hb.2 hg.2)
  | alt n body p q ihp ihq =>
    simp only [parts, List.forall_mem_cons, List.forall_mem_append] at hf
    simp only [outline, Outline.bodies, Outline.recipes, List.forall_mem_append] at hb hg
    obtain ⟨⟨_, _, rfl⟩, hfp, hfq⟩ := hf
    exact (ihp hfp hb.1 hg.1).otherwise (ihq hfq hb.2 hg.2)
  | derived n source recipe body expiry label ih =>
    simp only [parts, List.forall_mem_cons] at hf
    simp only [outline, Outline.recipes, List.forall_mem_cons] at hg
    obtain ⟨⟨_, w, s, hw, hsource, he, _⟩, hfs⟩ := hf
    -- The recipe was called on the very source that the rule has now, however often it was cut.
    exact hg.1 hw hsource (restricts_of_answer hrefl (ih hfs hb hg.2)) he

theorem exists_override_error (hf : ∀ p ∈ r.parts, p.Founded) {c : Choice} {e : Fault}
    (h : (r.answer c).exec s = (.error e, t)) :
    ∃ f ∈ r.overrides, ∃ c' s', (f c').exec s' = (.error e, t) := by
  induction r generalizing c s with
  | empty => cases h
  | clause n body | derived n source recipe body => exact ⟨body, List.mem_singleton_self _, c, s, h⟩
  | seq n body p q ihp ihq =>
    simp only [parts, List.forall_mem_cons, List.forall_mem_append] at hf
    obtain ⟨⟨_, _, rfl⟩, hfp, hfq⟩ := hf
    obtain h | ⟨a, u, _, h⟩ := Run.exec_bind_eq_error.1 h
    · obtain ⟨f, hm, hfail⟩ := ihp hfp h
      exact ⟨f, List.mem_append_left _ hm, hfail⟩
    · obtain h | ⟨b, v, _, h⟩ := Run.exec_bind_eq_error.1 h
      · obtain ⟨f, hm, hfail⟩ := ihq hfq h
        exact ⟨f, List.mem_append_right _ hm, hfail⟩
      · cases h
  | alt n body p q ihp ihq =>
    simp only [parts, List.forall_mem_cons, List.forall_mem_append] at hf
    obtain ⟨⟨_, _, rfl⟩, hfp, hfq⟩ := hf
    obtain h | ⟨a, u, _, h⟩ := Run.exec_bind_eq_error.1 h
    · obtain ⟨f, hm, hfail⟩ := ihp hfp h
      exact ⟨f, List.mem_append_left _ hm, hfail⟩
    · cases a with
      | some as => cases h
      | none =>
        obtain ⟨f, hm, hfail⟩ := ihq hfq h
        exact ⟨f, List.mem_append_right _ hm, hfail⟩

end Rule

namespace Outline.Gathers

variable {f : Outline σ φ → List α} {r q : Rule σ φ} {s u : Session σ}

omit [Recipe φ σ] in
theorem exec_join_subset (hf : Gathers f) (k : Connective) {p : Rule σ φ}
    (h : (k.join p q).exec s = (.ok r, u)) : f r.outline ⊆ f p.outline ++ f q.outline := by
  obtain ⟨r', u', he, ho⟩ := k.exec_join p q s
  cases he.symm.trans h
  rw [ho]
  exact hf.node_subset k _ _

theorem exec_derive_subset (hf : Gathers f) {source : Rule σ φ} {recipe : φ} {expiry : Expiry}
    {label : Text} (h : (q.derive expiry recipe label).exec s = (.ok r, u))
    (hq : f q.outline ⊆ f source.outline) :
    f r.outline ⊆ f (.derived source.outline recipe expiry label) := by
  obtain ⟨_, rfl, _⟩ | ⟨_, f', v, _, rfl, _⟩ := Rule.exec_derive_eq_ok.1 h
  · exact hf.empty_subset _
  · exact hf.derived recipe expiry label hq

omit [Recipe φ σ] in
theorem exec_rejoin_subset (hf : Gathers f) (k : Connective) {whole p p' q' : Rule σ φ}
    (hw : f p.outline ++ f q.outline ⊆ f whole.outline) (hp : f p'.outline ⊆ f p.outline)
    (hq : f q'.outline ⊆ f q.outline)
    (h : (Rule.rejoin whole p q p' q' (k.join p' q')).exec s = (.ok r, u)) :
    f r.outline ⊆ f whole.outline := by
  obtain ⟨_, _, hj⟩ | ⟨_, hj⟩ := Rule.rejoin_cases whole p q p' q' (k.join p' q')
  · rw [hj] at h
    cases h
    exact List.Subset.refl _
  · rw [hj] at h
    rw [List.append_subset] at hw
    refine List.Subset.trans (hf.exec_join_subset k h) (List.append_subset.2 ⟨?_, ?_⟩)
    · exact List.Subset.trans hp hw.1
    · exact List.Subset.trans hq hw.2

theorem exec_filter_subset (hf : Gathers f) {test : Test σ φ}
    (h : (r.filter test).exec s = (.ok q, u)) : f q.outline ⊆ f r.outline := by
  induction r generalizing q s u with
  | empty =>
    cases h
    exact List.Subset.refl _
  | clause n body expiry blocking label =>
    obtain ⟨passed, v, _, h⟩ := Run.exec_bind_eq_ok.1 h
    cases h
    cases passed with
    | true => exact List.Subset.refl _
    | false => exact hf.empty_subset _
  | seq n body a b iha ihb =>
    obtain ⟨a', v, ha, h⟩ := Run.exec_bind_eq_ok.1 h
    obtain ⟨b', v', hb, h⟩ := Run.exec_bind_eq_ok.1 h
    refine hf.exec_rejoin_subset .seq ?_ (iha ha) (ihb hb) h
    rw [Rule.outline, hf.seq]
    exact List.Subset.refl _
  | alt n body a b iha ihb =>
    obtain ⟨a', v, ha, h⟩ := Run.exec_bind_eq_ok.1 h
    obtain ⟨b', v', hb, h⟩ := Run.exec_bind_eq_ok.1 h
    refine hf.exec_rejoin_subset .alt ?_ (iha ha) (ihb hb) h
    rw [Rule.outline, hf.alt]
    exact List.Subset.refl _
  | derived n source recipe body expiry label ih =>
    obtain ⟨passed, v, _, h⟩ := Run.exec_bind_eq_ok.1 h
    cases passed with
    | false =>
      cases h
      exact hf.empty_subset _
    | true =>
      obtain ⟨source', v', hs, h⟩ := Run.exec_bind_eq_ok.1 h
      exact hf.exec_derive_subset h (ih hs)

theorem exec_narrow_subset (hf : Gathers f) {b : Boundary} (h : (r.narrow b).exec s = (.ok q, u)) :
    f q.outline ⊆ f r.outline := by
  rw [Rule.narrow_eq_filter] at h
  exact hf.exec_filter_subset h

theorem mem_of_move (hf : Gathers f) {t t' : Trail σ φ} {m : Move σ φ}
    (h : (m.run t).exec s = (.ok t', u)) {x : α} (hx : x ∈ f t'.rule.outline) :
    x ∈ f t.rule.outline ∨ ∃ r ∈ m.rules, x ∈ f r.outline := by
  cases m with
  | narrow b =>
    obtain ⟨q, hq, rfl⟩ := Trail.exec_narrow_eq_ok h
    exact .inl (hf.exec_narrow_subset hq hx)
  | attach r =>
    obtain ⟨q, v, hq, -⟩ := Rule.exec_join _ t.rule r s
    obtain ⟨j, hj⟩ := Trail.exec_attach hq
    cases hj.symm.trans h
    exact (List.mem_append.1 (hf.exec_join_subset .seq hq hx)).imp_right fun hr =>
      ⟨r, by simp [Move.rules], hr⟩
  | attachFallback r =>
    obtain ⟨q, v, hq, -⟩ := Rule.exec_join _ t.rule r s
    obtain ⟨j, hj⟩ := Trail.exec_attachFallback hq
    cases hj.symm.trans h
    exact (List.mem_append.1 (hf.exec_join_subset .alt hq hx)).imp_right fun hr =>
      ⟨r, by simp [Move.rules], hr⟩
  | without test =>
    obtain ⟨q, v, hq, h⟩ := Run.exec_bind_eq_ok.1 h
    cases h
    exact .inl (hf.exec_filter_subset hq hx)
  | advance c taken r =>
    obtain ⟨p, q, v, v', j, hp, hq, rfl, rfl⟩ := Trail.exec_advance_eq_ok h
    refine (List.mem_append.1 (hf.exec_join_subset .seq hq hx)).imp (fun hp' => ?_) fun hr => ?_
    · exact hf.exec_narrow_subset hp hp'
    · exact ⟨r, by simp [Move.rules], hr⟩

end Outline.Gathers

/-- On this bench a trail has been led so far, from a start without a rule and by rules of one kind
only. Between any two moves the client may do as it likes. -/
inductive Led (P : Rule σ φ → Prop) : Bench σ φ → Trail σ φ → Prop
  | start {w : Bench σ φ} (hw : w.Reached) : Led P w {}
  | pause {w w' : Bench σ φ} {t : Trail σ φ} (h : Led P w t) (hs : w.Step w') : Led P w' t
  | move {w : Bench σ φ} {t t' : Trail σ φ} {s : Session σ} (h : Led P w t) (m : Move σ φ)
      (hm : ∀ r ∈ m.rules, r ∈ w.rules ∧ P r) (he : (m.run t).exec w.session = (.ok t', s)) :
      Led P ⟨s, t'.rule :: w.rules⟩ t'

namespace Led

variable {P : Rule σ φ → Prop} {w : Bench σ φ} {t : Trail σ φ}

theorem reached (h : Led P w t) : w.Reached ∧ t.rule ∈ w.rules := by
  induction h with
  | start hw => exact ⟨hw, hw.empty_mem⟩
  | pause _ hs ih => exact ⟨ih.1.step hs, hs.rules_subset ih.2⟩
  | move _ m hm he ih =>
    exact ⟨ih.1.move ih.2 (fun r hr => (hm r hr).1) he, List.mem_cons_self⟩

theorem forall_mem (h : Led P w t) {f : Outline σ φ → List α} (hf : Outline.Gathers f)
    {Q : α → Prop} (hP : ∀ r, P r → ∀ x ∈ f r.outline, Q x) : ∀ x ∈ f t.rule.outline, Q x := by
  induction h with
  | start => exact fun x hx => absurd (hf.empty_subset [] hx) List.not_mem_nil
  | pause _ _ ih => exact ih
  | move _ m hm he ih =>
    intro x hx
    obtain hx | ⟨r, hr, hx⟩ := hf.mem_of_move he hx
    · exact ih x hx
    · exact hP r (hm r hr).2 x hx

theorem restrained (h : Led (Rule.Restrained R) w t) : t.rule.Restrained R where
  bodies := h.forall_mem Outline.gathers_bodies fun _ hr => hr.bodies
  recipes := h.forall_mem Outline.gathers_recipes fun _ hr => hr.recipes

/-- Along a trail led by rules that restrict, the candidates that are open at a choice are related
to those it has. If there are none, this is the fault of a recipe that was called in narrowing, or
of an override of what the narrowing left. -/
theorem candidates_restrict (hrefl : ∀ cs, R cs cs)
    (htrans : ∀ {as bs cs}, R as bs → R bs cs → R as cs) (h : Led (Rule.Restrained R) w t)
    (c : Choice) :
    (∃ cs u, (t.candidates c).exec w.session = (.ok cs, u) ∧ R cs c.candidates) ∨
      ∃ e u, (t.candidates c).exec w.session = (.error e, u) ∧
        (t.rule.outline.Refuses e u ∨
          ∃ q s, (t.rule.narrow c.boundary).exec w.session = (.ok q, s) ∧
            ∃ f ∈ q.overrides, ∃ c' s', (f c').exec s' = (.error e, u)) := by
  obtain ⟨hw, ht⟩ := h.reached
  cases hw.comes_cut ht (.narrow c.boundary) with
  | refused he hr => exact .inr ⟨_, _, Run.exec_bind_error he, .inl hr⟩
  | @made q v he hv _ hq _ =>
    have hf := hv.founded_parts hq
    have hrestrained : q.Restrained R :=
      ⟨fun f hm => h.restrained.bodies f (Outline.gathers_bodies.exec_narrow_subset he hm),
        fun g hm => h.restrained.recipes g (Outline.gathers_recipes.exec_narrow_subset he hm)⟩
    have hcand : (t.candidates c).exec w.session = (q.resolve c).exec v.session :=
      Run.exec_bind_ok he
    rw [hcand]
    cases hres : (q.resolve c).exec v.session with
    | mk res u =>
      cases res with
      | ok cs =>
        have hrestricts := Rule.restricts_of_restrained hrefl htrans hf hrestrained
        exact .inl ⟨cs, u, rfl, hrestricts c _ _ _ hres⟩
      | error e =>
        refine .inr ⟨e, u, rfl, .inr ⟨q, v.session, he, ?_⟩⟩
        obtain ha | ⟨a, _, _, ha⟩ := Run.exec_bind_eq_error.1 hres
        · exact Rule.exists_override_error hf ha
        · cases ha

end Led

namespace Scenario

theorem restrictsBy_answer : RestrictsBy R Method.answer := by
  intro w p f s _ _ hp he
  cases he
  exact hp.answer

theorem restricts_newlines : (Override.newlines : Override σ).Restricts List.Sublist :=
  Override.restricts_keep _

theorem restricts_nonNewlines : (Override.nonNewlines : Override σ).Restricts List.Sublist :=
  Override.restricts_keep _

theorem guarded_restrained : guarded.Restrained List.Sublist := by
  constructor
  · simp [guarded, mirror, whole, opening, brief, joined, broken, Rule.outline, Outline.bodies,
      restricts_newlines, restricts_nonNewlines]
  · simp [guarded, mirror, whole, opening, brief, joined, broken, Rule.outline, Outline.recipes,
      restrictsBy_answer]

theorem broken_restrained : broken.Restrained List.Sublist := by
  constructor
  · simp [broken, Rule.outline, Outline.bodies, restricts_newlines]
  · simp [broken, Rule.outline, Outline.recipes]

theorem guarded_candidates_restrict :
    ∃ (w : Bench Tally Method) (t : Trail Tally Method), Led (Rule.Restrained List.Sublist) w t ∧
      t.depth = 1 ∧ ∃ cs u, (t.candidates finale).exec w.session = (.ok cs, u) ∧
        cs = [{ gap := .space, cost := 1 }] ∧ List.Sublist cs finale.candidates := by
  have h : Led (Rule.Restrained List.Sublist) workbench {} := .start workbench_reached
  have h := h.move (.advance ⟨pastBrief, []⟩ {} guarded)
    (by simp [Move.rules, workbench, guarded_restrained]) rfl
  have h := h.move (.attachFallback broken)
    (by simp [Move.rules, workbench, broken_restrained]) rfl
  have h := h.move (.without fun c => return c.label = "broken") (by simp [Move.rules]) rfl
  refine ⟨_, _, h, rfl, ?_⟩
  obtain ⟨cs, u, hcs, hsub⟩ | ⟨e, u, he, _⟩ :=
    h.candidates_restrict List.Sublist.refl List.Sublist.trans finale
  · refine ⟨cs, u, hcs, ?_, hsub⟩
    cases hcs
    rfl
  · cases he

end Scenario

end LayoutRules
