import LayoutRules.Proofs.Associativity
import LayoutRules.Proofs.Retention

namespace LayoutRules

variable {σ φ : Type}

namespace Test

/-- Passes no derived rule, and of the clauses those that the test passes. -/
def onClauses (test : Test σ φ) : Test σ φ := fun c => do
  if c.isDerived then return false else test c

end Test

namespace Rule

variable {r : Rule σ φ} {test : Test σ φ} {cond keep : Clause σ φ → Bool}

theorem Finds.not (h : r.Finds test cond) : r.Finds test.not fun c => !cond c := by
  intro c hc s
  obtain ⟨t, ht⟩ := h c hc s
  exact ⟨t, Run.exec_bind_ok ht⟩

theorem Finds.onClauses (h : r.Finds test cond) :
    r.Finds test.onClauses fun c => !c.isDerived && cond c := by
  intro c hc s
  obtain ⟨t, ht⟩ := h c hc s
  cases hd : c.isDerived with
  | true => exact ⟨s, by simp [Test.onClauses, hd]⟩
  | false => exact ⟨t, by simp [Test.onClauses, hd, ht]⟩

theorem exec_anyOf {cs : List (Clause σ φ)}
    (h : ∀ c ∈ cs, ∀ s, ∃ t, (test c).exec s = (.ok (cond c), t)) (s : Session σ) :
    ∃ t, (anyOf test cs).exec s = (.ok (cs.any cond), t) := by
  induction cs generalizing s with
  | nil => exact ⟨s, rfl⟩
  | cons c cs ih =>
    rw [List.forall_mem_cons] at h
    obtain ⟨t, ht⟩ := h.1 s
    rw [anyOf, Run.exec_bind_ok ht, List.any_cons]
    cases cond c with
    | true => exact ⟨t, rfl⟩
    | false => exact ih h.2 t

theorem Finds.exec_any (h : r.Finds test cond) (s : Session σ) :
    ∃ t, (r.any test).exec s = (.ok (r.clauses.any cond), t) := by
  rw [any_eq_anyOf_clauses]
  exact exec_anyOf h s

theorem mem_clauses_of_mem_leaves {x : Place σ φ} (hx : x ∈ r.leaves) :
    x.clause ∈ r.clauses ∧ x.clause.isDerived = false := by
  obtain ⟨hx, hd⟩ := List.mem_filter.1 hx
  rw [← map_clause_places]
  exact ⟨List.mem_map_of_mem hx, by simpa using hd⟩

theorem any_clauses_of_ne_empty {p q : Rule σ φ} (ho : q.outline = p.remains cond)
    (hne : q ≠ .empty) : p.clauses.any (fun c => !c.isDerived && cond c) = true := by
  rw [ne_eq, (retains_of_outline_eq ho).eq_empty_iff] at hne
  simp only [not_forall, Bool.not_eq_false] at hne
  obtain ⟨x, hx, hkept⟩ := hne
  obtain ⟨hc, hderived⟩ := mem_clauses_of_mem_leaves hx
  exact List.any_eq_true.2 ⟨x.clause, hc, by rw [hderived, (Place.kept_iff.1 hkept).1]; rfl⟩

section

variable [Recipe φ σ]

theorem remains_eq_outline (hf : ∀ p ∈ r.parts, p.Founded) (h : ∀ c ∈ r.clauses, keep c = true) :
    r.remains keep = r.outline := by
  rw [remains_congr h, ← sift_true hf, ← remains_profile]

theorem leaves_ne_nil (hf : ∀ p ∈ r.parts, p.Founded) (hr : r ≠ .empty) : r.leaves ≠ [] := by
  intro h
  have hempty : r.remains (fun _ => true) = .empty := remains_eq_empty_iff.2 (by simp [h])
  rw [remains_eq_outline hf fun _ _ => rfl, outline_eq_empty_iff] at hempty
  exact hr hempty

theorem exists_leaf_of_mem_clauses (hf : ∀ p ∈ r.parts, p.Founded) {c : Clause σ φ}
    (hc : c ∈ r.clauses) : ∃ x ∈ r.leaves, c = x.clause ∨ c ∈ x.above := by
  induction r with
  | empty => cases hc
  | clause =>
    obtain rfl := List.mem_singleton.1 hc
    exact ⟨_, List.mem_singleton_self _, .inl rfl⟩
  | seq n body p q ihp ihq | alt n body p q ihp ihq =>
    simp only [parts, List.forall_mem_cons, List.forall_mem_append] at hf
    obtain ⟨_, hfp, hfq⟩ := hf
    simp only [leaves_seq, leaves_alt]
    obtain hc | hc := List.mem_append.1 hc
    · obtain ⟨x, hx, h⟩ := ihp hfp hc
      exact ⟨x, List.mem_append_left _ hx, h⟩
    · obtain ⟨x, hx, h⟩ := ihq hfq hc
      exact ⟨x, List.mem_append_right _ hx, h⟩
  | derived n source recipe body expiry label ih =>
    simp only [parts, List.forall_mem_cons] at hf
    obtain ⟨⟨hsource, _⟩, hfs⟩ := hf
    rw [leaves_derived]
    obtain rfl | hc := List.mem_cons.1 hc
    · obtain ⟨x, hx⟩ := List.exists_mem_of_ne_nil _ (leaves_ne_nil hfs hsource)
      exact ⟨_, List.mem_map_of_mem hx, .inr List.mem_cons_self⟩
    · obtain ⟨x, hx, h⟩ := ih hfs hc
      exact ⟨_, List.mem_map_of_mem hx, h.imp_right (List.mem_cons_of_mem _)⟩

theorem forall_keep_of_leaves_eq (hf : ∀ p ∈ r.parts, p.Founded)
    (h : (r.leaves.filter (Place.kept keep)).map Place.clause = r.leaves.map Place.clause) :
    ∀ c ∈ r.clauses, keep c = true := by
  have hlength : (r.leaves.filter (Place.kept keep)).length = r.leaves.length := by
    simpa using congrArg List.length h
  intro c hc
  obtain ⟨x, hx, hcx⟩ := exists_leaf_of_mem_clauses hf hc
  obtain ⟨hself, habove⟩ := Place.kept_iff.1 (List.length_filter_eq_length_iff.1 hlength x hx)
  obtain rfl | hcx := hcx
  · exact hself
  · exact habove c hcx

theorem unchanged_iff_of_outline_eq {p q : Rule σ φ} (hf : ∀ x ∈ p.parts, x.Founded)
    (ho : q.outline = p.remains fun c => !cond c) :
    (q.outline = p.outline ↔ p.clauses.any cond = false) ∧
      (q.leaves.map Place.clause = p.leaves.map Place.clause ↔ p.clauses.any cond = false) := by
  have hany : p.clauses.any cond = false ↔ ∀ c ∈ p.clauses, (!cond c) = true := by simp
  have hsame : p.clauses.any cond = false → q.outline = p.outline := fun h => by
    rw [ho, remains_eq_outline hf (hany.1 h)]
  have hleaves : q.leaves.map Place.clause = p.leaves.map Place.clause →
      p.clauses.any cond = false := fun h =>
    hany.2 (forall_keep_of_leaves_eq hf ((retains_of_outline_eq ho).leaves.symm.trans h))
  exact ⟨⟨fun h => hleaves (map_clause_leaves_congr h), hsame⟩,
    ⟨hleaves, fun h => map_clause_leaves_congr (hsame h)⟩⟩

end

end Rule

namespace Outline

theorem keep_of_mem_profiles_prune {keep : Mark → Bool} (o : Outline σ φ) :
    ∀ x ∈ (o.prune keep).profiles, keep x.mark = true := by
  induction o with
  | empty => exact List.forall_mem_nil _
  | clause n body expiry blocking label =>
    rw [prune]
    split
    · rename_i h
      exact List.forall_mem_singleton.2 h
    · exact List.forall_mem_nil _
  | seq p q ihp ihq | alt p q ihp ihq =>
    intro x hx
    have hx := join_subset (f := profiles) (fun _ _ => rfl) _ _ hx
    exact (List.mem_append.1 hx).elim (ihp x) (ihq x)
  | derived source recipe expiry label ih =>
    rw [prune]
    split
    · rename_i h
      by_cases hs : source.prune keep = .empty
      · rw [hs]
        exact List.forall_mem_nil _
      · rw [derive_of_ne hs]
        exact List.forall_mem_cons.2 ⟨h, ih⟩
    · exact List.forall_mem_nil _

end Outline

namespace Rule

theorem cond_eq_false_of_outline_eq {p q : Rule σ φ} {cond : Mark → Bool}
    (ho : q.outline = p.remains fun c => !cond c.mark) : ∀ c ∈ q.clauses, cond c.mark = false := by
  have hprune : q.outline = p.outline.prune fun m => !cond m := by
    rw [ho, Outline.prune_eq_sift, ← remains_profile]
    rfl
  intro c hc
  have hx : c.profile ∈ q.outline.profiles := profiles_outline q ▸ List.mem_map_of_mem hc
  rw [hprune] at hx
  simpa using (show (!cond c.mark) = true from Outline.keep_of_mem_profiles_prune _ _ hx)

variable [Recipe φ σ] {w : Bench σ φ} {p : Rule σ φ}

/-- A search and a filter by the opposite test know of the same clauses. Nothing is lost if and only
if there is nothing to be found. Nothing is found in what is left, provided that the test does not
go by what blocks, which may have changed. And if something is left of what passes the test, there
is a clause that passes it. -/
theorem filter_not_any (hw : w.Reached) (hp : p ∈ w.rules) (hd : p.outline.Dependable) :
    (∀ {test : Test σ φ} {cond : Clause σ φ → Bool}, p.Finds test cond →
      ∃ q t, (p.filter test.not).exec w.session = (.ok q, t) ∧
        ∃ found, (∀ s, ∃ u, (p.any test).exec s = (.ok found, u)) ∧
          (q.outline = p.outline ↔ found = false) ∧
          (q.leaves.map Place.clause = p.leaves.map Place.clause ↔ found = false)) ∧
    (∀ {test : Test σ φ} {cond : Mark → Bool}, Judges test (fun x => cond x.mark) →
      ∃ q t, (p.filter test.not).exec w.session = (.ok q, t) ∧
        (∀ c ∈ q.clauses, cond c.mark = false) ∧
        (∀ s, ∃ u, (q.any test).exec s = (.ok false, u)) ∧
        ∀ trail : Trail σ φ, trail.rule = p →
          (trail.without test).exec w.session = (.ok { trail with rule := q }, t)) ∧
    ∀ {test : Test σ φ} {cond : Clause σ φ → Bool}, p.Finds test cond →
      ∃ q t, (p.filter test).exec w.session = (.ok q, t) ∧
        (q ≠ .empty → ∀ s, ∃ u, (p.any test.onClauses).exec s = (.ok true, u)) := by
  refine ⟨fun {test cond} ht => ?_, fun {test cond} ht => ?_, fun {test cond} ht => ?_⟩
  · obtain ⟨q, v, hq, _, _, ho⟩ := exec_filter_of_dependable hw hp hd ht.not
    exact ⟨q, v.session, hq, _, ht.exec_any, unchanged_iff_of_outline_eq (hw.founded_parts hp) ho⟩
  · obtain ⟨q, v, hq, _, _, ho⟩ := exec_filter_of_dependable hw hp hd (ht.finds p).not
    have hnone : ∀ c ∈ q.clauses, cond c.mark = false := cond_eq_false_of_outline_eq ho
    refine ⟨q, v.session, hq, hnone, fun s => ?_, ?_⟩
    · obtain ⟨u, hu⟩ := (ht.finds q).exec_any s
      have hany : q.clauses.any (fun c => cond c.profile.mark) = false :=
        List.any_eq_false.2 fun c hc => Bool.not_eq_true _ ▸ hnone c hc
      exact ⟨u, hany ▸ hu⟩
    · rintro trail rfl
      exact Run.exec_bind_ok hq
  · obtain ⟨q, v, hq, _, _, ho⟩ := exec_filter_of_dependable hw hp hd ht
    refine ⟨q, v.session, hq, fun hne s => ?_⟩
    obtain ⟨u, hu⟩ := ht.onClauses.exec_any s
    exact ⟨u, any_clauses_of_ne_empty ho hne ▸ hu⟩

end Rule

namespace Scenario

def labelledJoined (m : Mark) : Bool := m.label = "joined"

theorem guarded_filter_not_any :
    workbench.Reached ∧ guarded ∈ workbench.rules ∧ guarded.outline.Dependable ∧
      guarded.Finds (fun c => return c.rule.same brief) (fun c => c.rule.same brief) ∧
      Rule.Judges (fun c => return labelledJoined c.mark : Test Tally Method)
        (fun x => labelledJoined x.mark) ∧
      guarded.Finds (fun c => return sparing c) sparing ∧
      (∃ q t, (guarded.filter (Test.not fun c => return c.rule.same brief)).exec
          workbench.session = (.ok q, t) ∧ q.outline ≠ guarded.outline) ∧
      (∃ q t, (guarded.filter (Test.not fun c => return labelledJoined c.mark)).exec
          workbench.session = (.ok q, t) ∧
        ∀ s, ∃ u, (q.any fun c => return labelledJoined c.mark).exec s = (.ok false, u)) ∧
      (∃ q t, (guarded.filter fun c => return sparing c).exec workbench.session = (.ok q, t) ∧
        ∀ s, ∃ u, (guarded.any (Test.onClauses fun c => return sparing c)).exec s =
          (.ok true, u)) := by
  have hmem : guarded ∈ workbench.rules := by simp [workbench]
  have hbrief : guarded.Finds (fun c => return c.rule.same brief) (fun c => c.rule.same brief) :=
    fun c _ s => ⟨s, rfl⟩
  have hjoined : Rule.Judges (fun c => return labelledJoined c.mark : Test Tally Method)
      (fun x => labelledJoined x.mark) := fun c s => ⟨s, rfl⟩
  have hsparing : guarded.Finds (fun c => return sparing c) sparing := fun c _ s => ⟨s, rfl⟩
  have h := Rule.filter_not_any workbench_reached hmem guarded_dependable
  refine ⟨workbench_reached, hmem, guarded_dependable, hbrief, hjoined, hsparing, ?_, ?_, ?_⟩
  · obtain ⟨q, t, hq, found, hfound, hsame, _⟩ := h.1 hbrief
    refine ⟨q, t, hq, fun ho => ?_⟩
    obtain ⟨u, hu⟩ := hfound workbench.session
    rw [hsame.1 ho] at hu
    cases hu
  · obtain ⟨q, t, hq, _, hnone, _⟩ := h.2.1 hjoined
    exact ⟨q, t, hq, hnone⟩
  · obtain ⟨q, t, hq, hany⟩ := h.2.2 hsparing
    refine ⟨q, t, hq, hany ?_⟩
    rintro rfl
    cases hq

/-- A mirror that is kept for what blocks in it may block no longer when it has been made anew. -/
example :
    let test : Test Tally Method := fun c => return c.label = "broken" || c.isDerived && !c.blocks
    ∃ q t, (guarded.filter test.not).exec workbench.session = (.ok q, t) ∧
      (q.any test).exec t = (.ok true, t) :=
  ⟨_, _, rfl, rfl⟩

end Scenario

end LayoutRules
