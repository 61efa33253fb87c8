import LayoutRules.Proofs.Answers

namespace LayoutRules

variable {σ φ : Type}

namespace Rule

variable [Recipe φ σ]

/-- What may be relied on at any depth of a rule that a client has. The empty rule stands for
itself alone and is part of no other rule. A sequence, whatever override it was made with, lets its
first part act and then its second, and always answers; an alternative answers as its first part or
else as its second. A derived rule has the override that its recipe made of the very source that
the rule has, in a call that ended when the rule's serial number was the next. -/
structure Sound (r : Rule σ φ) : Prop where
  isEmpty_iff_same : r.isEmpty = true ↔ r.same .empty = true
  same_empty_iff : r.same .empty = true ↔ r = .empty
  eq_empty : .empty ∈ r.parts → r = .empty
  seq_ne : ∀ {n f p q}, .seq n f p q ∈ r.parts → p ≠ .empty ∧ q ≠ .empty
  seq_answer : ∀ {n f p q}, .seq n f p q ∈ r.parts → ∀ c, f c = do
    let kept ← p.resolve c
    return some (← q.resolve (c.withCandidates kept))
  seq_total : ∀ {n f p q}, .seq n f p q ∈ r.parts → (∀ g ∈ p.overrides ++ q.overrides, g.Safe) →
    ∀ c s, ∃ cs t, (f c).exec s = (.ok (some cs), t)
  alt_ne : ∀ {n f p q}, .alt n f p q ∈ r.parts → p ≠ .empty ∧ q ≠ .empty
  alt_answer : ∀ {n f p q}, .alt n f p q ∈ r.parts → ∀ c, f c = do
    match ← p.answer c with
    | some cs => return some cs
    | none => q.answer c
  derived_ne : ∀ {n source recipe f expiry label},
    .derived n source recipe f expiry label ∈ r.parts → source ≠ .empty
  derived_answer : ∀ {n source recipe f expiry label},
    .derived n source recipe f expiry label ∈ r.parts →
      ∃ (w : Bench σ φ) (s : Session σ), w.Reached ∧ source ∈ w.rules ∧
        (Recipe.derive recipe source).exec w.session = (.ok (some f), s) ∧ s.nextSerial = n

variable {r : Rule σ φ}

omit [Recipe φ σ] in
theorem isEmpty_iff_same_empty : r.isEmpty = true ↔ r.same .empty = true := by
  cases r <;> simp [isEmpty, same, serial?]

theorem eq_empty_of_mem_parts (hf : ∀ p ∈ r.parts, p.Founded) (h : .empty ∈ r.parts) :
    r = .empty := by
  induction r with
  | empty => rfl
  | clause => simp [parts] at h
  | seq n body p q ihp ihq | alt n body p q ihp ihq =>
    simp only [parts, List.forall_mem_cons, List.forall_mem_append] at hf
    obtain ⟨⟨hp, hq, _⟩, hfp, hfq⟩ := hf
    simp only [parts, List.mem_cons, List.mem_append, reduceCtorEq, false_or] at h
    obtain h | h := h
    · exact absurd (ihp hfp h) hp
    · exact absurd (ihq hfq h) hq
  | derived n source recipe body expiry label ih =>
    simp only [parts, List.forall_mem_cons] at hf
    obtain ⟨⟨hsource, _⟩, hfs⟩ := hf
    simp only [parts, List.mem_cons, reduceCtorEq, false_or] at h
    exact absurd (ih hfs h) hsource

theorem sound_of_reached {w : Bench σ φ} (hw : w.Reached) (hr : r ∈ w.rules) : r.Sound := by
  have hf := hw.founded_parts hr
  have hsub : ∀ {p}, p ∈ r.parts → ∀ x ∈ p.parts, x.Founded := fun hp x hx =>
    hf x (parts_subset hp hx)
  refine
    { isEmpty_iff_same := isEmpty_iff_same_empty
      same_empty_iff := isEmpty_iff_same_empty.symm.trans isEmpty_iff
      eq_empty := eq_empty_of_mem_parts hf
      seq_ne := fun h => ⟨(hf _ h).1, (hf _ h).2.1⟩
      alt_ne := fun h => ⟨(hf _ h).1, (hf _ h).2.1⟩
      derived_ne := fun h => (hf _ h).1
      derived_answer := fun h => (hf _ h).2
      seq_answer := fun h c => ?_
      alt_answer := fun h c => ?_
      seq_total := fun h hs c s => ?_ }
  · rw [(hf _ h).2.2]
    exact answer_followedBy _ _ c
  · have hparts := hsub h
    simp only [parts, List.forall_mem_cons, List.forall_mem_append] at hparts
    obtain ⟨⟨_, _, rfl⟩, hfp, hfq⟩ := hparts
    rw [List.forall_mem_append] at hs
    exact Override.exec_followedBy (safe_answer hfp hs.1) (safe_answer hfq hs.2) c s
  · rw [(hf _ h).2.2]
    exact answer_otherwise _ _ c

end Rule

namespace Scenario

theorem narrowed_sound :
    workbench.Reached ∧ narrowed ∈ workbench.rules ∧ narrowed.Sound :=
  ⟨workbench_reached, by simp [workbench],
    Rule.sound_of_reached workbench_reached (by simp [workbench])⟩

end Scenario

end LayoutRules
