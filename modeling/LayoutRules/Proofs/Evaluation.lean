import LayoutRules.Proofs.WellBehaved

namespace LayoutRules

variable {σ φ : Type}

/-- What a rule makes of a choice at a boundary. Nothing may be left of the rule, or what is left may
have no answer. -/
inductive Verdict where
  | absent
  | undefined
  | defined (candidates : List Candidate)
deriving DecidableEq

namespace Verdict

def ofAnswer : Option (List Candidate) → Verdict
  | none => .undefined
  | some cs => .defined cs

def answer : Verdict → Option (List Candidate)
  | .absent => none
  | .undefined => none
  | .defined cs => some cs

def followedBy (kept : List Candidate) : Verdict → Verdict → Verdict
  | .absent, v => v
  | u, .absent => u
  | _, .undefined => .defined kept
  | _, .defined cs => .defined cs

def otherwise : Verdict → Verdict → Verdict
  | .absent, v => v
  | u, .absent => u
  | .undefined, v => v
  | .defined cs, _ => .defined cs

theorem absent_followedBy (kept : List Candidate) (v : Verdict) :
    followedBy kept .absent v = v := by
  cases v <;> rfl

theorem followedBy_absent (kept : List Candidate) (u : Verdict) :
    followedBy kept u .absent = u := by
  cases u <;> rfl

theorem absent_otherwise (v : Verdict) : otherwise .absent v = v := by
  cases v <;> rfl

theorem otherwise_absent (u : Verdict) : otherwise u .absent = u := by
  cases u <;> rfl

theorem ofAnswer_followedBy (kept : List Candidate) (a a' : Option (List Candidate)) :
    followedBy kept (ofAnswer a) (ofAnswer a') = .defined (a'.getD kept) := by
  cases a <;> cases a' <;> rfl

theorem undefined_otherwise_ofAnswer (a : Option (List Candidate)) :
    otherwise .undefined (ofAnswer a) = ofAnswer a := by
  cases a <;> rfl

theorem answer_ofAnswer (a : Option (List Candidate)) : (ofAnswer a).answer = a := by
  cases a <;> rfl

theorem ofAnswer_ne_absent (a : Option (List Candidate)) : ofAnswer a ≠ .absent := by
  cases a <;> exact Verdict.noConfusion

theorem answer_eq_some_iff {v : Verdict} {cs : List Candidate} :
    v.answer = some cs ↔ v = .defined cs := by
  cases v <;> simp [answer]

end Verdict

namespace Rule

/-- The verdict of a rule at a boundary, found in one pass over the rule as it is. No other rule is
made: what has expired is passed over, and a derived rule is asked by way of its source. -/
def evaluate (b : Boundary) : Rule σ φ → Choice → Run σ Verdict
  | .empty, _ => return .absent
  | .clause _ body expiry _ _, c => do
    if expiry.activeAt b then return .ofAnswer (← body c) else return .absent
  | .seq _ _ p q, c => do
    let u ← p.evaluate b c
    let kept := u.answer.getD c.candidates
    return u.followedBy kept (← q.evaluate b (c.withCandidates kept))
  | .alt _ _ p q, c => do
    match ← p.evaluate b c with
    | .defined cs => return .defined cs
    | u => return u.otherwise (← q.evaluate b c)
  | .derived _ source _ _ expiry _, c => do
    if expiry.activeAt b then source.evaluate b c else return .absent

end Rule

namespace Outline

def verdict (o : Outline σ φ) (c : Choice) : Run σ Verdict :=
  if o.isEmpty then return .absent else Verdict.ofAnswer <$> o.mirroredAnswer c

theorem verdict_empty (c : Choice) : (.empty : Outline σ φ).verdict c = pure .absent := rfl

theorem verdict_of_ne {o : Outline σ φ} (ho : o ≠ .empty) (c : Choice) :
    o.verdict c = Verdict.ofAnswer <$> o.mirroredAnswer c := by
  simp [verdict, isEmpty_iff, ho]

theorem verdict_followedBy (p q : Outline σ φ) (c : Choice) :
    (p.followedBy q).verdict c = (do
      let u ← p.verdict c
      let kept := u.answer.getD c.candidates
      return u.followedBy kept (← q.verdict (c.withCandidates kept))) := by
  by_cases hp : p = .empty
  · subst hp
    simp only [followedBy, empty_join, verdict_empty, pure_bind, Verdict.absent_followedBy,
      Verdict.answer, Option.getD_none, Choice.withCandidates_candidates, bind_pure]
  by_cases hq : q = .empty
  · subst hq
    simp only [followedBy, join_empty, verdict_empty, pure_bind, Verdict.followedBy_absent,
      bind_pure]
  have hne : join .seq p q ≠ .empty := by simp [join_of_ne hp hq]
  rw [followedBy, verdict_of_ne hne, join_of_ne hp hq, verdict_of_ne hp]
  simp only [verdict_of_ne hq, mirroredAnswer, Override.followedBy, bind_map_left, map_bind, map_pure,
    Verdict.ofAnswer_followedBy, Verdict.answer_ofAnswer]
  rfl

theorem verdict_otherwise (p q : Outline σ φ) (c : Choice) :
    (p.otherwise q).verdict c = (do
      match ← p.verdict c with
      | .defined cs => return .defined cs
      | u => return u.otherwise (← q.verdict c)) := by
  by_cases hp : p = .empty
  · subst hp
    simp only [otherwise, empty_join, verdict_empty, pure_bind, Verdict.absent_otherwise, bind_pure]
  by_cases hq : q = .empty
  · subst hq
    simp only [otherwise, join_empty, verdict_empty, pure_bind, Verdict.otherwise_absent]
    refine (bind_pure (p.verdict c)).symm.trans ?_
    congr 1
    funext u
    cases u <;> rfl
  have hne : join .alt p q ≠ .empty := by simp [join_of_ne hp hq]
  rw [otherwise, verdict_of_ne hne, join_of_ne hp hq, verdict_of_ne hp, verdict_of_ne hq]
  simp only [mirroredAnswer, Override.otherwise, bind_map_left, map_bind]
  congr 1
  funext a
  cases a with
  | some cs => rfl
  | none =>
    show Verdict.ofAnswer <$> q.mirroredAnswer c =
      q.mirroredAnswer c >>= fun a => pure (Verdict.otherwise .undefined (.ofAnswer a))
    simp only [Verdict.undefined_otherwise_ofAnswer, map_eq_pure_bind]

theorem verdict_derive (p : Outline σ φ) (recipe : φ) (expiry : Expiry) (label : Text)
    (c : Choice) : (p.derive recipe expiry label).verdict c = p.verdict c := by
  by_cases hp : p = .empty
  · subst hp
    rfl
  · rw [derive_of_ne hp, verdict_of_ne (by simp), verdict_of_ne hp]
    rfl

end Outline

theorem Rule.evaluate_eq_verdict (r : Rule σ φ) (b : Boundary) (c : Choice) :
    r.evaluate b c = (r.outline.narrow b).verdict c := by
  induction r generalizing c with
  | empty => rfl
  | clause n body expiry blocking label =>
    cases h : expiry.activeAt b with
    | true =>
      simp only [evaluate, outline, Outline.narrow, Outline.prune, Mark.activeAt, h, ↓reduceIte]
      rw [Outline.verdict_of_ne (by simp)]
      rfl
    | false =>
      simp only [evaluate, outline, Outline.narrow, Outline.prune, Mark.activeAt, h,
        Bool.false_eq_true, ↓reduceIte]
      rfl
  | seq n body p q ihp ihq =>
    simp only [evaluate, ihp, ihq]
    exact (Outline.verdict_followedBy _ _ c).symm
  | alt n body p q ihp ihq =>
    simp only [evaluate, ihp, ihq]
    exact (Outline.verdict_otherwise _ _ c).symm
  | derived n source recipe body expiry label ih =>
    cases h : expiry.activeAt b with
    | true =>
      simp only [evaluate, outline, Outline.narrow, Outline.prune, Mark.activeAt, h, ↓reduceIte, ih,
        Outline.verdict_derive]
    | false =>
      simp only [evaluate, outline, Outline.narrow, Outline.prune, Mark.activeAt, h,
        Bool.false_eq_true, ↓reduceIte]
      rfl

variable [Recipe φ σ] {w : Bench σ φ} {p : Rule σ φ}

omit [Recipe φ σ] in
theorem Outline.exec_verdict {o : Outline σ φ} (ho : o.mirroredAnswer.Pure) (c : Choice) :
    ∃ v, (∀ s, ∃ n, (o.verdict c).exec s = (.ok v, { s with nextSerial := n })) ∧
      (o.isEmpty = true ↔ v = .absent) ∧
      ∀ s, ∃ n, (o.mirroredAnswer c).exec s = (.ok v.answer, { s with nextSerial := n }) := by
  by_cases hne : o = .empty
  · subst hne
    exact ⟨.absent, fun s => ⟨s.nextSerial, rfl⟩, by simp [isEmpty], fun s => ⟨s.nextSerial, rfl⟩⟩
  · obtain ⟨a, ha⟩ := ho c
    refine ⟨.ofAnswer a, fun s => ?_, ?_, by rwa [Verdict.answer_ofAnswer]⟩
    · obtain ⟨n, hn⟩ := ha s
      refine ⟨n, ?_⟩
      rw [verdict_of_ne hne, Run.exec_map_eq_ok]
      exact ⟨a, hn, rfl⟩
    · simp [isEmpty_iff, hne, Verdict.ofAnswer_ne_absent]

/-- If derived rules answer as their sources do and clauses are pure, what is left of a rule at a
boundary and what it then answers can be told from the rule itself: from a verdict that does not
depend on the session. -/
theorem Rule.narrow_answer_iff_evaluate (hw : w.Reached) (hp : p ∈ w.rules)
    (hm : ∀ g ∈ p.outline.recipes, Mirrors g) (hf : ∀ f ∈ p.outline.bodies, f.Pure) (b : Boundary) :
    ∃ q t, (p.narrow b).exec w.session = (.ok q, t) ∧ ∀ c, ∃ v,
      (∀ s, ∃ n, (p.evaluate b c).exec s = (.ok v, { s with nextSerial := n })) ∧
      (q.isEmpty = true ↔ v = .absent) ∧
      (∀ s, ∃ n, (q.answer c).exec s = (.ok v.answer, { s with nextSerial := n })) ∧
      ∀ s cs, (∃ u, (q.answer c).exec s = (.ok (some cs), u)) ↔ v = .defined cs := by
  obtain ⟨q, t, hq, ho⟩ := exec_narrow wellBehaved_mirrors hw hp hm b
  have hwq := hw.make (.narrow p b) (by simpa using hp) hq
  have hmq : ∀ g ∈ q.outline.recipes, Mirrors g := fun g hg =>
    hm g (Outline.gathers_recipes.prune_subset _ _ (ho ▸ hg))
  have hfq : ∀ f ∈ q.outline.bodies, f.Pure := fun f hb =>
    hf f (Outline.gathers_bodies.prune_subset _ _ (ho ▸ hb))
  have hanswer := answer_eq_mirroredAnswer (hwq.founded_parts (by simp)) hmq
  refine ⟨q, t, hq, fun c => ?_⟩
  obtain ⟨v, hv, hempty, ha⟩ := Outline.exec_verdict (Outline.pure_mirroredAnswer hfq) c
  rw [← hanswer] at ha
  refine ⟨v, ?_, ?_, ha, fun s cs => ?_⟩
  · rwa [evaluate_eq_verdict, ← ho]
  · rw [← hempty, isEmpty_outline]
  · obtain ⟨n, hn⟩ := ha s
    rw [hn, ← Verdict.answer_eq_some_iff]
    simp

namespace Scenario

theorem guarded_narrow_answer_iff_evaluate :
    workbench.Reached ∧ guarded ∈ workbench.rules ∧
      (∀ g ∈ guarded.outline.recipes, Mirrors g) ∧ (∀ f ∈ guarded.outline.bodies, f.Pure) ∧
      (guarded.evaluate pastMirror finale).exec workbench.session =
        (.ok (.defined [{ gap := .space, cost := 1 }]), workbench.session) ∧
      ∃ q t, (guarded.narrow pastMirror).exec workbench.session = (.ok q, t) ∧
        q.isEmpty = false ∧
        ∀ s, ∃ u, (q.answer finale).exec s = (.ok (some [{ gap := .space, cost := 1 }]), u) := by
  have hmem : guarded ∈ workbench.rules := by simp [workbench]
  have hm : ∀ g ∈ guarded.outline.recipes, Mirrors g := by
    simp [guarded, mirror, whole, opening, brief, joined, broken, Rule.outline, Outline.recipes,
      mirrors_answer]
  have hf : ∀ f ∈ guarded.outline.bodies, f.Pure := by
    simp [guarded, mirror, whole, opening, brief, joined, broken, Rule.outline, Outline.bodies,
      Override.newlines, Override.nonNewlines, Override.pure_total]
  have heval : (guarded.evaluate pastMirror finale).exec workbench.session =
      (.ok (.defined [{ gap := .space, cost := 1 }]), workbench.session) := rfl
  obtain ⟨q, t, hq, h⟩ := Rule.narrow_answer_iff_evaluate workbench_reached hmem hm hf pastMirror
  obtain ⟨v, hv, hempty, _, hdefined⟩ := h finale
  obtain ⟨n, hn⟩ := hv workbench.session
  cases hn.symm.trans heval
  exact ⟨workbench_reached, hmem, hm, hf, heval, q, t, hq, by simpa using hempty,
    fun s => (hdefined s _).2 rfl⟩

end Scenario

end LayoutRules
