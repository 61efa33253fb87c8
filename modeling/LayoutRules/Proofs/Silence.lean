import LayoutRules.Proofs.WellBehaved

namespace LayoutRules

variable {σ φ : Type}

namespace Override

theorem undefined_otherwise (f : Override σ) : undefined.otherwise f = f := rfl

theorem otherwise_undefined (f : Override σ) : f.otherwise undefined = f := by
  funext c
  refine Eq.trans ?_ (bind_pure (f c))
  simp only [Override.otherwise, undefined]
  congr 1
  funext a
  cases a <;> rfl

theorem resolve_undefined (c : Choice) :
    (undefined : Override σ).resolve c = pure c.candidates := rfl

end Override

namespace Outline

theorem mirroredAnswer_otherwise (p q : Outline σ φ) :
    (p.otherwise q).mirroredAnswer = p.mirroredAnswer.otherwise q.mirroredAnswer := by
  by_cases hq : q = .empty
  · subst hq
    exact (Override.otherwise_undefined _).symm
  by_cases hp : p = .empty
  · subst hp
    rw [otherwise, empty_join]
    exact (Override.undefined_otherwise _).symm
  rw [otherwise, join_of_ne hp hq, mirroredAnswer]

theorem resolve_mirroredAnswer_followedBy (p q : Outline σ φ) (c : Choice) :
    (p.followedBy q).mirroredAnswer.resolve c = (do
      let kept ← p.mirroredAnswer.resolve c
      q.mirroredAnswer.resolve (c.withCandidates kept)) := by
  by_cases hq : q = .empty
  · subst hq
    exact (bind_pure (p.mirroredAnswer.resolve c)).symm
  by_cases hp : p = .empty
  · subst hp
    rw [followedBy, empty_join, mirroredAnswer, Override.resolve_undefined, pure_bind,
      Choice.withCandidates_candidates]
  rw [followedBy, join_of_ne hp hq, mirroredAnswer, Override.resolve_followedBy]

end Outline

namespace Rule

/-- The rule as it would be if the clauses that have expired at a boundary had no answer to any
choice. They still take part in it, and what is made of them is made anew. -/
def silenced (b : Boundary) : Rule σ φ → Rule σ φ
  | .empty => .empty
  | .clause n body expiry blocking label =>
    .clause n (if expiry.activeAt b then body else Override.undefined) expiry blocking label
  | .seq n _ p q =>
    .seq n ((p.silenced b).answer.followedBy (q.silenced b).answer) (p.silenced b) (q.silenced b)
  | .alt n _ p q =>
    .alt n ((p.silenced b).answer.otherwise (q.silenced b).answer) (p.silenced b) (q.silenced b)
  | .derived n source recipe body expiry label => .derived n source recipe body expiry label

def SeqFree : Rule σ φ → Prop
  | .empty => True
  | .clause .. => True
  | .seq .. => False
  | .alt _ _ p q => p.SeqFree ∧ q.SeqFree
  | .derived _ source _ _ _ _ => source.SeqFree

/-- There is no sequence in anything that has an alternative. -/
def SeqFreeFirsts : Rule σ φ → Prop
  | .empty => True
  | .clause .. => True
  | .seq _ _ p q => p.SeqFreeFirsts ∧ q.SeqFreeFirsts
  | .alt _ _ p q => p.SeqFree ∧ q.SeqFreeFirsts
  | .derived _ source _ _ _ _ => source.SeqFreeFirsts

variable {r : Rule σ φ}

theorem narrow_answer_clause (n : Nat) (body : Override σ) (expiry : Expiry) (blocking : Bool)
    (label : Text) (b : Boundary) :
    ((clause n body expiry blocking label : Rule σ φ).outline.narrow b).mirroredAnswer =
      ((clause n body expiry blocking label : Rule σ φ).silenced b).answer := by
  cases h : expiry.activeAt b <;>
    simp [outline, Outline.narrow, Outline.prune, Outline.mirroredAnswer, silenced, answer,
      Mark.activeAt, h]

theorem narrow_answer_of_seqFree (hr : r.outline.recipes = []) (hs : r.SeqFree) (b : Boundary) :
    (r.outline.narrow b).mirroredAnswer = (r.silenced b).answer := by
  induction r with
  | empty => rfl
  | clause => exact narrow_answer_clause ..
  | seq => exact hs.elim
  | alt n body p q ihp ihq =>
    obtain ⟨hrp, hrq⟩ := List.append_eq_nil_iff.1 hr
    calc ((p.outline.narrow b).otherwise (q.outline.narrow b)).mirroredAnswer
        = (p.outline.narrow b).mirroredAnswer.otherwise (q.outline.narrow b).mirroredAnswer :=
          Outline.mirroredAnswer_otherwise _ _
      _ = (p.silenced b).answer.otherwise (q.silenced b).answer := by
          rw [ihp hrp hs.1, ihq hrq hs.2]
  | derived => exact absurd hr (List.cons_ne_nil _ _)

/-- In a sequence and in a last alternative it is enough that the same candidates are left open. What
has an alternative has to answer alike, for the alternative is asked only where there is no answer. -/
theorem narrow_resolve_of_seqFreeFirsts (hr : r.outline.recipes = []) (hs : r.SeqFreeFirsts)
    (b : Boundary) (c : Choice) :
    (r.outline.narrow b).mirroredAnswer.resolve c = (r.silenced b).resolve c := by
  induction r generalizing c with
  | empty => rfl
  | clause => exact congrArg (Override.resolve · c) (narrow_answer_clause ..)
  | seq n body p q ihp ihq =>
    obtain ⟨hrp, hrq⟩ := List.append_eq_nil_iff.1 hr
    calc ((p.outline.narrow b).followedBy (q.outline.narrow b)).mirroredAnswer.resolve c
        = (do
            let kept ← (p.outline.narrow b).mirroredAnswer.resolve c
            (q.outline.narrow b).mirroredAnswer.resolve (c.withCandidates kept)) :=
          Outline.resolve_mirroredAnswer_followedBy _ _ c
      _ = (do
            let kept ← (p.silenced b).resolve c
            (q.silenced b).resolve (c.withCandidates kept)) := by
          simp only [ihp hrp hs.1, ihq hrq hs.2]
      _ = ((seq n body p q).silenced b).resolve c :=
          (Override.resolve_followedBy _ _ c).symm
  | alt n body p q ihp ihq =>
    obtain ⟨hrp, hrq⟩ := List.append_eq_nil_iff.1 hr
    have hq := ihq hrq hs.2 c
    calc ((p.outline.narrow b).otherwise (q.outline.narrow b)).mirroredAnswer.resolve c
        = ((p.silenced b).answer.otherwise (q.outline.narrow b).mirroredAnswer).resolve c := by
          rw [Outline.mirroredAnswer_otherwise, narrow_answer_of_seqFree hrp hs.1]
      _ = ((p.silenced b).answer.otherwise (q.silenced b).answer).resolve c := by
          rw [Override.resolve_otherwise, Override.resolve_otherwise, hq]
          rfl
  | derived => exact absurd hr (List.cons_ne_nil _ _)

end Rule

namespace Scenario

/-! A sequence that has an alternative loses its first clause, and the second one never answers. Only
while both of them take part is the alternative out of the question. -/

def mute : Rule Tally Method := .clause 10 Override.undefined ⟨.on, 90⟩ false "mute"

def murmur : Rule Tally Method := .seq 11 (brief.answer.followedBy mute.answer) brief mute

def relief : Rule Tally Method := .alt 12 (murmur.answer.otherwise broken.answer) murmur broken

def reserve : Rule Tally Method := .alt 13 (mute.answer.otherwise whole.answer) mute whole

def muteBench : Bench Tally Method :=
  ⟨⟨14, {}, {}⟩, [reserve, relief, murmur, mute] ++ workbench.rules⟩

theorem muteBench_reached : muteBench.Reached := by
  have h := workbench_reached.make (r := mute) (s := ⟨11, {}, {}⟩)
    (.clause ⟨.on, 90⟩ (some Override.undefined) "mute" false) (by simp) rfl
  have h := h.make (r := murmur) (s := ⟨12, {}, {}⟩) (.seq brief mute) (by simp [workbench]) rfl
  have h := h.make (r := relief) (s := ⟨13, {}, {}⟩) (.alt murmur broken) (by simp [workbench]) rfl
  exact h.make (r := reserve) (s := ⟨14, {}, {}⟩) (.alt mute whole) (by simp [workbench]) rfl

def relieved : Rule Tally Method := .alt 14 (mute.answer.otherwise broken.answer) mute broken

def crossing : Choice :=
  ⟨pastBrief, [{ gap := .space, cost := 1 }, { gap := .newline, cost := 4 }]⟩

theorem relief_resolve_ne_silenced :
    relief.outline.recipes = [] ∧ (∀ f ∈ relief.outline.bodies, f.Pure) ∧
      (relief.narrow pastBrief).exec muteBench.session =
        (.ok relieved, { muteBench.session with nextSerial := 15 }) ∧
      ∀ s, (relieved.resolve crossing).exec s = (.ok [{ gap := .newline, cost := 4 }], s) ∧
        ((relief.silenced pastBrief).resolve crossing).exec s = (.ok crossing.candidates, s) := by
  refine ⟨rfl, ?_, rfl, fun s => ⟨rfl, rfl⟩⟩
  simp [relief, murmur, brief, mute, broken, Rule.outline, Outline.bodies, Override.newlines,
    Override.pure_total, Override.pure_undefined]

end Scenario

variable [Recipe φ σ]

/-- Where nothing is derived, and no sequence has an alternative or is part of what has one, a clause
that has expired may as well have no answer: the same candidates are left open by way of the same
calls. With pure clauses they do not depend on the session. A sequence that has an alternative may
leave others open. -/
theorem Rule.resolve_narrow_eq_resolve_silenced :
    (∀ {w : Bench σ φ} {p : Rule σ φ}, w.Reached → p ∈ w.rules → p.outline.recipes = [] →
      p.SeqFreeFirsts → ∀ b, ∃ q t, (p.narrow b).exec w.session = (.ok q, t) ∧
        (∀ c, q.resolve c = (p.silenced b).resolve c) ∧
        ((∀ f ∈ p.outline.bodies, f.Pure) → ∀ c, ∃ cs, ∀ s,
          (∃ u, (q.resolve c).exec s = (.ok cs, u)) ∧
            ∃ u, ((p.silenced b).resolve c).exec s = (.ok cs, u))) ∧
    ∃ (w : Bench Scenario.Tally Scenario.Method) (p q : Rule Scenario.Tally Scenario.Method)
      (b : Boundary) (c : Choice),
      w.Reached ∧ p ∈ w.rules ∧ p.outline.recipes = [] ∧ (∀ f ∈ p.outline.bodies, f.Pure) ∧
      (∃ n f m g x y z, p = .alt n f (.seq m g x y) z) ∧
      (∃ t, (p.narrow b).exec w.session = (.ok q, t)) ∧
      ∃ cs ds, cs ≠ ds ∧ ∀ s, (q.resolve c).exec s = (.ok cs, s) ∧
        ((p.silenced b).resolve c).exec s = (.ok ds, s) := by
  refine ⟨fun {w p} hw hp hr hs b => ?_, ?_⟩
  · have hm : ∀ g ∈ p.outline.recipes, Mirrors g := by simp [hr]
    obtain ⟨q, t, hq, ho⟩ := exec_narrow wellBehaved_mirrors hw hp hm b
    have hwq := hw.make (.narrow p b) (by simpa using hp) hq
    have hmq : ∀ g ∈ q.outline.recipes, Mirrors g := fun g hg =>
      hm g (Outline.gathers_recipes.prune_subset _ _ (ho ▸ hg))
    have ha := answer_eq_mirroredAnswer (hwq.founded_parts List.mem_cons_self) hmq
    have hresolve : ∀ c, q.resolve c = (p.silenced b).resolve c := by
      intro c
      rw [← narrow_resolve_of_seqFreeFirsts hr hs, ← ho, ← ha]
      rfl
    refine ⟨q, t, hq, hresolve, fun hf c => ?_⟩
    have hpure : q.answer.Pure := ha ▸ Outline.pure_mirroredAnswer fun f hb =>
      hf f (Outline.gathers_bodies.prune_subset _ _ (ho ▸ hb))
    obtain ⟨cs, hcs⟩ := exec_resolve_of_pure hpure c
    exact ⟨cs, fun s => ⟨hcs s, hresolve c ▸ hcs s⟩⟩
  · obtain ⟨hr, hf, hq, hne⟩ := Scenario.relief_resolve_ne_silenced
    exact ⟨Scenario.muteBench, Scenario.relief, Scenario.relieved, Scenario.pastBrief,
      Scenario.crossing, Scenario.muteBench_reached, by simp [Scenario.muteBench], hr, hf,
      ⟨_, _, _, _, _, _, _, rfl⟩, ⟨_, hq⟩, _, _, by decide, hne⟩

namespace Scenario

theorem reserve_resolve_narrow_eq_silenced :
    muteBench.Reached ∧ reserve ∈ muteBench.rules ∧ reserve.outline.recipes = [] ∧
      reserve.SeqFreeFirsts ∧ (∀ f ∈ reserve.outline.bodies, f.Pure) ∧
      ∃ q t, (reserve.narrow pastBrief).exec muteBench.session = (.ok q, t) ∧
        q.resolve crossing = (reserve.silenced pastBrief).resolve crossing ∧
        ∃ cs, ∀ s, (∃ u, (q.resolve crossing).exec s = (.ok cs, u)) ∧
          ∃ u, ((reserve.silenced pastBrief).resolve crossing).exec s = (.ok cs, u) := by
  have hmem : reserve ∈ muteBench.rules := by simp [muteBench]
  have hs : reserve.SeqFreeFirsts := by
    simp [reserve, mute, whole, opening, brief, joined, broken, Rule.SeqFreeFirsts, Rule.SeqFree]
  have hf : ∀ f ∈ reserve.outline.bodies, f.Pure := by
    simp [reserve, mute, whole, opening, brief, joined, broken, Rule.outline, Outline.bodies,
      Override.newlines, Override.nonNewlines, Override.pure_total, Override.pure_undefined]
  obtain ⟨q, t, hq, hresolve, hpure⟩ :=
    Rule.resolve_narrow_eq_resolve_silenced.1 muteBench_reached hmem rfl hs pastBrief
  exact ⟨muteBench_reached, hmem, rfl, hs, hf, q, t, hq, hresolve crossing, hpure hf crossing⟩

end Scenario

end LayoutRules
