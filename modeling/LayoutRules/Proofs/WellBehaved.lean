import LayoutRules.Proofs.Answers
import LayoutRules.Proofs.Sifting

namespace LayoutRules

variable {σ φ : Type}

namespace Outline

/-- The answer of a tree, if this is what recipes make of trees. -/
def answer (make : φ → Outline σ φ → Override σ) : Outline σ φ → Override σ
  | .empty => Override.undefined
  | .clause _ body _ _ _ => body
  | .seq p q => (p.answer make).followedBy (q.answer make)
  | .alt p q => (p.answer make).otherwise (q.answer make)
  | .derived source recipe _ _ => make recipe source

end Outline

variable [Recipe φ σ]

/-- Recipes that do no more than make an override, whenever they are called on a rule with such
recipes only: they never fail or go without an override, and have no effect but that they may use
up serial numbers. What they make depends on the tree of the rule alone. -/
def WellBehaved (G : φ → Prop) (make : φ → Outline σ φ → Override σ) : Prop :=
  ∀ {w : Bench σ φ} {p : Rule σ φ} {g : φ}, w.Reached → p ∈ w.rules → p ≠ .empty →
    (∀ g' ∈ p.outline.recipes, G g') → G g →
    ∃ n, (Recipe.derive g p).exec w.session =
      (.ok (some (make g p.outline)), { w.session with nextSerial := n })

/-- What recipes make of a tree all of whose clauses are pure is pure. -/
def KeepsPure (G : φ → Prop) (make : φ → Outline σ φ → Override σ) : Prop :=
  ∀ {o : Outline σ φ} {g : φ}, G g → (∀ g' ∈ o.recipes, G g') → (∀ f ∈ o.bodies, f.Pure) →
    (make g o).Pure

variable {G : φ → Prop} {make : φ → Outline σ φ → Override σ} {w : Bench σ φ}

omit [Recipe φ σ] in
theorem Outline.pure_answer (hK : KeepsPure G make) {o : Outline σ φ} (hr : ∀ g ∈ o.recipes, G g)
    (hb : ∀ f ∈ o.bodies, f.Pure) : (o.answer make).Pure := by
  induction o with
  | empty => exact fun _ => ⟨none, fun s => ⟨s.nextSerial, rfl⟩⟩
  | clause n body => exact hb body (List.mem_singleton_self _)
  | seq p q ihp ihq =>
    simp only [recipes, bodies, List.forall_mem_append] at hr hb
    exact (ihp hr.1 hb.1).followedBy (ihq hr.2 hb.2)
  | alt p q ihp ihq =>
    simp only [recipes, bodies, List.forall_mem_append] at hr hb
    exact (ihp hr.1 hb.1).otherwise (ihq hr.2 hb.2)
  | derived source recipe expiry label =>
    simp only [recipes, List.forall_mem_cons] at hr
    exact hK hr.1 hr.2 hb

theorem WellBehaved.dependable (hG : WellBehaved G make) {o : Outline σ φ}
    (ho : ∀ g ∈ o.recipes, G g) : o.Dependable := by
  intro g hg w p hw hp hne hsub
  obtain ⟨n, hn⟩ := hG hw hp hne (fun g' hg' => ho g' (hsub hg')) (ho g hg)
  exact ⟨_, _, hn⟩

namespace Rule

theorem answer_outline_of_derived
    (hd : ∀ {n source recipe body expiry label}, (derived n source recipe body expiry label).Founded →
      G recipe → (∀ g ∈ source.outline.recipes, G g) →
      source.answer = source.outline.answer make → body = make recipe source.outline)
    {r : Rule σ φ} (hf : ∀ p ∈ r.parts, p.Founded) (hr : ∀ g ∈ r.outline.recipes, G g) :
    r.answer = r.outline.answer make := by
  induction r with
  | empty | clause => rfl
  | seq n body p q ihp ihq | alt n body p q ihp ihq =>
    simp only [parts, List.forall_mem_cons, List.forall_mem_append] at hf
    simp only [outline, Outline.recipes, List.forall_mem_append] at hr
    obtain ⟨⟨_, _, rfl⟩, hfp, hfq⟩ := hf
    simp only [outline, Outline.answer, ← ihp hfp hr.1, ← ihq hfq hr.2]
    rfl
  | derived n source recipe body expiry label ih =>
    simp only [parts, List.forall_mem_cons] at hf
    simp only [outline, Outline.recipes, List.forall_mem_cons] at hr
    exact hd hf.1 hr.1 hr.2 (ih hf.2 hr.2)

theorem answer_outline (hG : WellBehaved G make) {r : Rule σ φ} (hf : ∀ p ∈ r.parts, p.Founded)
    (hr : ∀ g ∈ r.outline.recipes, G g) : r.answer = r.outline.answer make := by
  refine answer_outline_of_derived ?_ hf hr
  rintro n source recipe body expiry label ⟨hne, w, s, hw, hsource, he, _⟩ hrecipe hrecipes _
  obtain ⟨m, hm⟩ := hG hw hsource hne hrecipes hrecipe
  cases he.symm.trans hm
  rfl

theorem answer_eq_of_outline_eq (hG : WellBehaved G make) {v : Bench σ φ} (hv : v.Reached)
    (hw : w.Reached) {p q : Rule σ φ} (hp : p ∈ v.rules) (hq : q ∈ w.rules)
    (h : p.outline = q.outline) (hg : ∀ g ∈ q.outline.recipes, G g) : p.answer = q.answer := by
  rw [answer_outline hG (hv.founded_parts hp) (h ▸ hg), answer_outline hG (hw.founded_parts hq) hg,
    h]

omit [Recipe φ σ] in
theorem exec_followedBy (p q : Rule σ φ) (s : Session σ) :
    ∃ r t, (p.followedBy q).exec s = (.ok r, t) ∧
      r.outline = p.outline.followedBy q.outline :=
  Connective.seq.exec_join p q s

/-- With well-behaved recipes narrowing succeeds, and what is left of the tree does not depend on
anything but the tree. -/
theorem exec_narrow (hG : WellBehaved G make) (hw : w.Reached) {r : Rule σ φ} (hr : r ∈ w.rules)
    (hg : ∀ g ∈ r.outline.recipes, G g) (b : Boundary) :
    ∃ q t, (r.narrow b).exec w.session = (.ok q, t) ∧ q.outline = r.outline.narrow b := by
  rw [narrow_eq_filter, Outline.narrow_eq_sift]
  obtain ⟨q, v, hq, _, _, _, ho⟩ :=
    (hw.comes_filter (judges_reporting b) r hr).exists_made (hG.dependable hg)
  exact ⟨q, v.session, hq, ho⟩

end Rule

/-- By such a recipe a derived rule answers as its source does. -/
def Mirrors (g : φ) : Prop := ∀ p : Rule σ φ, Recipe.derive g p = pure (some p.answer)

namespace Outline

/-- The answer of a tree in which every derived rule answers as its source does. -/
def mirroredAnswer : Outline σ φ → Override σ
  | .empty => Override.undefined
  | .clause _ body _ _ _ => body
  | .seq p q => p.mirroredAnswer.followedBy q.mirroredAnswer
  | .alt p q => p.mirroredAnswer.otherwise q.mirroredAnswer
  | .derived source _ _ _ => source.mirroredAnswer

omit [Recipe φ σ] in
theorem mirroredAnswer_eq_answer (o : Outline σ φ) :
    o.mirroredAnswer = o.answer fun _ source => source.mirroredAnswer := by
  induction o with
  | empty | clause | derived => rfl
  | seq p q ihp ihq | alt p q ihp ihq => rw [mirroredAnswer, answer, ihp, ihq]

omit [Recipe φ σ] in
theorem pure_mirroredAnswer {o : Outline σ φ} (ho : ∀ f ∈ o.bodies, f.Pure) :
    o.mirroredAnswer.Pure := by
  induction o with
  | empty => exact fun _ => ⟨none, fun s => ⟨s.nextSerial, rfl⟩⟩
  | clause n body => exact ho body (List.mem_singleton_self _)
  | seq p q ihp ihq =>
    rw [bodies, List.forall_mem_append] at ho
    exact (ihp ho.1).followedBy (ihq ho.2)
  | alt p q ihp ihq =>
    rw [bodies, List.forall_mem_append] at ho
    exact (ihp ho.1).otherwise (ihq ho.2)
  | derived source recipe expiry label ih => exact ih ho

end Outline

theorem Rule.answer_eq_mirroredAnswer {r : Rule σ φ} (hf : ∀ p ∈ r.parts, p.Founded)
    (hr : ∀ g ∈ r.outline.recipes, Mirrors g) : r.answer = r.outline.mirroredAnswer := by
  rw [Outline.mirroredAnswer_eq_answer]
  refine answer_outline_of_derived ?_ hf hr
  rintro n source recipe body expiry label ⟨_, w, s, _, _, he, _⟩ hrecipe _ ih
  rw [hrecipe] at he
  cases he
  rw [ih, Outline.mirroredAnswer_eq_answer]

theorem wellBehaved_mirrors :
    WellBehaved (Mirrors : φ → Prop) fun _ o => o.mirroredAnswer := by
  intro w p g hw hp _ hr hg
  refine ⟨w.session.nextSerial, ?_⟩
  show _ = (Except.ok (some p.outline.mirroredAnswer), _)
  rw [hg, ← Rule.answer_eq_mirroredAnswer (hw.founded_parts hp) hr]
  rfl

namespace Scenario

theorem mirrors_answer : Mirrors Method.answer := fun _ => rfl

theorem wellBehaved_answer :
    WellBehaved (fun g : Method => g = .answer) fun _ o => o.mirroredAnswer := by
  intro w p g hw hp hne hr hg
  exact wellBehaved_mirrors hw hp hne (fun g hm => hr g hm ▸ mirrors_answer) (hg ▸ mirrors_answer)

end Scenario

end LayoutRules
