import LayoutRules.Proofs.Coherence

namespace LayoutRules

variable {σ φ : Type}

namespace Override

def Safe (f : Override σ) : Prop := ∀ c s, ∃ a t, (f c).exec s = (.ok a, t)

theorem exec_followedBy {f g : Override σ} (hf : f.Safe) (hg : g.Safe) (c : Choice)
    (s : Session σ) : ∃ cs t, (f.followedBy g c).exec s = (.ok (some cs), t) := by
  obtain ⟨a, u, ha⟩ := hf c s
  obtain ⟨b, v, hb⟩ := hg (c.withCandidates (a.getD c.candidates)) u
  refine ⟨b.getD (a.getD c.candidates), v, ?_⟩
  rw [Override.followedBy, Run.exec_bind_ok ha, Run.exec_bind_ok hb]
  rfl

theorem Safe.followedBy {f g : Override σ} (hf : f.Safe) (hg : g.Safe) :
    (f.followedBy g).Safe := by
  intro c s
  obtain ⟨cs, t, h⟩ := exec_followedBy hf hg c s
  exact ⟨some cs, t, h⟩

theorem Safe.otherwise {f g : Override σ} (hf : f.Safe) (hg : g.Safe) :
    (f.otherwise g).Safe := by
  intro c s
  obtain ⟨a, u, ha⟩ := hf c s
  rw [Override.otherwise, Run.exec_bind_ok ha]
  cases a with
  | none => exact hg c u
  | some cs => exact ⟨some cs, u, rfl⟩

/-- An override that always comes to the same answer, with no effect but that it may use up serial
numbers. -/
def Pure (f : Override σ) : Prop :=
  ∀ c, ∃ a, ∀ s, ∃ n, (f c).exec s = (.ok a, { s with nextSerial := n })

theorem pure_undefined : (undefined : Override σ).Pure := fun _ =>
  ⟨none, fun s => ⟨s.nextSerial, rfl⟩⟩

theorem pure_total (f : Choice → List Candidate) : (total f : Override σ).Pure := fun c =>
  ⟨some (f c), fun s => ⟨s.nextSerial, rfl⟩⟩

theorem Pure.followedBy {f g : Override σ} (hf : f.Pure) (hg : g.Pure) : (f.followedBy g).Pure := by
  intro c
  obtain ⟨a, ha⟩ := hf c
  obtain ⟨b, hb⟩ := hg (c.withCandidates (a.getD c.candidates))
  refine ⟨some (b.getD (a.getD c.candidates)), fun s => ?_⟩
  obtain ⟨n, hn⟩ := ha s
  obtain ⟨m, hm⟩ := hb { s with nextSerial := n }
  refine ⟨m, ?_⟩
  rw [Override.followedBy, Run.exec_bind_ok hn, Run.exec_bind_ok hm]
  rfl

theorem Pure.otherwise {f g : Override σ} (hf : f.Pure) (hg : g.Pure) : (f.otherwise g).Pure := by
  intro c
  obtain ⟨a, ha⟩ := hf c
  cases a with
  | some cs =>
    refine ⟨some cs, fun s => ?_⟩
    obtain ⟨n, hn⟩ := ha s
    exact ⟨n, by rw [Override.otherwise, Run.exec_bind_ok hn]; rfl⟩
  | none =>
    obtain ⟨b, hb⟩ := hg c
    refine ⟨b, fun s => ?_⟩
    obtain ⟨n, hn⟩ := ha s
    obtain ⟨m, hm⟩ := hb { s with nextSerial := n }
    exact ⟨m, by rw [Override.otherwise, Run.exec_bind_ok hn]; exact hm⟩

def resolve (f : Override σ) (c : Choice) : Run σ (List Candidate) := do
  return (← f c).getD c.candidates

theorem resolve_followedBy (f g : Override σ) (c : Choice) :
    (f.followedBy g).resolve c = (do
      let kept ← f.resolve c
      g.resolve (c.withCandidates kept)) := by
  simp only [resolve, followedBy, bind_assoc, pure_bind, Option.getD_some,
    Choice.candidates_withCandidates]

theorem resolve_otherwise (f g : Override σ) (c : Choice) :
    (f.otherwise g).resolve c = (do
      match ← f c with
      | some cs => return cs
      | none => g.resolve c) := by
  simp only [resolve, Override.otherwise, bind_assoc]
  congr 1
  funext a
  cases a with
  | none => rfl
  | some cs => rfl

end Override

namespace Rule

def overrides : Rule σ φ → List (Override σ)
  | .empty => []
  | .clause _ body _ _ _ => [body]
  | .seq _ _ p q => p.overrides ++ q.overrides
  | .alt _ _ p q => p.overrides ++ q.overrides
  | .derived _ _ _ body _ _ => [body]

variable [Recipe φ σ] {r : Rule σ φ}

theorem safe_answer (hf : ∀ p ∈ r.parts, p.Founded) (hr : ∀ f ∈ r.overrides, f.Safe) :
    r.answer.Safe := by
  induction r with
  | empty => exact fun _ s => ⟨none, s, rfl⟩
  | clause n body | derived n source recipe body => exact hr body (List.mem_singleton_self _)
  | seq n body p q ihp ihq =>
    simp only [parts, List.forall_mem_cons, List.forall_mem_append] at hf
    simp only [overrides, List.forall_mem_append] at hr
    obtain ⟨⟨_, _, rfl⟩, hfp, hfq⟩ := hf
    exact (ihp hfp hr.1).followedBy (ihq hfq hr.2)
  | alt n body p q ihp ihq =>
    simp only [parts, List.forall_mem_cons, List.forall_mem_append] at hf
    simp only [overrides, List.forall_mem_append] at hr
    obtain ⟨⟨_, _, rfl⟩, hfp, hfq⟩ := hf
    exact (ihp hfp hr.1).otherwise (ihq hfq hr.2)

omit [Recipe φ σ] in
theorem exec_resolve_of_pure (hr : r.answer.Pure) (c : Choice) :
    ∃ cs, ∀ s, ∃ s', (r.resolve c).exec s = (.ok cs, s') := by
  obtain ⟨a, ha⟩ := hr c
  refine ⟨a.getD c.candidates, fun s => ?_⟩
  obtain ⟨n, hn⟩ := ha s
  exact ⟨_, Run.exec_bind_ok hn⟩

end Rule

end LayoutRules
