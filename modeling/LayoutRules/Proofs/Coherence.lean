import LayoutRules.Proofs.Bench
import LayoutRules.Proofs.Narrowing

namespace LayoutRules

variable {σ φ : Type} [Recipe φ σ]

namespace Rule

/-- A rule has what it was made with. The override of a sequence or an alternative is made of those
of its parts, and that of a derived rule is what its recipe came to when it was called on the very
source that the rule has, right before the rule got its serial number. -/
def Founded : Rule σ φ → Prop
  | .empty => True
  | .clause .. => True
  | .seq _ body p q => p ≠ .empty ∧ q ≠ .empty ∧ body = p.answer.followedBy q.answer
  | .alt _ body p q => p ≠ .empty ∧ q ≠ .empty ∧ body = p.answer.otherwise q.answer
  | .derived n source recipe body _ _ =>
    source ≠ .empty ∧ ∃ (w : Bench σ φ) (s : Session σ), w.Reached ∧ source ∈ w.rules ∧
      (Recipe.derive recipe source).exec w.session = (.ok (some body), s) ∧ s.nextSerial = n

structure Joint (make : Rule σ φ → Rule σ φ → Nat → Rule σ φ) : Prop where
  serial : ∀ p q n, (make p q n).serial? = some n
  parts : ∀ p q n, (make p q n).parts = make p q n :: (p.parts ++ q.parts)
  founded : ∀ {p q} n, p ≠ .empty → q ≠ .empty → (make p q n).Founded

theorem joint_seq :
    Joint fun (p q : Rule σ φ) n => .seq n (p.answer.followedBy q.answer) p q where
  serial _ _ _ := rfl
  parts _ _ _ := rfl
  founded _ hp hq := ⟨hp, hq, rfl⟩

theorem joint_alt :
    Joint fun (p q : Rule σ φ) n => .alt n (p.answer.otherwise q.answer) p q where
  serial _ _ _ := rfl
  parts _ _ _ := rfl
  founded _ hp hq := ⟨hp, hq, rfl⟩

end Rule

namespace Bench

def Has (w : Bench σ φ) (p : Rule σ φ) : Prop := ∃ r ∈ w.rules, p ∈ r.parts

/-- Every rule has what it was made with, equal serial numbers stand for equal rules, and the next
serial number is still unused. -/
structure Coherent (w : Bench σ φ) : Prop where
  founded : ∀ {p}, w.Has p → p.Founded
  unique : ∀ {p q}, w.Has p → w.Has q → p.same q = true → p = q
  below : ∀ {p n}, w.Has p → p.serial? = some n → n < w.session.nextSerial

variable {w : Bench σ φ} {p q r : Rule σ φ}

omit [Recipe φ σ] in
theorem has_of_mem (h : r ∈ w.rules) : w.Has r := ⟨r, h, r.self_mem_parts⟩

omit [Recipe φ σ] in
theorem Has.part (h : w.Has r) (hp : p ∈ r.parts) : w.Has p := by
  obtain ⟨r', hr', h⟩ := h
  exact ⟨r', hr', Rule.parts_subset h hp⟩

omit [Recipe φ σ] in
theorem has_cons {s : Session σ} :
    (⟨s, r :: w.rules⟩ : Bench σ φ).Has p ↔ p ∈ r.parts ∨ w.Has p := by
  simp [Has]

namespace Coherent

theorem start (s : Session σ) : (⟨s, [.empty]⟩ : Bench σ φ).Coherent where
  founded := by
    rintro p ⟨r, hr, hp⟩
    obtain rfl := List.mem_singleton.1 hr
    obtain rfl := List.mem_singleton.1 hp
    trivial
  unique := by
    rintro p q ⟨r, hr, hp⟩ ⟨r', hr', hq⟩ -
    obtain rfl := List.mem_singleton.1 hr
    obtain rfl := List.mem_singleton.1 hr'
    rw [List.mem_singleton.1 hp, List.mem_singleton.1 hq]
  below := by
    rintro p n ⟨r, hr, hp⟩ hn
    obtain rfl := List.mem_singleton.1 hr
    obtain rfl := List.mem_singleton.1 hp
    simp [Rule.serial?] at hn

theorem mono (h : w.Coherent) {w' : Bench σ φ} (hr : ∀ {p}, w'.Has p → w.Has p)
    (hs : w.session.nextSerial ≤ w'.session.nextSerial) : w'.Coherent where
  founded hp := h.founded (hr hp)
  unique hp hq := h.unique (hr hp) (hr hq)
  below hp hn := Nat.lt_of_lt_of_le (h.below (hr hp) hn) hs

theorem pass (h : w.Coherent) {s : Session σ} (hs : w.session.nextSerial ≤ s.nextSerial) :
    (⟨s, w.rules⟩ : Bench σ φ).Coherent :=
  h.mono id hs

theorem pass_exec (h : w.Coherent) {α : Type} {x : Run σ α} {a : Except Fault α} {s : Session σ}
    (he : x.exec w.session = (a, s)) : (⟨s, w.rules⟩ : Bench σ φ).Coherent := by
  have hs := x.nextSerial_le w.session
  rw [he] at hs
  exact h.pass hs

theorem cons (h : w.Coherent) (hr : w.Has r) : (⟨w.session, r :: w.rules⟩ : Bench σ φ).Coherent :=
  h.mono (fun hp => (has_cons.1 hp).elim hr.part id) (Nat.le_refl _)

theorem add (h : w.Coherent) {n : Nat} {s : Session σ} (hf : r.Founded) (hn : r.serial? = some n)
    (hp : ∀ p ∈ r.parts, p = r ∨ w.Has p) (hw : w.session.nextSerial ≤ n)
    (hs : n < s.nextSerial) : (⟨s, r :: w.rules⟩ : Bench σ φ).Coherent := by
  have hor : ∀ {p}, (⟨s, r :: w.rules⟩ : Bench σ φ).Has p → p = r ∨ w.Has p := by
    intro p hp'
    exact (has_cons.1 hp').elim (hp p) .inr
  have hnew : ∀ {p}, w.Has p → p.same r = false := by
    intro p hp'
    rw [Bool.eq_false_iff]
    intro hsame
    have he : p.serial? = some n := by simpa [Rule.same, hn] using hsame
    have hlt := h.below hp' he
    omega
  refine ⟨fun hp' => ?_, fun hp' hq' hsame => ?_, fun hp' hm => ?_⟩
  · obtain rfl | hold := hor hp'
    · exact hf
    · exact h.founded hold
  · obtain rfl | hold := hor hp'
    · obtain rfl | hold' := hor hq'
      · rfl
      · rw [Rule.same_comm, hnew hold'] at hsame
        cases hsame
    · obtain rfl | hold' := hor hq'
      · rw [hnew hold] at hsame
        cases hsame
      · exact h.unique hold hold' hsame
  · obtain rfl | hold := hor hp'
    · rw [hn, Option.some.injEq] at hm
      exact hm ▸ hs
    · have hlt := h.below hold hm
      show _ < s.nextSerial
      omega

theorem keep {v : Bench σ φ} (h : (⟨v.session, r :: v.rules⟩ : Bench σ φ).Coherent)
    (hv : w.rules ⊆ v.rules) : (⟨v.session, r :: w.rules⟩ : Bench σ φ).Coherent := by
  refine h.mono (fun {p} hp => ?_) (Nat.le_refl _)
  obtain hp | ⟨q, hq, hp⟩ := has_cons.1 hp
  · exact has_cons.2 (.inl hp)
  · exact has_cons.2 (.inr ⟨q, hv hq, hp⟩)

theorem join (h : w.Coherent) {make : Rule σ φ → Rule σ φ → Nat → Rule σ φ}
    (hm : Rule.Joint make) (hp : w.Has p) (hq : w.Has q) {s : Session σ}
    (he : (Rule.join (make p q) p q).exec w.session = (.ok r, s)) :
    (⟨s, r :: w.rules⟩ : Bench σ φ).Coherent := by
  obtain ⟨r', s', he', hcases⟩ := Rule.exec_join (make p q) p q w.session
  cases he'.symm.trans he
  obtain ⟨_, rfl, rfl⟩ | ⟨_, rfl, rfl⟩ | ⟨hpe, hqe, rfl, rfl⟩ := hcases
  · exact h.cons hp
  · exact h.cons hq
  · refine h.add (hm.founded _ hpe hqe) (hm.serial _ _ _) (fun x hx => ?_) (Nat.le_refl _)
      (Nat.lt_succ_self _)
    rw [hm.parts, List.mem_cons, List.mem_append] at hx
    obtain hx | hx | hx := hx
    · exact .inl hx
    · exact .inr (hp.part hx)
    · exact .inr (hq.part hx)

theorem derive (h : w.Coherent) (hw : w.Reached) (hp : p ∈ w.rules) {expiry : Expiry} {recipe : φ}
    {label : Text} {s : Session σ}
    (he : (p.derive expiry recipe label).exec w.session = (.ok r, s)) :
    (⟨s, r :: w.rules⟩ : Bench σ φ).Coherent := by
  obtain ⟨rfl, rfl, rfl⟩ | ⟨hpe, f, u, hf, rfl, rfl⟩ := Rule.exec_derive_eq_ok.1 he
  · exact h.cons (has_of_mem hp)
  · have hu := (Recipe.derive recipe p).nextSerial_le w.session
    rw [hf] at hu
    refine h.add ⟨hpe, w, u, hw, hp, hf, rfl⟩ rfl (fun x hx => ?_) hu (Nat.lt_succ_self _)
    obtain hx | hx := List.mem_cons.1 hx
    · exact .inl hx
    · exact .inr ⟨p, hp, hx⟩

def KeptBy (p : Rule σ φ) (x : Run σ (Rule σ φ)) : Prop :=
  ∀ {v : Bench σ φ} {q : Rule σ φ} {s : Session σ}, v.Coherent → v.Reached → p ∈ v.rules →
    x.exec v.session = (.ok q, s) → (⟨s, q :: v.rules⟩ : Bench σ φ).Coherent

theorem keptBy_filter_parts {test : Test σ φ} {make : Rule σ φ → Rule σ φ → Nat → Rule σ φ}
    (hm : Rule.Joint make) (ihp : KeptBy p (p.filter test)) (ihq : KeptBy q (q.filter test))
    {whole : Rule σ φ} (hp : p ∈ whole.parts) (hq : q ∈ whole.parts) :
    KeptBy whole (do
      let p' ← p.filter test
      let q' ← q.filter test
      Rule.rejoin whole p q p' q' (Rule.join (make p' q') p' q')) := by
  intro w r s h hw hr he
  obtain ⟨p', u, hp', he⟩ := Run.exec_bind_eq_ok.1 he
  obtain ⟨q', v, hq', he⟩ := Run.exec_bind_eq_ok.1 he
  -- The parts are laid on the bench, and what is left of them is laid on top.
  have hw₀ := hw.takeBoth hr hp hq
  have h₀ := (h.cons ((has_of_mem hr).part hp)).cons
    ((has_of_mem (List.mem_cons_of_mem _ hr)).part hq)
  have hw₁ := hw₀.make (.filter p test) (by simp) hp'
  have h₁ := ihp h₀ hw₀ (by simp) hp'
  have h₂ := ihq h₁ hw₁ (by simp) hq'
  obtain ⟨_, _, hj⟩ | ⟨_, hj⟩ := Rule.rejoin_cases whole p q p' q' (Rule.join (make p' q') p' q')
  · rw [hj] at he
    cases he
    refine (h₂.cons (has_of_mem ?_)).keep fun x hx => ?_
    · simp [hr]
    · simp [hx]
  · rw [hj] at he
    refine (h₂.join hm (has_of_mem ?_) (has_of_mem ?_) he).keep (v := ⟨s, _⟩) fun x hx => ?_
    · simp
    · simp
    · simp [hx]

theorem keptBy_filter (test : Test σ φ) (r : Rule σ φ) : KeptBy r (r.filter test) := by
  induction r with
  | empty =>
    intro w q s h _ hr he
    cases he
    exact h.cons (has_of_mem hr)
  | clause n body expiry blocking label =>
    intro w q s h hw hr he
    obtain ⟨b, u, hb, he⟩ := Run.exec_bind_eq_ok.1 he
    have hu := h.pass_exec hb
    cases he
    cases b with
    | true => exact hu.cons (has_of_mem hr)
    | false => exact hu.cons (has_of_mem (hw.pass_exec hb).empty_mem)
  | seq n body a b iha ihb =>
    exact keptBy_filter_parts Rule.joint_seq iha ihb (by simp [Rule.parts, Rule.self_mem_parts])
      (by simp [Rule.parts, Rule.self_mem_parts])
  | alt n body a b iha ihb =>
    exact keptBy_filter_parts Rule.joint_alt iha ihb (by simp [Rule.parts, Rule.self_mem_parts])
      (by simp [Rule.parts, Rule.self_mem_parts])
  | derived n source recipe body expiry label ih =>
    intro w q s h hw hr he
    obtain ⟨b, u, hb, he⟩ := Run.exec_bind_eq_ok.1 he
    have hu := h.pass_exec hb
    have hwu := hw.pass_exec hb
    cases b with
    | false =>
      cases he
      exact hu.cons (has_of_mem hwu.empty_mem)
    | true =>
      obtain ⟨source', v, hsource, he⟩ := Run.exec_bind_eq_ok.1 he
      have hmem : source ∈ (Rule.derived n source recipe body expiry label).parts :=
        List.mem_cons_of_mem _ source.self_mem_parts
      have hw₀ := hwu.take hr hmem
      have h₁ := ih (hu.cons ((has_of_mem hr).part hmem)) hw₀ (by simp) hsource
      have hw₁ := hw₀.make (.filter source test) (by simp) hsource
      exact (h₁.derive hw₁ (by simp) he).keep (v := ⟨s, _⟩) fun x hx => by simp [hx]

theorem filter {test : Test σ φ} (h : w.Coherent) (hw : w.Reached) (hr : r ∈ w.rules)
    {s : Session σ} (he : (r.filter test).exec w.session = (.ok q, s)) :
    (⟨s, q :: w.rules⟩ : Bench σ φ).Coherent :=
  keptBy_filter test r h hw hr he

theorem narrow {b : Boundary} (h : w.Coherent) (hw : w.Reached) (hr : r ∈ w.rules)
    {s : Session σ} (he : (r.narrow b).exec w.session = (.ok q, s)) :
    (⟨s, q :: w.rules⟩ : Bench σ φ).Coherent := by
  rw [Rule.narrow_eq_filter] at he
  exact h.filter hw hr he

theorem followedBy (h : w.Coherent) (hp : p ∈ w.rules) (hq : q ∈ w.rules) {s : Session σ}
    (he : (p.followedBy q).exec w.session = (.ok r, s)) :
    (⟨s, r :: w.rules⟩ : Bench σ φ).Coherent :=
  h.join Rule.joint_seq (has_of_mem hp) (has_of_mem hq) he

theorem otherwise (h : w.Coherent) (hp : p ∈ w.rules) (hq : q ∈ w.rules) {s : Session σ}
    (he : (p.otherwise q).exec w.session = (.ok r, s)) :
    (⟨s, r :: w.rules⟩ : Bench σ φ).Coherent :=
  h.join Rule.joint_alt (has_of_mem hp) (has_of_mem hq) he

theorem move {t t' : Trail σ φ} {m : Move σ φ} (h : w.Coherent) (hw : w.Reached)
    (ht : t.rule ∈ w.rules) (hm : ∀ r ∈ m.rules, r ∈ w.rules) {s : Session σ}
    (he : (m.run t).exec w.session = (.ok t', s)) :
    (⟨s, t'.rule :: w.rules⟩ : Bench σ φ).Coherent := by
  cases m with
  | narrow b =>
    obtain ⟨q, hq, rfl⟩ := Trail.exec_narrow_eq_ok he
    exact h.narrow hw ht hq
  | attach p =>
    obtain ⟨q, u, hq, -⟩ := Rule.exec_join _ t.rule p w.session
    obtain ⟨j, hj⟩ := Trail.exec_attach hq
    cases hj.symm.trans he
    exact (h.followedBy ht (hm p (by simp)) hq).pass (Nat.le_refl _)
  | attachFallback p =>
    obtain ⟨q, u, hq, -⟩ := Rule.exec_join _ t.rule p w.session
    obtain ⟨j, hj⟩ := Trail.exec_attachFallback hq
    cases hj.symm.trans he
    exact (h.otherwise ht (hm p (by simp)) hq).pass (Nat.le_refl _)
  | without test =>
    obtain ⟨q, u, hq, he⟩ := Run.exec_bind_eq_ok.1 he
    cases he
    exact h.filter hw ht hq
  | advance c taken p =>
    obtain ⟨p', q, u, v, j, hp', hq, rfl, rfl⟩ := Trail.exec_advance_eq_ok he
    have h₁ := h.narrow hw ht hp'
    have h₂ := h₁.followedBy (by simp) (List.mem_cons_of_mem _ (hm p (by simp))) hq
    exact (h₂.keep (v := ⟨v, _⟩) fun x hx => by simp [hx]).pass (Nat.le_refl _)

theorem operation (h : w.Coherent) (hw : w.Reached) {o : Operation σ φ}
    (hg : ∀ p ∈ o.given, p ∈ w.rules) {s : Session σ}
    (he : o.run.exec w.session = (.ok r, s)) : (⟨s, r :: w.rules⟩ : Bench σ φ).Coherent := by
  cases o with
  | clause expiry body label blocking =>
    cases body with
    | none => cases he
    | some f =>
      cases he
      exact h.add trivial rfl (fun p hp => .inl (List.mem_singleton.1 hp)) (Nat.le_refl _)
        (Nat.lt_succ_self _)
  | derived source expiry recipe label =>
    cases recipe with
    | none => cases he
    | some g => exact h.derive hw (hg source (by simp)) he
  | seq p q =>
    exact h.followedBy (hg p (by simp)) (hg q (by simp)) he
  | alt p q =>
    exact h.otherwise (hg p (by simp)) (hg q (by simp)) he
  | narrow p b => exact h.narrow hw (hg p (by simp)) he
  | filter p test => exact h.filter hw (hg p (by simp)) he
  | lead t m =>
    obtain ⟨t', ht', rfl⟩ := Run.exec_map_eq_ok.1 he
    rw [Operation.given, List.forall_mem_cons] at hg
    exact h.move hw hg.1 hg.2 ht'

end Coherent

theorem Reached.coherent (h : w.Reached) : w.Coherent := by
  induction h with
  | start s => exact .start s
  | step hw hs ih =>
    cases hs with
    | made hg he => exact ih.operation hw hg he
    | taken hr hp => exact ih.cons ((has_of_mem hr).part hp)
    | passed hs => exact ih.pass hs

/-- Rules at hand that are the same are equal, since no serial number is given out twice. -/
theorem Reached.eq_of_same (h : w.Reached) (hp : p ∈ w.rules) (hq : q ∈ w.rules)
    (hs : p.same q = true) : p = q :=
  h.coherent.unique (has_of_mem hp) (has_of_mem hq) hs

theorem Reached.founded_parts (h : w.Reached) (hr : r ∈ w.rules) : ∀ p ∈ r.parts, p.Founded :=
  fun _ hp => h.coherent.founded ((has_of_mem hr).part hp)

end Bench

end LayoutRules
