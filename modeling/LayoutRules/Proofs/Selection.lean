import LayoutRules.Proofs.Silence

namespace LayoutRules

variable {σ φ : Type}

namespace Override

/-- The override always answers, namely with those of the candidates that pass, in the order in
which they were given. It may have effects. -/
def Keeps (f : Override σ) (pass : Candidate → Bool) : Prop :=
  ∀ c s, ∃ t, (f c).exec s = (.ok (some (c.candidates.filter pass)), t)

theorem keeps_keep (pass : Candidate → Bool) : (keep pass : Override σ).Keeps pass :=
  fun _ s => ⟨s, rfl⟩

theorem keeps_newlines : (newlines : Override σ).Keeps Candidate.isNewline := keeps_keep _

theorem keeps_nonNewlines : (nonNewlines : Override σ).Keeps fun x => !x.isNewline := keeps_keep _

theorem Keeps.unique {f : Override σ} {pass pass' : Candidate → Bool} (h : f.Keeps pass)
    (h' : f.Keeps pass') (s : Session σ) : pass = pass' := by
  ext x
  obtain ⟨t, ht⟩ := h ⟨default, [x]⟩ s
  obtain ⟨t', ht'⟩ := h' ⟨default, [x]⟩ s
  have heq : [x].filter pass = [x].filter pass' :=
    Option.some.inj (Except.ok.inj (Prod.mk.inj (ht.symm.trans ht')).1)
  cases hx : pass x <;> cases hx' : pass' x <;> simp [hx, hx'] at heq ⊢

theorem Keeps.exec_resolve {f : Override σ} {pass : Candidate → Bool} (h : f.Keeps pass)
    (c : Choice) (s : Session σ) :
    ∃ t, (f.resolve c).exec s = (.ok (c.candidates.filter pass), t) := by
  obtain ⟨t, ht⟩ := h c s
  exact ⟨t, Run.exec_bind_ok ht⟩

end Override

namespace Rule

/-- Made of clauses and of empty rules, by putting them in sequence and by nothing else. The order
and the brackets are free, and whatever has been made may be used again. -/
inductive Sequenced : Rule σ φ → Prop
  | empty : Sequenced .empty
  | clause (n : Nat) (body : Override σ) (expiry : Expiry) (blocking : Bool) (label : Text) :
    Sequenced (.clause n body expiry blocking label)
  | followedBy {p q r : Rule σ φ} {s t : Session σ} (hp : Sequenced p) (hq : Sequenced q)
      (he : (p.followedBy q).exec s = (.ok r, t)) : Sequenced r

def passesAt (pass : Clause σ φ → Candidate → Bool) (r : Rule σ φ) (b : Boundary)
    (x : Candidate) : Bool :=
  r.clauses.all fun c => !c.expiry.activeAt b || pass c x

variable {p q r : Rule σ φ} {pass : Clause σ φ → Candidate → Bool} {b : Boundary}

theorem clauses_of_followedBy {s t : Session σ} (he : (p.followedBy q).exec s = (.ok r, t)) :
    r.clauses = p.clauses ++ q.clauses := by
  obtain ⟨r', t', he', hcases⟩ :=
    exec_join (fun n => .seq n (p.answer.followedBy q.answer) p q) p q s
  cases he'.symm.trans he
  obtain ⟨rfl, rfl, -⟩ | ⟨rfl, rfl, -⟩ | ⟨-, -, rfl, -⟩ := hcases
  · exact (List.append_nil _).symm
  · rfl
  · rfl

theorem outline_of_followedBy {s t : Session σ} (he : (p.followedBy q).exec s = (.ok r, t)) :
    r.outline = p.outline.followedBy q.outline := by
  obtain ⟨r', t', he', ho⟩ := exec_followedBy p q s
  cases he'.symm.trans he
  exact ho

theorem Sequenced.recipes_eq_nil (h : p.Sequenced) : p.outline.recipes = [] := by
  induction h with
  | empty | clause => rfl
  | @followedBy p q r _ _ _ _ he ihp ihq =>
    have hsub := Outline.gathers_recipes.followedBy_subset p.outline q.outline
    rwa [ihp, ihq, ← outline_of_followedBy he, List.append_nil, List.subset_nil] at hsub

theorem passesAt_clause (n : Nat) (body : Override σ) (expiry : Expiry) (blocking : Bool)
    (label : Text) : (clause n body expiry blocking label : Rule σ φ).passesAt pass b = fun x =>
      !expiry.activeAt b || pass ⟨.clause n body expiry blocking label, label, expiry, false⟩ x :=
  funext fun _ => Bool.and_true _

theorem passesAt_of_followedBy {s t : Session σ} (he : (p.followedBy q).exec s = (.ok r, t))
    (x : Candidate) : r.passesAt pass b x = (p.passesAt pass b x && q.passesAt pass b x) := by
  rw [passesAt, clauses_of_followedBy he, List.all_append]
  rfl

theorem passesAt_congr (h : ∀ c, c ∈ p.clauses ↔ c ∈ q.clauses) :
    p.passesAt pass b = q.passesAt pass b := by
  funext x
  rw [Bool.eq_iff_iff, passesAt, passesAt, List.all_eq_true, List.all_eq_true]
  simp only [h]

theorem resolve_narrow_clause (n : Nat) (body : Override σ) (expiry : Expiry) (blocking : Bool)
    (label : Text) (b : Boundary) (c : Choice) :
    ((clause n body expiry blocking label : Rule σ φ).outline.narrow b).mirroredAnswer.resolve c =
      if expiry.activeAt b then body.resolve c else pure c.candidates := by
  rw [narrow_answer_clause]
  cases h : expiry.activeAt b <;> simp [silenced, answer, h, Override.resolve_undefined]

theorem Sequenced.exec_resolve (h : p.Sequenced)
    (hk : ∀ c ∈ p.clauses, c.rule.answer.Keeps (pass c)) (b : Boundary) (c : Choice)
    (s : Session σ) : ∃ t, ((p.outline.narrow b).mirroredAnswer.resolve c).exec s =
      (.ok (c.candidates.filter (p.passesAt pass b)), t) := by
  induction h generalizing c s with
  | empty =>
    have hall : c.candidates.filter ((Rule.empty : Rule σ φ).passesAt pass b) = c.candidates :=
      List.filter_eq_self.2 fun _ _ => rfl
    exact ⟨s, by rw [hall]; rfl⟩
  | clause n body expiry blocking label =>
    have hbody : body.Keeps (pass _) := hk _ (List.mem_singleton_self _)
    rw [resolve_narrow_clause]
    cases ha : expiry.activeAt b with
    | true =>
      obtain ⟨t, ht⟩ := hbody.exec_resolve c s
      rw [passesAt_clause, ha]
      exact ⟨t, ht⟩
    | false =>
      have hall : c.candidates.filter
          ((Rule.clause n body expiry blocking label).passesAt pass b) = c.candidates := by
        rw [passesAt_clause, ha]
        exact List.filter_eq_self.2 fun _ _ => rfl
      exact ⟨s, by rw [hall]; rfl⟩
  | @followedBy p q r _ _ _ _ he ihp ihq =>
    -- The second rule is given what the first one leaves, even if either of them is empty.
    rw [clauses_of_followedBy he, List.forall_mem_append] at hk
    obtain ⟨t, ht⟩ := ihp hk.1 c s
    obtain ⟨u, hu⟩ := ihq hk.2 (c.withCandidates (c.candidates.filter (p.passesAt pass b))) t
    have hboth : (c.candidates.filter (p.passesAt pass b)).filter (q.passesAt pass b) =
        c.candidates.filter (r.passesAt pass b) := by
      rw [List.filter_filter]
      apply List.filter_congr
      intro x _
      rw [passesAt_of_followedBy he, Bool.and_comm]
    refine ⟨u, ?_⟩
    rw [outline_of_followedBy he, Outline.narrow, Outline.prune_followedBy,
      Outline.resolve_mirroredAnswer_followedBy, ← hboth]
    exact (Run.exec_bind_ok ht).trans hu

theorem filter_passesAt_eq_nil {c d : Clause σ φ} (hc : c ∈ p.clauses) (hd : d ∈ p.clauses)
    (hca : c.expiry.activeAt b = true) (hda : d.expiry.activeAt b = true)
    (hexcl : ∀ x, ¬(pass c x = true ∧ pass d x = true)) (cs : List Candidate) :
    cs.filter (p.passesAt pass b) = [] := by
  rw [List.filter_eq_nil_iff]
  intro x _ hx
  apply hexcl x
  have hall := List.all_eq_true.1 hx
  exact ⟨by simpa [hca] using hall c hc, by simpa [hda] using hall d hd⟩

theorem Sequenced.exists_narrow [Recipe φ σ] {w : Bench σ φ} (h : p.Sequenced) (hw : w.Reached)
    (hp : p ∈ w.rules) (hk : ∀ c ∈ p.clauses, c.rule.answer.Keeps (pass c)) (b : Boundary) :
    ∃ q t, (p.narrow b).exec w.session = (.ok q, t) ∧ ∀ c s, ∃ u,
      (q.resolve c).exec s = (.ok (c.candidates.filter (p.passesAt pass b)), u) := by
  have hr := h.recipes_eq_nil
  obtain ⟨q, t, hq, ho⟩ := exec_narrow wellBehaved_mirrors hw hp (by simp [hr]) b
  have hwq := hw.make (.narrow p b) (by simpa using hp) hq
  have hmq : ∀ g ∈ q.outline.recipes, Mirrors g := fun g hg => by
    have hgp := Outline.gathers_recipes.prune_subset _ _ (ho ▸ hg)
    simp [hr] at hgp
  have ha := answer_eq_mirroredAnswer (hwq.founded_parts List.mem_cons_self) hmq
  refine ⟨q, t, hq, fun c s => ?_⟩
  obtain ⟨u, hu⟩ := h.exec_resolve hk b c s
  rw [← ho, ← ha] at hu
  exact ⟨u, hu⟩

end Rule

variable [Recipe φ σ]

/-- What is left open at a boundary by clauses in sequence that each keep what passes: the
candidates that pass all those that are active, however the clauses are ordered, bracketed or
repeated. Nothing is left, and there is no way back to what was given, where one of them keeps the
newlines and another one all but these. -/
theorem Rule.resolve_narrow_of_sequenced {w : Bench σ φ} {p : Rule σ φ} (hw : w.Reached)
    (hp : p ∈ w.rules) (hs : p.Sequenced) {pass : Clause σ φ → Candidate → Bool}
    (hk : ∀ c ∈ p.clauses, c.rule.answer.Keeps (pass c)) (b : Boundary) :
    ∃ q t, (p.narrow b).exec w.session = (.ok q, t) ∧
      (∀ c s, ∃ u, (q.resolve c).exec s = (.ok (c.candidates.filter (p.passesAt pass b)), u)) ∧
      (∀ {v : Bench σ φ} {p' : Rule σ φ}, v.Reached → p' ∈ v.rules → p'.Sequenced →
        (∀ c, c ∈ p'.clauses ↔ c ∈ p.clauses) →
        ∃ q' t', (p'.narrow b).exec v.session = (.ok q', t') ∧
          ∀ c s s', ∃ cs u u', (q.resolve c).exec s = (.ok cs, u) ∧
            (q'.resolve c).exec s' = (.ok cs, u')) ∧
      (∀ c ∈ p.clauses, ∀ d ∈ p.clauses,
        c.expiry.activeAt b = true → d.expiry.activeAt b = true →
        c.rule.answer = Override.newlines → d.rule.answer = Override.nonNewlines →
        ∀ x s, ∃ u, (q.resolve x).exec s = (.ok [], u)) ∧
      (Override.newlines : Override σ).Keeps Candidate.isNewline ∧
      (Override.nonNewlines : Override σ).Keeps fun x => !x.isNewline := by
  obtain ⟨q, t, hq, hsel⟩ := hs.exists_narrow hw hp hk b
  refine ⟨q, t, hq, hsel, fun {v p'} hv hp' hs' hmem => ?_, fun c hc d hd hca hda hcn hdn x s => ?_,
    Override.keeps_newlines, Override.keeps_nonNewlines⟩
  · have hk' : ∀ c ∈ p'.clauses, c.rule.answer.Keeps (pass c) := fun c hc => hk c ((hmem c).1 hc)
    obtain ⟨q', t', hq', hsel'⟩ := hs'.exists_narrow hv hp' hk' b
    rw [passesAt_congr hmem] at hsel'
    refine ⟨q', t', hq', fun c s s' => ?_⟩
    obtain ⟨u, hu⟩ := hsel c s
    obtain ⟨u', hu'⟩ := hsel' c s'
    exact ⟨_, u, u', hu, hu'⟩
  · have hpc : pass c = Candidate.isNewline :=
      (hcn ▸ hk c hc).unique Override.keeps_newlines s
    have hpd : pass d = fun x => !x.isNewline :=
      (hdn ▸ hk d hd).unique Override.keeps_nonNewlines s
    have hexcl : ∀ x, ¬(pass c x = true ∧ pass d x = true) := by
      intro x
      simp [hpc, hpd]
    obtain ⟨u, hu⟩ := hsel x s
    rw [filter_passesAt_eq_nil hc hd hca hda hexcl] at hu
    exact ⟨u, hu⟩

namespace Scenario

/-! The clauses of the sequence once more, in another order and with other brackets. One of them
comes twice, and an empty rule comes in between. -/

def backwards : Rule Tally Method := .seq 10 (broken.answer.followedBy joined.answer) broken joined

def lastly : Rule Tally Method := .seq 11 (brief.answer.followedBy joined.answer) brief joined

def repeated : Rule Tally Method :=
  .seq 12 (backwards.answer.followedBy lastly.answer) backwards lastly

def repeatedBench : Bench Tally Method :=
  ⟨⟨13, {}, {}⟩, [repeated, lastly, lastly, backwards] ++ workbench.rules⟩

theorem repeatedBench_reached : repeatedBench.Reached := by
  have h := workbench_reached.make (r := backwards) (s := ⟨11, {}, {}⟩)
    (.seq broken joined) (by simp [workbench]) rfl
  have h := h.make (r := lastly) (s := ⟨12, {}, {}⟩) (.seq brief joined) (by simp [workbench]) rfl
  have h := h.make (r := lastly) (s := ⟨12, {}, {}⟩) (.seq .empty lastly) (by simp [workbench]) rfl
  exact h.make (r := repeated) (s := ⟨13, {}, {}⟩) (.seq backwards lastly) (by simp) rfl

theorem whole_sequenced : whole.Sequenced := by
  have hb : brief.Sequenced := .clause ..
  have hj : joined.Sequenced := .clause ..
  have ho : opening.Sequenced := hb.followedBy hj (s := ⟨3, {}, {}⟩) rfl
  exact ho.followedBy (.clause ..) (s := ⟨4, {}, {}⟩) rfl

theorem repeated_sequenced : repeated.Sequenced := by
  have hj : joined.Sequenced := .clause ..
  have hb : backwards.Sequenced := (Rule.Sequenced.clause ..).followedBy hj (s := ⟨10, {}, {}⟩) rfl
  have hl : lastly.Sequenced := (Rule.Sequenced.clause ..).followedBy hj (s := ⟨11, {}, {}⟩) rfl
  have hl : lastly.Sequenced := Rule.Sequenced.empty.followedBy hl (s := ⟨12, {}, {}⟩) rfl
  exact hb.followedBy hl (s := ⟨12, {}, {}⟩) rfl

def wanted (c : Clause Tally Method) (x : Candidate) : Bool :=
  if c.label = "joined" then !x.isNewline else x.isNewline

theorem whole_clauses_keep : ∀ c ∈ whole.clauses, c.rule.answer.Keeps (wanted c) := by
  simp only [whole, opening, brief, joined, broken, Rule.clauses, List.cons_append, List.nil_append,
    List.forall_mem_cons]
  exact ⟨Override.keeps_newlines, Override.keeps_nonNewlines, Override.keeps_newlines, by simp⟩

theorem whole_leaves_nothing :
    workbench.Reached ∧ whole ∈ workbench.rules ∧ whole.Sequenced ∧
      (∀ c ∈ whole.clauses, c.rule.answer.Keeps (wanted c)) ∧ finale.candidates ≠ [] ∧
      ∃ q t q' t', (whole.narrow early).exec workbench.session = (.ok q, t) ∧
        (repeated.narrow early).exec repeatedBench.session = (.ok q', t') ∧
        ∀ s s', ∃ u u', (q.resolve finale).exec s = (.ok [], u) ∧
          (q'.resolve finale).exec s' = (.ok [], u') := by
  have hmem : whole ∈ workbench.rules := by simp [workbench]
  have hmem' : repeated ∈ repeatedBench.rules := by simp [repeatedBench]
  have hsame : ∀ c, c ∈ repeated.clauses ↔ c ∈ whole.clauses := by
    intro c
    simp only [repeated, backwards, lastly, whole, opening, Rule.clauses, List.mem_append]
    grind
  obtain ⟨q, t, hq, hsel, htwo, -⟩ := Rule.resolve_narrow_of_sequenced workbench_reached hmem
    whole_sequenced whole_clauses_keep early
  obtain ⟨q', t', hq', hsame⟩ := htwo repeatedBench_reached hmem' repeated_sequenced hsame
  refine ⟨workbench_reached, hmem, whole_sequenced, whole_clauses_keep, List.cons_ne_nil _ _,
    q, t, q', t', hq, hq', fun s s' => ?_⟩
  obtain ⟨cs, u, u', hcs, hcs'⟩ := hsame finale s s'
  obtain ⟨v, hv⟩ := hsel finale s
  have hnil : cs = [] := Except.ok.inj (Prod.mk.inj (hcs.symm.trans hv)).1
  exact ⟨u, u', hnil ▸ hcs, hnil ▸ hcs'⟩

end Scenario

end LayoutRules
