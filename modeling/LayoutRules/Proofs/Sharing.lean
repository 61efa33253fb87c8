import LayoutRules.Proofs.Search

namespace LayoutRules

variable {σ φ : Type}

namespace Rule

variable {p q r : Rule σ φ} {n m : Nat}

def NewSince (r : Rule σ φ) (n : Nat) : Prop := ∃ m, r.serial? = some m ∧ n ≤ m

def OlderThan (r : Rule σ φ) (n : Nat) : Prop := ∀ x ∈ r.parts, ∀ m ∈ x.serial?, m < n

/-- What may become of a rule of which everything is kept: it stays as it is if nothing in it is
derived, and else there is a new rule in its place. -/
inductive StaysOr (r : Rule σ φ) (n : Nat) : Rule σ φ → Prop
  | stays (h : r.outline.recipes = []) : StaysOr r n r
  | renewed {q : Rule σ φ} (h : r.outline.recipes ≠ []) (hq : q.NewSince n) : StaysOr r n q

theorem not_newSince_empty : ¬ (empty : Rule σ φ).NewSince n := by
  rintro ⟨m, hm, -⟩
  cases hm

theorem NewSince.mono (h : r.NewSince n) (hm : m ≤ n) : r.NewSince m := by
  obtain ⟨k, hk, hn⟩ := h
  exact ⟨k, hk, Nat.le_trans hm hn⟩

theorem OlderThan.mono (h : r.OlderThan n) (hm : n ≤ m) : r.OlderThan m :=
  fun x hx k hk => Nat.lt_of_lt_of_le (h x hx k hk) hm

theorem OlderThan.part (h : r.OlderThan n) (hp : p ∈ r.parts) : p.OlderThan n :=
  fun x hx => h x (parts_subset hp hx)

theorem OlderThan.not_same (hp : p.OlderThan n) (hq : q.NewSince n) : q.same p = false := by
  obtain ⟨m, hm, hn⟩ := hq
  rw [Bool.eq_false_iff]
  intro hs
  have hpm : p.serial? = some m := by
    rw [← hm]
    exact (of_decide_eq_true hs).symm
  have hlt := hp p p.self_mem_parts m hpm
  omega

theorem StaysOr.same_iff (h : r.StaysOr n q) (hr : r.OlderThan n) :
    q.same r = true ↔ r.outline.recipes = [] := by
  cases h with
  | stays h => simp [h]
  | renewed h hq => simp [h, hr.not_same hq]

theorem newSince_join {make : Nat → Rule σ φ} {s t : Session σ}
    (hm : ∀ n, (make n).serial? = some n) (hs : n ≤ s.nextSerial)
    (hnew : p.NewSince n ∨ q.NewSince n) (he : (join make p q).exec s = (.ok r, t)) :
    r.NewSince n := by
  obtain ⟨r', t', he', hcases⟩ := exec_join make p q s
  cases he'.symm.trans he
  obtain ⟨rfl, rfl, -⟩ | ⟨rfl, rfl, -⟩ | ⟨-, -, rfl, -⟩ := hcases
  · exact hnew.resolve_right not_newSince_empty
  · exact hnew.resolve_left not_newSince_empty
  · exact ⟨_, hm _, hs⟩

theorem staysOr_of_parts {make : Rule σ φ → Rule σ φ → Nat → Rule σ φ}
    (hm : ∀ p q n, (make p q n).serial? = some n) {x y : Run σ (Rule σ φ)} {whole : Rule σ φ}
    {s t : Session σ} (hp : p.OlderThan s.nextSerial) (hq : q.OlderThan s.nextSerial)
    (hrecipes : whole.outline.recipes = p.outline.recipes ++ q.outline.recipes)
    (ihp : ∀ {p' u}, x.exec s = (.ok p', u) → p.StaysOr s.nextSerial p')
    (ihq : ∀ {u q' v}, s.nextSerial ≤ u.nextSerial → y.exec u = (.ok q', v) →
      q.StaysOr u.nextSerial q')
    (he : (do
      let p' ← x
      let q' ← y
      rejoin whole p q p' q' (join (make p' q') p' q')).exec s = (.ok r, t)) :
    whole.StaysOr s.nextSerial r := by
  obtain ⟨p', u, hp', he⟩ := Run.exec_bind_eq_ok.1 he
  obtain ⟨q', v, hq', he⟩ := Run.exec_bind_eq_ok.1 he
  have hsu := Run.nextSerial_le_of_exec hp'
  have huv := Run.nextSerial_le_of_exec hq'
  have hsp := (ihp hp').same_iff hp
  have hsq := (ihq hsu hq').same_iff (hq.mono hsu)
  obtain ⟨hp₁, hq₁, hj⟩ | ⟨hne, hj⟩ := rejoin_cases whole p q p' q' (join (make p' q') p' q')
  · rw [hj] at he
    cases he
    exact .stays (by rw [hrecipes, hsp.1 hp₁, hsq.1 hq₁]; rfl)
  · rw [hj] at he
    have hnew : p'.NewSince s.nextSerial ∨ q'.NewSince s.nextSerial := by
      cases ihp hp' with
      | renewed _ hn => exact .inl hn
      | stays =>
        cases ihq hsu hq' with
        | renewed _ hn => exact .inr (hn.mono hsu)
        | stays => simp at hne
    -- If nothing were derived in the whole, both parts would have stayed as they were.
    refine .renewed (fun hnone => ?_) (newSince_join (hm p' q') (Nat.le_trans hsu huv) hnew he)
    obtain ⟨hnp, hnq⟩ := List.append_eq_nil_iff.1 (hrecipes ▸ hnone)
    rw [hsp.2 hnp, hsq.2 hnq] at hne
    cases hne

end Rule

namespace Rule

variable [Recipe φ σ]

/-- Like filtering, but what is left of the parts is always put together again, even where both
parts have stayed the same. -/
def filterAnew (r : Rule σ φ) (test : Test σ φ) : Run σ (Rule σ φ) := do
  match r with
  | .empty => return .empty
  | .clause n body expiry blocking label =>
    let whole := .clause n body expiry blocking label
    return if ← test ⟨whole, label, expiry, false⟩ then whole else .empty
  | .seq _ _ p q =>
    let p' ← p.filterAnew test
    let q' ← q.filterAnew test
    p'.followedBy q'
  | .alt _ _ p q =>
    let p' ← p.filterAnew test
    let q' ← q.filterAnew test
    p'.otherwise q'
  | .derived n source recipe body expiry label =>
    if ← test ⟨.derived n source recipe body expiry label, label, expiry, true⟩ then
      let source' ← source.filterAnew test
      source'.derive expiry recipe label
    else
      return .empty

/-- Like narrowing, but what is left of the parts is always put together again. -/
def narrowAnew (r : Rule σ φ) (b : Boundary) : Run σ (Rule σ φ) := do
  match r with
  | .empty => return .empty
  | .clause n body expiry blocking label =>
    if expiry.activeAt b then return .clause n body expiry blocking label
    Run.write .trace fun _ => expiredText label expiry b
    return .empty
  | .seq _ _ p q =>
    let p' ← p.narrowAnew b
    let q' ← q.narrowAnew b
    p'.followedBy q'
  | .alt _ _ p q =>
    let p' ← p.narrowAnew b
    let q' ← q.narrowAnew b
    p'.otherwise q'
  | .derived _ source recipe _ expiry label =>
    if expiry.activeAt b then
      let source' ← source.narrowAnew b
      source'.derive expiry recipe label
    else
      Run.write .trace fun _ => expiredText label expiry b
      return .empty

theorem narrowAnew_eq_filterAnew (r : Rule σ φ) (b : Boundary) :
    r.narrowAnew b = r.filterAnew (.reporting b) := by
  induction r with
  | empty => rfl
  | clause n body expiry blocking label =>
    cases h : expiry.activeAt b <;> simp [narrowAnew, filterAnew, Test.reporting, h]
  | seq n body p q ihp ihq | alt n body p q ihp ihq =>
    simp only [narrowAnew, filterAnew, ihp, ihq]
  | derived n source recipe body expiry label ih =>
    cases h : expiry.activeAt b <;> simp [narrowAnew, filterAnew, Test.reporting, h, ih]

end Rule

variable [Recipe φ σ] {w : Bench σ φ} {p q r : Rule σ φ} {test : Test σ φ}
  {keep : Clause σ φ → Bool}

namespace Bench.Reached

theorem sifts_anew_of_finds (ht : r.Finds test keep) : SiftedBy keep r (r.filterAnew test) := by
  induction r with
  | empty => exact fun hw hr => .pure hw hr
  | clause n body expiry blocking label => exact sifts_of_finds ht
  | seq n body p q ihp ihq =>
    simp only [Rule.Finds, Rule.clauses, List.forall_mem_append] at ht
    refine comes_both (ihp ht.1) (ihq ht.2) (by simp [Rule.parts, Rule.self_mem_parts])
      (List.Subset.refl _) fun hu _ _ _ hp' hq' hop hoq => ?_
    rw [Rule.remains, ← hop, ← hoq]
    exact hu.comes_join .seq hp' hq'
  | alt n body p q ihp ihq =>
    simp only [Rule.Finds, Rule.clauses, List.forall_mem_append] at ht
    refine comes_both (ihp ht.1) (ihq ht.2) (by simp [Rule.parts, Rule.self_mem_parts])
      (List.Subset.refl _) fun hu _ _ _ hp' hq' hop hoq => ?_
    rw [Rule.remains, ← hop, ← hoq]
    exact hu.comes_join .alt hp' hq'
  | derived n source recipe body expiry label ih =>
    simp only [Rule.Finds, Rule.clauses, List.forall_mem_cons] at ht
    exact comes_rederive (ih ht.2) ht.1

end Bench.Reached

namespace Rule

theorem olderThan (hw : w.Reached) (hr : r ∈ w.rules) : r.OlderThan w.session.nextSerial :=
  fun _ hx _ hm => hw.coherent.below ((Bench.has_of_mem hr).part hx) hm

theorem staysOr_of_filter {s t : Session σ} (ho : r.OlderThan s.nextSerial)
    (hf : ∀ x ∈ r.parts, x.Founded) (ht : r.Finds test fun _ => true)
    (he : (r.filter test).exec s = (.ok q, t)) : r.StaysOr s.nextSerial q := by
  induction r generalizing s t q with
  | empty =>
    cases he
    exact .stays rfl
  | clause n body expiry blocking label =>
    obtain ⟨u, hu⟩ := ht _ (List.mem_singleton_self _) s
    rw [filter, Run.exec_bind_ok hu] at he
    cases he
    exact .stays rfl
  | seq n body a b iha ihb =>
    simp only [Finds, clauses, List.forall_mem_append] at ht
    simp only [parts, List.forall_mem_cons, List.forall_mem_append] at hf
    have hoa := ho.part (p := a) (by simp [parts, self_mem_parts])
    have hob := ho.part (p := b) (by simp [parts, self_mem_parts])
    exact staysOr_of_parts joint_seq.serial hoa hob rfl (fun h => iha hoa hf.2.1 ht.1 h)
      (fun hu h => ihb (hob.mono hu) hf.2.2 ht.2 h) he
  | alt n body a b iha ihb =>
    simp only [Finds, clauses, List.forall_mem_append] at ht
    simp only [parts, List.forall_mem_cons, List.forall_mem_append] at hf
    have hoa := ho.part (p := a) (by simp [parts, self_mem_parts])
    have hob := ho.part (p := b) (by simp [parts, self_mem_parts])
    exact staysOr_of_parts joint_alt.serial hoa hob rfl (fun h => iha hoa hf.2.1 ht.1 h)
      (fun hu h => ihb (hob.mono hu) hf.2.2 ht.2 h) he
  | derived n source recipe body expiry label ih =>
    simp only [Finds, clauses, List.forall_mem_cons] at ht
    simp only [parts, List.forall_mem_cons] at hf
    obtain ⟨u, hu⟩ := ht.1 s
    rw [filter, Run.exec_bind_ok hu] at he
    obtain ⟨source', v, hsource, he⟩ := Run.exec_bind_eq_ok.1 he
    have hsu := Run.nextSerial_le_of_exec hu
    have hne : source' ≠ .empty := by
      have hos := (ho.part (List.mem_cons_of_mem _ source.self_mem_parts)).mono hsu
      cases ih hos hf.2 ht.2 hsource with
      | stays => exact hf.1.1
      | renewed _ hnew =>
        rintro rfl
        exact not_newSince_empty hnew
    obtain ⟨rfl, -, -⟩ | ⟨-, f, z, hz, rfl, -⟩ := exec_derive_eq_ok.1 he
    · exact absurd rfl hne
    · have hvz := Run.nextSerial_le_of_exec hz
      have huv := Run.nextSerial_le_of_exec hsource
      exact .renewed (List.cons_ne_nil _ _) ⟨_, rfl, by omega⟩

theorem same_iff_of_filter {v : Bench σ φ} (hw : w.Reached) (hp : p ∈ w.rules)
    (ht : p.Finds test keep) (he : (p.filter test).exec w.session = (.ok q, v.session))
    (hv : v.Reached) (hpv : p ∈ v.rules) (hq : q ∈ v.rules) (ho : q.outline = p.remains keep) :
    q.same p = true ↔ p.outline.recipes = [] ∧ ∀ c ∈ p.clauses, keep c = true := by
  have hf := hw.founded_parts hp
  have hkeep : q.same p = true → ∀ c ∈ p.clauses, keep c = true := by
    intro hs
    obtain rfl : q = p := hv.eq_of_same hq hpv hs
    exact forall_keep_of_leaves_eq hf (retains_of_outline_eq ho).leaves.symm
  have hsame : (∀ c ∈ p.clauses, keep c = true) →
      (q.same p = true ↔ p.outline.recipes = []) := by
    intro h
    have hfinds : p.Finds test fun _ => true := fun c hc s => h c hc ▸ ht c hc s
    exact (staysOr_of_filter (olderThan hw hp) hf hfinds he).same_iff (olderThan hw hp)
  exact ⟨fun hs => ⟨(hsame (hkeep hs)).1 hs, hkeep hs⟩, fun h => (hsame h.2).2 h.1⟩

theorem exec_filter_same_iff (hw : w.Reached) (hp : p ∈ w.rules) (hd : p.outline.Dependable)
    (ht : p.Finds test keep) :
    ∃ q s, (p.filter test).exec w.session = (.ok q, s) ∧
      (q.same p = true ↔ p.outline.recipes = [] ∧ ∀ c ∈ p.clauses, keep c = true) := by
  obtain ⟨q, v, hq, hv, hsub, hmem, ho⟩ := (Bench.Reached.sifts_of_finds ht hw hp).exists_made hd
  exact ⟨q, v.session, hq, same_iff_of_filter hw hp ht hq hv (hsub hp) hmem ho⟩

theorem exec_filter_eq_anew {G : φ → Prop} {make : φ → Outline σ φ → Override σ}
    (hG : WellBehaved G make) (hw : w.Reached) (hp : p ∈ w.rules)
    (hg : ∀ g ∈ p.outline.recipes, G g) (ht : p.Finds test keep) :
    ∃ q s q' s', (p.filter test).exec w.session = (.ok q, s) ∧
      (p.filterAnew test).exec w.session = (.ok q', s') ∧ q.outline = q'.outline ∧
      q.answer = q'.answer := by
  have hd := hG.dependable hg
  obtain ⟨q, v, hq, hv, _, hmem, ho⟩ := (Bench.Reached.sifts_of_finds ht hw hp).exists_made hd
  obtain ⟨q', v', hq', hv', _, hmem', ho'⟩ :=
    (Bench.Reached.sifts_anew_of_finds ht hw hp).exists_made hd
  have hgq' : ∀ g ∈ q'.outline.recipes, G g := fun g hm =>
    hg g (Outline.gathers_recipes.remnant_subset (p.remnant_remains keep) (ho' ▸ hm))
  have he := ho.trans ho'.symm
  exact ⟨q, v.session, q', v'.session, hq, hq', he,
    answer_eq_of_outline_eq hG hv hv' hmem hmem' he hgq'⟩

/-- A rule is shared exactly where it may be. Narrowing or filtering gives back that very rule if
nothing is derived in it and nothing drops out, and in no other case. Nobody notices: wherever
recipes go by trees alone, the tree and the answers are those that come of putting all parts
together again. -/
theorem shares_exactly (hw : w.Reached) (hp : p ∈ w.rules) :
    (p.outline.Dependable →
      (∀ b, ∃ q s, (p.narrow b).exec w.session = (.ok q, s) ∧
        (q.same p = true ↔
          p.outline.recipes = [] ∧ ∀ c ∈ p.clauses, c.expiry.activeAt b = true)) ∧
      ∀ {test : Test σ φ} {keep : Clause σ φ → Bool}, p.Finds test keep →
        ∃ q s, (p.filter test).exec w.session = (.ok q, s) ∧
          (q.same p = true ↔ p.outline.recipes = [] ∧ ∀ c ∈ p.clauses, keep c = true)) ∧
    ∀ {G : φ → Prop} {make : φ → Outline σ φ → Override σ}, WellBehaved G make →
      (∀ g ∈ p.outline.recipes, G g) →
      (∀ b, ∃ q s q' s', (p.narrow b).exec w.session = (.ok q, s) ∧
        (p.narrowAnew b).exec w.session = (.ok q', s') ∧ q.outline = q'.outline ∧
        q.answer = q'.answer) ∧
      ∀ {test : Test σ φ} {keep : Clause σ φ → Bool}, p.Finds test keep →
        ∃ q s q' s', (p.filter test).exec w.session = (.ok q, s) ∧
          (p.filterAnew test).exec w.session = (.ok q', s') ∧ q.outline = q'.outline ∧
          q.answer = q'.answer := by
  refine ⟨fun hd => ⟨fun b => ?_, exec_filter_same_iff hw hp hd⟩,
    fun hG hg => ⟨fun b => ?_, exec_filter_eq_anew hG hw hp hg⟩⟩
  · rw [narrow_eq_filter]
    exact exec_filter_same_iff hw hp hd ((judges_reporting b).finds p)
  · rw [narrow_eq_filter, narrowAnew_eq_filterAnew]
    exact exec_filter_eq_anew hG hw hp hg ((judges_reporting b).finds p)

end Rule

namespace Scenario

theorem whole_dependable : whole.outline.Dependable := by
  intro g hg
  simp [whole, opening, brief, joined, broken, Rule.outline, Outline.recipes] at hg

theorem whole_and_guarded_share_exactly :
    workbench.Reached ∧ whole ∈ workbench.rules ∧ guarded ∈ workbench.rules ∧
      whole.outline.Dependable ∧ guarded.outline.Dependable ∧
      guarded.Finds (fun c => return sparing c) sparing ∧
      WellBehaved (fun g : Method => g = .answer) (fun _ o => o.mirroredAnswer) ∧
      (∀ g ∈ guarded.outline.recipes, g = .answer) ∧
      (∃ q s, (whole.narrow early).exec workbench.session = (.ok q, s) ∧ q.same whole = true) ∧
      (∃ q s q' s', (guarded.narrow early).exec workbench.session = (.ok q, s) ∧
        (guarded.narrowAnew early).exec workbench.session = (.ok q', s') ∧
        q.same guarded = false ∧ q.outline = q'.outline ∧ q.answer = q'.answer) ∧
      ∃ q s q' s', (guarded.filter fun c => return sparing c).exec workbench.session = (.ok q, s) ∧
        (guarded.filterAnew fun c => return sparing c).exec workbench.session = (.ok q', s') ∧
        q.same guarded = false ∧ q.outline = q'.outline ∧ q.answer = q'.answer := by
  have hmem : whole ∈ workbench.rules ∧ guarded ∈ workbench.rules := by simp [workbench]
  have hg : ∀ g ∈ guarded.outline.recipes, g = .answer := by
    simp [guarded, mirror, whole, opening, brief, joined, broken, Rule.outline, Outline.recipes]
  have ht : guarded.Finds (fun c => return sparing c) sparing := fun c _ s => ⟨s, rfl⟩
  obtain ⟨hwhole, _⟩ := Rule.shares_exactly workbench_reached hmem.1
  obtain ⟨hguarded, hanew⟩ := Rule.shares_exactly workbench_reached hmem.2
  have hnew : ¬ (guarded.outline.recipes = [] ∧ ∀ c ∈ guarded.clauses, sparing c = true) :=
    fun h => List.cons_ne_nil _ _ h.1
  refine ⟨workbench_reached, hmem.1, hmem.2, whole_dependable, guarded_dependable, ht,
    wellBehaved_answer, hg, ?_, ?_, ?_⟩
  · obtain ⟨q, s, hq, hsame⟩ := (hwhole whole_dependable).1 early
    exact ⟨q, s, hq, hsame.2 ⟨rfl, by decide⟩⟩
  · obtain ⟨q, s, hq, hsame⟩ := (hguarded guarded_dependable).1 early
    obtain ⟨q₁, s₁, q', s', hq₁, hq', ho, ha⟩ := (hanew wellBehaved_answer hg).1 early
    cases hq₁.symm.trans hq
    exact ⟨q, s, q', s', hq, hq', Bool.eq_false_iff.2 fun h => List.cons_ne_nil _ _ (hsame.1 h).1,
      ho, ha⟩
  · obtain ⟨q, s, hq, hsame⟩ := (hguarded guarded_dependable).2 ht
    obtain ⟨q₁, s₁, q', s', hq₁, hq', ho, ha⟩ := (hanew wellBehaved_answer hg).2 ht
    cases hq₁.symm.trans hq
    exact ⟨q, s, q', s', hq, hq', Bool.eq_false_iff.2 fun h => hnew (hsame.1 h), ho, ha⟩

end Scenario

end LayoutRules
