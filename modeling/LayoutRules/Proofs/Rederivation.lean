import LayoutRules.Proofs.Calls
import LayoutRules.Proofs.Retention

namespace LayoutRules

variable {σ φ : Type}

namespace Place

def stem (x : Place σ φ) : Mark × Option φ := x.clause.stem

theorem map_stem_under (c : Clause σ φ) (xs : List (Place σ φ)) :
    (xs.map (under c)).map stem = xs.map stem := by
  rw [List.map_map]
  rfl

end Place

namespace Rule

/-- The derived rules, each with what it stands in, a derived rule after those in its source. -/
def innermostFirst : Rule σ φ → List (Place σ φ)
  | .empty => []
  | .clause .. => []
  | .seq _ _ p q => p.innermostFirst ++ q.innermostFirst
  | .alt _ _ p q => p.innermostFirst ++ q.innermostFirst
  | .derived n source recipe body expiry label =>
    let c := ⟨.derived n source recipe body expiry label, label, expiry, true⟩
    source.innermostFirst.map (.under c) ++ [{ clause := c }]

/-- The derived rules that have to be derived anew: those that are kept with all that is above them
and have something left in their sources. -/
def due (keep : Clause σ φ → Bool) (r : Rule σ φ) : List (Place σ φ) :=
  r.innermostFirst.filter (Place.stays keep)

/-- Of every clause of the rule the test finds what the condition says, and the client is as it was
before. -/
def FindsIdly (r : Rule σ φ) (test : Test σ φ) (cond : Clause σ φ → Bool) : Prop :=
  ∀ c ∈ r.clauses, ∀ s, ∃ t, (test c).exec s = (.ok (cond c), t) ∧ s.Idle t

theorem FindsIdly.finds {r : Rule σ φ} {test : Test σ φ} {cond : Clause σ φ → Bool}
    (h : r.FindsIdly test cond) : r.Finds test cond := by
  intro c hc s
  obtain ⟨t, ht, -⟩ := h c hc s
  exact ⟨t, ht⟩

theorem findsIdly_reporting (r : Rule σ φ) (b : Boundary) :
    r.FindsIdly (.reporting b) fun c => c.expiry.activeAt b := by
  intro c _ s
  show ∃ t, (Test.reporting b c).exec s = (.ok (c.expiry.activeAt b), t) ∧ s.Idle t
  cases h : c.expiry.activeAt b with
  | true => exact ⟨s, Test.exec_reporting_of_active h s, .refl s⟩
  | false => exact ⟨_, Test.exec_reporting_of_expired h s, rfl, Nat.le_refl _⟩

end Rule

variable [Recipe φ σ]

/-- By the call of its recipe a derived rule gets its override: the recipe is called on the very
source that the rule has, and the rule gets its serial number after that. -/
inductive Clause.Derives : Clause σ φ → Session σ → Session σ → Prop
  | call {u v : Session σ} {source : Rule σ φ} {recipe : φ} {body : Override σ} (expiry : Expiry)
      (label : Text) (hc : (Recipe.derive recipe source).exec u = (.ok (some body), v)) :
      Derives ⟨.derived v.nextSerial source recipe body expiry label, label, expiry, true⟩ u v

/-- From one session to another by the calls of recipes by which these rules get their overrides,
one after the other, and by nothing else that the client could tell. -/
abbrev CallsInTurn : Session σ → List (Clause σ φ) → Session σ → Prop := InTurn Clause.Derives

namespace Rule

/-- What may come of cutting a rule down to what is kept. Either all derived rules that are due have
been derived anew, innermost first, and there are no others in what is left. Or one of these calls,
on what is left of the source, has been the last, because the recipe failed or made no override. -/
inductive Rederived (keep : Clause σ φ → Bool) (p : Rule σ φ) (s : Session σ) :
    Except Fault (Rule σ φ) → Session σ → Prop
  | made {q : Rule σ φ} {t : Session σ}
      (hd : (p.due keep).map Place.stem = q.innermostFirst.map Place.stem)
      (hc : CallsInTurn s (q.innermostFirst.map Place.clause) t) : Rederived keep p s (.ok q) t
  | stopped {before : List (Place σ φ)} {x : Place σ φ} {after : List (Place σ φ)}
      {cs : List (Clause σ φ)} {n : Nat} {source source' : Rule σ φ} {recipe : φ}
      {body : Override σ} {expiry : Expiry} {label : Text}
      {a : Except Fault (Option (Override σ))} {e : Fault} {t u : Session σ}
      (hd : p.due keep = before ++ x :: after)
      (hs : before.map Place.stem = cs.map Clause.stem) (hc : CallsInTurn s cs u)
      (hx : x.clause.rule = .derived n source recipe body expiry label)
      (ho : source'.outline = source.remains keep)
      (he : (Recipe.derive recipe source').exec u = (a, t)) (hr : refusal? label a = some e) :
      Rederived keep p s (.error e) t

section

variable {keep : Clause σ φ → Bool} {p q r : Rule σ φ} {s t u : Session σ} {e : Fault}

omit [Recipe φ σ] in
theorem due_of_append (hr : r.innermostFirst = p.innermostFirst ++ q.innermostFirst) :
    r.due keep = p.due keep ++ q.due keep := by
  rw [due, hr, List.filter_append]
  rfl

omit [Recipe φ σ] in
theorem innermostFirst_of_join {make : Nat → Rule σ φ}
    (hm : ∀ n, (make n).innermostFirst = p.innermostFirst ++ q.innermostFirst)
    (he : (join make p q).exec s = (.ok r, t)) :
    r.innermostFirst = p.innermostFirst ++ q.innermostFirst ∧ s.Idle t := by
  obtain ⟨r', t', he', hcases⟩ := exec_join make p q s
  cases he'.symm.trans he
  obtain ⟨rfl, rfl, rfl⟩ | ⟨rfl, rfl, rfl⟩ | ⟨-, -, rfl, rfl⟩ := hcases
  · exact ⟨(List.append_nil _).symm, .refl _⟩
  · exact ⟨rfl, .refl _⟩
  · exact ⟨hm _, rfl, Nat.le_succ _⟩

namespace Rederived

theorem afterIdle {res : Except Fault (Rule σ φ)} (hi : s.Idle u) (h : Rederived keep p u res t) :
    Rederived keep p s res t := by
  cases h with
  | made hd hc => exact .made hd (hc.before hi)
  | stopped hd hs hc hx ho he hr => exact .stopped hd hs (hc.before hi) hx ho he hr

theorem first (h : Rederived keep p s (.error e) t)
    (hr : r.innermostFirst = p.innermostFirst ++ q.innermostFirst) :
    Rederived keep r s (.error e) t := by
  cases h with
  | @stopped before x after _ _ _ _ _ _ _ _ _ _ _ _ hd hs hc hx ho he hf =>
    have hdr : r.due keep = before ++ x :: (after ++ q.due keep) := by
      rw [due_of_append hr, hd, List.append_assoc, List.cons_append]
    exact .stopped hdr hs hc hx ho he hf

theorem second {p' : Rule σ φ} (h : Rederived keep p s (.ok p') u)
    (k : Rederived keep q u (.error e) t)
    (hr : r.innermostFirst = p.innermostFirst ++ q.innermostFirst) :
    Rederived keep r s (.error e) t := by
  cases h with
  | made hdp hcp =>
    cases k with
    | @stopped before x after cs _ _ _ _ _ _ _ _ _ _ _ hd hs hc hx ho he hf =>
      have hdr : r.due keep = (p.due keep ++ before) ++ x :: after := by
        rw [due_of_append hr, hd, List.append_assoc]
      have hsr : (p.due keep ++ before).map Place.stem =
          (p'.innermostFirst.map Place.clause ++ cs).map Clause.stem := by
        rw [List.map_append, List.map_append, hdp, hs, List.map_map]
        rfl
      exact .stopped hdr hsr (hcp.append hc) hx ho he hf

theorem both {p' q' r' : Rule σ φ} {v : Session σ} (h : Rederived keep p s (.ok p') u)
    (k : Rederived keep q u (.ok q') v)
    (hr : r.innermostFirst = p.innermostFirst ++ q.innermostFirst)
    (hr' : r'.innermostFirst = p'.innermostFirst ++ q'.innermostFirst) (hv : v.Idle t) :
    Rederived keep r s (.ok r') t := by
  cases h with
  | made hdp hcp =>
    cases k with
    | made hdq hcq =>
      apply Rederived.made
      · rw [due_of_append hr, hr', List.map_append, List.map_append, hdp, hdq]
      · rw [hr', List.map_append]
        exact (hcp.append hcq).after hv

end Rederived

section

variable {n : Nat} {source : Rule σ φ} {recipe : φ} {body : Override σ} {expiry : Expiry}
  {label : Text}

omit [Recipe φ σ] in
theorem due_derived_of_not
    (h : keep ⟨.derived n source recipe body expiry label, label, expiry, true⟩ = false) :
    (derived n source recipe body expiry label).due keep = [] := by
  rw [due, innermostFirst, List.filter_append, List.filter_map, Place.stays_comp_under_of_not h]
  simp [stays_derived_iff, h]

omit [Recipe φ σ] in
theorem due_derived
    (h : keep ⟨.derived n source recipe body expiry label, label, expiry, true⟩ = true) :
    (derived n source recipe body expiry label).due keep =
      (source.due keep).map
        (.under ⟨.derived n source recipe body expiry label, label, expiry, true⟩) ++
      List.filter (Place.stays keep)
        [{ clause := ⟨.derived n source recipe body expiry label, label, expiry, true⟩ }] := by
  rw [due, innermostFirst, List.filter_append, List.filter_map, Place.stays_comp_under h]
  rfl

theorem Rederived.below
    (hk : keep ⟨.derived n source recipe body expiry label, label, expiry, true⟩ = true)
    (h : Rederived keep source s (.error e) t) :
    Rederived keep (derived n source recipe body expiry label) s (.error e) t := by
  have hdue := due_derived hk
  cases h with
  | stopped hd hs hc hx ho he hr =>
    rw [hd, List.map_append, List.map_cons, List.append_assoc] at hdue
    exact .stopped hdue ((Place.map_stem_under _ _).trans hs) hc hx ho he hr

theorem Rederived.derive_empty
    (hk : keep ⟨.derived n source recipe body expiry label, label, expiry, true⟩ = true)
    (h : Rederived keep source s (.ok .empty) t) (ho : source.remains keep = .empty) :
    Rederived keep (derived n source recipe body expiry label) s (.ok .empty) t := by
  cases h with
  | made hd hc =>
    have hnone : source.due keep = [] := List.map_eq_nil_iff.1 hd
    refine .made ?_ hc
    rw [due_derived hk, hnone, List.filter_cons_of_neg (by simp [stays_derived_iff, ho])]
    rfl

theorem Rederived.derive_of_ne {source' : Rule σ φ} {res : Except Fault (Rule σ φ)}
    (hk : keep ⟨.derived n source recipe body expiry label, label, expiry, true⟩ = true)
    (h : Rederived keep source s (.ok source') u) (ho : source'.outline = source.remains keep)
    (hne : source' ≠ .empty) (he : (source'.derive expiry recipe label).exec u = (res, t)) :
    Rederived keep (derived n source recipe body expiry label) s res t := by
  have hdue := due_derived hk
  have hremains : source.remains keep ≠ .empty := by
    rw [← ho]
    simpa using hne
  rw [List.filter_cons_of_pos (stays_derived_iff.2 ⟨hk, hremains⟩), List.filter_nil] at hdue
  cases h with
  | made hd hc =>
    cases hcall : (Recipe.derive recipe source').exec u with
    | mk a v =>
      cases hr : refusal? label a with
      | some e =>
        cases (exec_derive_of_refusal hne hcall hr).symm.trans he
        refine .stopped hdue ?_ hc rfl ho hcall hr
        rw [Place.map_stem_under, hd, List.map_map]
        rfl
      | none =>
        obtain ⟨f, rfl⟩ := refusal?_eq_none_iff.1 hr
        have hmade : (source'.derive expiry recipe label).exec u = _ :=
          exec_derive_eq_ok.2 (.inr ⟨hne, f, v, hcall, rfl, rfl⟩)
        cases hmade.symm.trans he
        apply Rederived.made
        · rw [hdue, innermostFirst, List.map_append, List.map_append, Place.map_stem_under, hd,
            Place.map_stem_under]
          rfl
        · rw [innermostFirst, List.map_append, List.map_map]
          exact hc.append (.next (.refl u) (.call expiry label hcall) (.idle ⟨rfl, Nat.le_succ _⟩))

theorem rederived_of_source {x : Run σ (Rule σ φ)} {res : Except Fault (Rule σ φ)}
    (hk : keep ⟨.derived n source recipe body expiry label, label, expiry, true⟩ = true)
    (ih : ∀ {res u}, x.exec s = (res, u) → Rederived keep source s res u)
    (ho : ∀ {source' u}, x.exec s = (.ok source', u) → source'.outline = source.remains keep)
    (he : (do
      let source' ← x
      source'.derive expiry recipe label).exec s = (res, t)) :
    Rederived keep (derived n source recipe body expiry label) s res t := by
  cases hx : x.exec s with
  | mk resx u =>
    cases resx with
    | error e =>
      cases (Run.exec_bind_error hx).symm.trans he
      exact (ih hx).below hk
    | ok source' =>
      rw [Run.exec_bind_ok hx] at he
      by_cases hne : source' = .empty
      · subst hne
        cases he
        exact (ih hx).derive_empty hk (ho hx).symm
      · exact (ih hx).derive_of_ne hk (ho hx) hne he

end

end

variable {w : Bench σ φ} {p q r : Rule σ φ} {test : Test σ φ} {keep : Clause σ φ → Bool}

def RederivesDue (test : Test σ φ) (keep : Clause σ φ → Bool) (r : Rule σ φ) : Prop :=
  ∀ {w : Bench σ φ} {res : Except Fault (Rule σ φ)} {t : Session σ}, w.Reached → r ∈ w.rules →
    (r.filter test).exec w.session = (res, t) → Rederived keep r w.session res t

theorem rederived_of_parts {make : Rule σ φ → Rule σ φ → Nat → Rule σ φ} {whole : Rule σ φ}
    (hparts : p ∈ whole.parts ∧ q ∈ whole.parts)
    (hwhole : whole.innermostFirst = p.innermostFirst ++ q.innermostFirst)
    (hm : ∀ p' q' n, (make p' q' n).innermostFirst = p'.innermostFirst ++ q'.innermostFirst)
    (ihp : RederivesDue test keep p) (ihq : RederivesDue test keep q) (hw : w.Reached)
    (hr : whole ∈ w.rules) {res : Except Fault (Rule σ φ)} {t : Session σ}
    (he : (do
      let p' ← p.filter test
      let q' ← q.filter test
      rejoin whole p q p' q' (join (make p' q') p' q')).exec w.session = (res, t)) :
    Rederived keep whole w.session res t := by
  have hw₀ := hw.takeBoth hr hparts.1 hparts.2
  cases hp : (p.filter test).exec w.session with
  | mk resp u =>
    have hrp := ihp hw₀ (by simp) hp
    cases resp with
    | error e =>
      cases (Run.exec_bind_error hp).symm.trans he
      exact hrp.first hwhole
    | ok p' =>
      rw [Run.exec_bind_ok hp] at he
      have hw₁ := hw₀.make (.filter p test) (by simp) hp
      cases hq : (q.filter test).exec u with
      | mk resq v =>
        have hrq := ihq hw₁ (by simp) hq
        cases resq with
        | error e =>
          cases (Run.exec_bind_error hq).symm.trans he
          exact hrp.second hrq hwhole
        | ok q' =>
          rw [Run.exec_bind_ok hq] at he
          have hw₂ := hw₁.make (.filter q test) (by simp) hq
          obtain ⟨hsp, hsq, hj⟩ | ⟨-, hj⟩ :=
            rejoin_cases whole p q p' q' (join (make p' q') p' q')
          · -- A whole that stays as it is has parts that have stayed.
            have hep : p' = p := hw₂.eq_of_same (by simp) (by simp) hsp
            have heq : q' = q := hw₂.eq_of_same (by simp) (by simp) hsq
            rw [hj] at he
            cases he
            exact hrp.both hrq hwhole (by rw [hwhole, hep, heq]) (.refl t)
          · rw [hj] at he
            obtain ⟨r, x, hx, -⟩ := exec_join (make p' q') p' q' v
            cases hx.symm.trans he
            obtain ⟨hi, hidle⟩ := innermostFirst_of_join (hm p' q') hx
            exact hrp.both hrq hwhole hi hidle

theorem rederivesDue (ht : r.FindsIdly test keep) : RederivesDue test keep r := by
  induction r with
  | empty =>
    intro w res t hw hr he
    cases he
    exact .made rfl (.idle (.refl _))
  | clause n body expiry blocking label =>
    intro w res t hw hr he
    obtain ⟨u, hu, hidle⟩ := ht _ (List.mem_singleton_self _) w.session
    rw [filter, Run.exec_bind_ok hu] at he
    cases he
    split
    · exact .made rfl (.idle hidle)
    · exact .made rfl (.idle hidle)
  | seq n body a b iha ihb =>
    intro w res t hw hr he
    simp only [FindsIdly, clauses, List.forall_mem_append] at ht
    exact rederived_of_parts (by simp [parts, self_mem_parts]) rfl (fun _ _ _ => rfl) (iha ht.1)
      (ihb ht.2) hw hr he
  | alt n body a b iha ihb =>
    intro w res t hw hr he
    simp only [FindsIdly, clauses, List.forall_mem_append] at ht
    exact rederived_of_parts (by simp [parts, self_mem_parts]) rfl (fun _ _ _ => rfl) (iha ht.1)
      (ihb ht.2) hw hr he
  | derived n source recipe body expiry label ih =>
    intro w res t hw hr he
    simp only [FindsIdly, clauses, List.forall_mem_cons] at ht
    obtain ⟨u, hu, hidle⟩ := ht.1 w.session
    rw [filter, Run.exec_bind_ok hu] at he
    cases h : keep ⟨.derived n source recipe body expiry label, label, expiry, true⟩ with
    | false =>
      rw [h] at he
      cases he
      refine .made ?_ (.idle hidle)
      rw [due_derived_of_not h]
      rfl
    | true =>
      rw [h] at he
      have hw' := (hw.pass_exec hu).takeSource hr
      refine .afterIdle hidle (rederived_of_source h (fun hx => ih ht.2 hw' (by simp) hx)
        (fun {source' u'} hx => ?_) he)
      cases Bench.Reached.sifts_of_finds (FindsIdly.finds ht.2) hw' (by simp) with
      | made hs _ _ _ ho =>
        cases hs.symm.trans hx
        exact ho
      | refused hs _ => cases hs.symm.trans hx

/-- Whatever recipes do, narrowing and filtering call them for nothing but the derived rules that
are left, once for each, after those in its source and from left to right. A recipe is called on the
very source that the rule then has. The first call that fails or makes no override is the last, and
is what the whole fails with. -/
theorem rederives_in_turn (hw : w.Reached) (hp : p ∈ w.rules) :
    (∀ b res t, (p.narrow b).exec w.session = (res, t) →
      Rederived (fun c => c.expiry.activeAt b) p w.session res t) ∧
    ∀ {test : Test σ φ} {keep : Clause σ φ → Bool}, p.FindsIdly test keep →
      ∀ res t, (p.filter test).exec w.session = (res, t) →
        Rederived keep p w.session res t := by
  refine ⟨fun b res t he => ?_, fun ht res t he => rederivesDue ht hw hp he⟩
  rw [narrow_eq_filter] at he
  exact rederivesDue (findsIdly_reporting p b) hw hp he

end Rule

namespace Scenario

def waning : Rule Tally Method := .seq 11 (mirror.answer.followedBy lapsing.answer) mirror lapsing

def waningBench : Bench Tally Method := ⟨⟨12, {}, {}⟩, waning :: lapsingBench.rules⟩

theorem waningBench_reached : waningBench.Reached :=
  lapsingBench_reached.make (.seq mirror lapsing) (by simp [lapsingBench, workbench]) rfl

theorem waning_rederives_in_turn :
    waningBench.Reached ∧ waning ∈ waningBench.rules ∧
      waning.FindsIdly (fun c => return sparing c) sparing ∧
      (∃ t, (waning.narrow pastBrief).exec waningBench.session =
          (.error (.recipeWithoutOverride "lapsing"), t) ∧
        (waning.due fun c => c.expiry.activeAt pastBrief).map (fun x => x.clause.label) =
          ["mirror", "lapsing"] ∧
        Rule.Rederived (fun c => c.expiry.activeAt pastBrief) waning waningBench.session
          (.error (.recipeWithoutOverride "lapsing")) t) ∧
      ∃ q t, (waning.filter fun c => return sparing c).exec waningBench.session = (.ok q, t) ∧
        q.innermostFirst.map Place.stem = [(⟨"mirror", ⟨.on, 80⟩, true⟩, some .answer)] ∧
        CallsInTurn waningBench.session (q.innermostFirst.map Place.clause) t := by
  have hmem : waning ∈ waningBench.rules := by simp [waningBench]
  have ht : waning.FindsIdly (fun c => return sparing c) sparing :=
    fun c _ s => ⟨s, rfl, .refl s⟩
  obtain ⟨hnarrow, hfilter⟩ := Rule.rederives_in_turn waningBench_reached hmem
  refine ⟨waningBench_reached, hmem, ht, ⟨_, rfl, rfl, hnarrow pastBrief _ _ rfl⟩, ?_⟩
  cases hfilter ht _ _ rfl with
  | made hd hc => exact ⟨_, _, rfl, hd.symm, hc⟩

end Scenario

end LayoutRules
