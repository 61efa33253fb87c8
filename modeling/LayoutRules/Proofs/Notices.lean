import LayoutRules.Proofs.Blocking
import LayoutRules.Proofs.Search

namespace LayoutRules

variable {σ φ : Type}

theorem Expiry.all_activeAt {bs : List Boundary} {b : Boundary}
    (h : bs.Pairwise Boundary.NotAfter) (hb : bs.getLast? = some b) (e : Expiry) :
    (bs.all fun a => e.activeAt a) = e.activeAt b := by
  obtain ⟨as, rfl⟩ := List.getLast?_eq_some_iff.1 hb
  have hlast : ∀ a ∈ as, a.NotAfter b := fun a ha =>
    (List.pairwise_append.1 h).2.2 a ha b (List.mem_singleton_self b)
  rw [Bool.eq_iff_iff, List.all_eq_true]
  constructor
  · intro hall
    exact hall b (List.mem_append_right _ (List.mem_singleton_self b))
  · intro hactive a ha
    obtain ha | ha := List.mem_append.1 ha
    · exact activeAt_of_notAfter (hlast a ha) hactive
    · obtain rfl := List.mem_singleton.1 ha
      exact hactive

namespace Journal

def writeAll (j : Journal) (es : List Entry) : Journal := es.foldl write j

theorem writeAll_append (j : Journal) (es fs : List Entry) :
    j.writeAll (es ++ fs) = (j.writeAll es).writeAll fs :=
  List.foldl_append

theorem entries_writeAll {j : Journal} {es : List Entry} (h : ∀ e ∈ es, j.keeps e.level = true) :
    (j.writeAll es).entries.toList = j.entries.toList ++ es := by
  induction es generalizing j with
  | nil => exact (List.append_nil _).symm
  | cons e es ih =>
    rw [List.forall_mem_cons] at h
    have hkeeps : ∀ e' ∈ es, (j.write e).keeps e'.level = true := fun e' he' => by
      rw [keeps, threshold_write]
      exact h.2 e' he'
    show ((j.write e).writeAll es).entries.toList = _
    rw [ih hkeeps, write_of_keeps h.1, Array.toList_push, List.append_assoc]
    rfl

end Journal

/-- The entry for what drops out at a boundary by its own expiry. -/
def expiredEntry (b : Boundary) (label : Text) (expiry : Expiry) : Entry :=
  ⟨.trace, Rule.expiredText label expiry b⟩

namespace Place

def entry (b : Boundary) (x : Place σ φ) : Entry := expiredEntry b x.clause.label x.clause.expiry

/-- Whether what stands there has expired, and nothing above it has. -/
def spent (b : Boundary) (x : Place σ φ) : Bool :=
  !x.clause.expiry.activeAt b && x.above.all fun c => c.expiry.activeAt b

/-- Whether what stands there drops out at a boundary by its own expiry, when the rule has come past
others before. It has then not expired before, and nothing above it has yet. If it is a derived
rule, there is a clause in its source that was active at the last boundary before, as was all in
between that it is derived by way of. -/
def lapses (past : List Boundary) (b : Boundary) (x : Place σ φ) : Bool :=
  past.all (fun a => x.clause.expiry.activeAt a) && x.spent b &&
    (!x.clause.isDerived || past.getLast?.all fun a =>
      x.clause.rule.leaves.any (kept fun c => c.expiry.activeAt a))

theorem spent_under (b : Boundary) (c : Clause σ φ) (x : Place σ φ) :
    (x.under c).spent b = (c.expiry.activeAt b && x.spent b) := by
  simp only [spent, under, List.all_cons, Bool.and_left_comm]

theorem lapses_once {past later : List Boundary} {b c : Boundary} {x : Place σ φ}
    (h : x.lapses past b = true) : x.lapses (past ++ b :: later) c = false := by
  simp only [lapses, spent, Bool.and_eq_true, Bool.not_eq_true'] at h
  simp [lapses, h.1.2.1]

end Place

namespace Outline

/-- The entries for what drops out of a tree at a boundary, from left to right. -/
def expired (b : Boundary) : Outline σ φ → List Entry
  | .empty => []
  | .clause _ _ expiry _ label => if expiry.activeAt b then [] else [expiredEntry b label expiry]
  | .seq p q => p.expired b ++ q.expired b
  | .alt p q => p.expired b ++ q.expired b
  | .derived source _ expiry label =>
    if expiry.activeAt b then source.expired b else [expiredEntry b label expiry]

theorem expired_join (b : Boundary) (k : Connective) (p q : Outline σ φ) :
    (join k.node p q).expired b = p.expired b ++ q.expired b :=
  append_join rfl k (by cases k <;> exact fun _ _ => rfl) p q

theorem expired_derive_of_active {b : Boundary} {expiry : Expiry} (h : expiry.activeAt b = true)
    (source : Outline σ φ) (recipe : φ) (label : Text) :
    (source.derive recipe expiry label).expired b = source.expired b := by
  by_cases hs : source = .empty
  · subst hs
    rfl
  · rw [derive_of_ne hs, expired, if_pos h]

end Outline

namespace Rule

def noticesAt (p : Rule σ φ) (past : List Boundary) (b : Boundary) : List Entry :=
  (p.places.filter (Place.lapses past b)).map (Place.entry b)

/-- What is written down when a rule that has come past some boundaries comes to others in turn. -/
def notices (p : Rule σ φ) (past : List Boundary) : List Boundary → List Entry
  | [] => []
  | b :: bs => p.noticesAt past b ++ p.notices (past ++ [b]) bs

variable {keep : Clause σ φ → Bool} {p q r : Rule σ φ} {b : Boundary}

theorem expired_remains (keep : Clause σ φ → Bool) (b : Boundary) (r : Rule σ φ) :
    (r.remains keep).expired b =
      (r.places.filter fun x => x.stays keep && x.spent b).map (Place.entry b) := by
  induction r with
  | empty => rfl
  | clause n body expiry blocking label =>
    cases h : keep ⟨.clause n body expiry blocking label, label, expiry, false⟩ <;>
      cases hb : expiry.activeAt b <;>
        simp [remains, places, Outline.expired, Place.stays, Place.kept, Place.spent, Place.entry,
          h, hb]
  | seq n body p q ihp ihq =>
    rw [places, List.filter_append, List.map_append, ← ihp, ← ihq]
    exact Outline.expired_join b .seq _ _
  | alt n body p q ihp ihq =>
    rw [places, List.filter_append, List.map_append, ← ihp, ← ihq]
    exact Outline.expired_join b .alt _ _
  | derived n source recipe body expiry label ih =>
    rw [places, List.filter_cons, List.filter_map]
    cases hk : keep ⟨.derived n source recipe body expiry label, label, expiry, true⟩ with
    | false =>
      rw [if_neg (by simp [stays_derived_iff, hk]), remains, if_neg (by simp [hk])]
      simp [Function.comp_def, Place.stays_under, hk, Outline.expired]
    | true =>
      rw [remains, if_pos hk]
      cases hb : expiry.activeAt b with
      | true =>
        -- What is in the source is to be seen under the derived rule as it is by itself.
        rw [if_neg (by simp [Place.spent, hb]), Outline.expired_derive_of_active hb, ih,
          List.map_map]
        simp only [Function.comp_def, Place.stays_under, Place.spent_under, hk, hb, Bool.true_and]
        rfl
      | false =>
        by_cases hs : source.remains keep = .empty
        · rw [if_neg (by simp [stays_derived_iff, hs]), hs]
          simp [Function.comp_def, Place.spent_under, hb, Outline.expired]
        · have hstays := stays_derived_iff.2 ⟨hk, hs⟩
          rw [if_pos (by simp [Place.spent, hstays, hb]), Outline.derive_of_ne hs,
            Outline.expired, hb]
          simp [Function.comp_def, Place.spent_under, hb, Place.entry]

theorem leaves_ne_nil_of_mem_places [Recipe φ σ] (hf : ∀ p ∈ r.parts, p.Founded) {x : Place σ φ}
    (hx : x ∈ r.places) : x.clause.rule.leaves ≠ [] := by
  induction r generalizing x with
  | empty => cases hx
  | clause =>
    obtain rfl := List.mem_singleton.1 hx
    exact List.cons_ne_nil _ _
  | seq n body p q ihp ihq | alt n body p q ihp ihq =>
    simp only [parts, List.forall_mem_cons, List.forall_mem_append] at hf
    obtain ⟨_, hfp, hfq⟩ := hf
    exact (List.mem_append.1 hx).elim (ihp hfp) (ihq hfq)
  | derived n source recipe body expiry label ih =>
    obtain rfl | hx := List.mem_cons.1 hx
    · apply leaves_ne_nil hf
      rintro ⟨⟩
    · obtain ⟨y, hy, rfl⟩ := List.mem_map.1 hx
      simp only [parts, List.forall_mem_cons] at hf
      exact ih (x := y) hf.2 hy

theorem leaves_of_mem_places {x : Place σ φ} (hx : x ∈ r.places) (h : x.clause.isDerived = false) :
    x.clause.rule.leaves = [{ clause := x.clause }] := by
  induction r generalizing x with
  | empty => cases hx
  | clause =>
    obtain rfl := List.mem_singleton.1 hx
    rfl
  | seq n body p q ihp ihq | alt n body p q ihp ihq =>
    exact (List.mem_append.1 hx).elim (ihp · h) (ihq · h)
  | derived n source recipe body expiry label ih =>
    obtain rfl | hx := List.mem_cons.1 hx
    · cases h
    · obtain ⟨y, hy, rfl⟩ := List.mem_map.1 hx
      exact ih (x := y) hy h

section

variable [Recipe φ σ] {past : List Boundary} {x : Place σ φ}

/-- In a forward scan what was active at the last boundary was active before. Whether anything is
left of a source is therefore to be told from that boundary alone. -/
theorem any_leaves_of_past (hf : ∀ p ∈ r.parts, p.Founded) (hb : past.Pairwise Boundary.NotAfter)
    (hx : x ∈ r.places) (hown : (past.all fun a => x.clause.expiry.activeAt a) = true) :
    x.clause.rule.leaves.any (Place.kept fun c => past.all fun a => c.expiry.activeAt a) =
      (!x.clause.isDerived || past.getLast?.all fun a =>
        x.clause.rule.leaves.any (Place.kept fun c => c.expiry.activeAt a)) := by
  cases hd : x.clause.isDerived with
  | false =>
    rw [leaves_of_mem_places hx hd]
    simp [Place.kept, hown]
  | true =>
    cases ha : past.getLast? with
    | none =>
      obtain rfl := List.getLast?_eq_none_iff.1 ha
      obtain ⟨y, hy⟩ := List.exists_mem_of_ne_nil _ (leaves_ne_nil_of_mem_places hf hx)
      exact List.any_eq_true.2 ⟨y, hy, by simp [Place.kept]⟩
    | some a =>
      simp only [Expiry.all_activeAt hb ha]
      rfl

theorem stays_and_spent_eq_lapses (hf : ∀ p ∈ r.parts, p.Founded)
    (hb : (past ++ [b]).Pairwise Boundary.NotAfter) (hx : x ∈ r.places) :
    (x.stays (fun c => past.all fun a => c.expiry.activeAt a) && x.spent b) = x.lapses past b := by
  obtain ⟨hpast, -, hlast⟩ := List.pairwise_append.1 hb
  simp only [List.mem_singleton, forall_eq] at hlast
  rw [Bool.eq_iff_iff]
  simp only [Place.stays, Place.lapses, Bool.and_eq_true, Place.kept_iff]
  constructor
  · rintro ⟨⟨⟨hown, -⟩, hleaf⟩, hspent⟩
    rw [any_leaves_of_past hf hpast hx hown] at hleaf
    exact ⟨⟨hown, hspent⟩, hleaf⟩
  · rintro ⟨⟨hown, hspent⟩, hleaf⟩
    rw [← any_leaves_of_past hf hpast hx hown] at hleaf
    refine ⟨⟨⟨hown, fun c hc => ?_⟩, hleaf⟩, hspent⟩
    have hactive := List.all_eq_true.1 (Bool.and_eq_true_iff.1 hspent).2 c hc
    exact List.all_eq_true.2 fun a ha => Expiry.activeAt_of_notAfter (hlast a ha) hactive

end

end Rule

variable [Recipe φ σ]

/-- The recipes of the tree write nothing down whenever they are called on a rule that has no
recipes but these. -/
def Outline.Reticent (o : Outline σ φ) : Prop :=
  ∀ g ∈ o.recipes, ∀ {w : Bench σ φ} {p : Rule σ φ}, w.Reached → p ∈ w.rules → p ≠ .empty →
    p.outline.recipes ⊆ o.recipes →
    ((Recipe.derive g p).exec w.session).2.journal = w.session.journal

theorem Outline.Reticent.mono {o o' : Outline σ φ} (ho : o.Reticent) (h : o'.recipes ⊆ o.recipes) :
    o'.Reticent :=
  fun g hg {_ _} hw hp hne hsub => ho g (h hg) hw hp hne (List.Subset.trans hsub h)

namespace Rule

variable {w : Bench σ φ} {p q r : Rule σ φ} {b : Boundary}

theorem recipes_subset_of_narrow (hw : w.Reached) (hr : r ∈ w.rules) {t : Session σ}
    (he : (r.narrow b).exec w.session = (.ok q, t)) : q.outline.recipes ⊆ r.outline.recipes := by
  cases hw.comes_cut hr (.narrow b) with
  | made hmade _ _ _ ho =>
    cases hmade.symm.trans he
    rw [ho]
    exact Outline.gathers_recipes.sift_subset _ _
  | refused hrefused => cases hrefused.symm.trans he

omit [Recipe φ σ] in
theorem exec_write_expired (b : Boundary) (label : Text) (expiry : Expiry) (s : Session σ) :
    (do
      Run.write .trace fun _ => expiredText label expiry b
      return (.empty : Rule σ φ)).exec s =
      (.ok .empty, { s with journal := s.journal.write (expiredEntry b label expiry) }) :=
  Run.exec_bind_ok (Run.exec_write _ _ s)

def Reports (b : Boundary) (r : Rule σ φ) : Prop :=
  ∀ {w : Bench σ φ} {q : Rule σ φ} {t : Session σ}, w.Reached → r ∈ w.rules →
    (r.narrow b).exec w.session = (.ok q, t) →
    t.journal = w.session.journal.writeAll (r.outline.expired b)

theorem reports_of_parts {make : Rule σ φ → Rule σ φ → Nat → Rule σ φ} {whole : Rule σ φ}
    (hparts : p ∈ whole.parts ∧ q ∈ whole.parts)
    (hwhole : whole.outline.expired b = p.outline.expired b ++ q.outline.expired b)
    (ihp : Reports b p) (ihq : Reports b q) (hw : w.Reached) (hr : whole ∈ w.rules) {t : Session σ}
    (he : (do
      let p' ← p.narrow b
      let q' ← q.narrow b
      rejoin whole p q p' q' (join (make p' q') p' q')).exec w.session = (.ok r, t)) :
    t.journal = w.session.journal.writeAll (whole.outline.expired b) := by
  have hw₀ := hw.takeBoth hr hparts.1 hparts.2
  obtain ⟨p', u, hp, he⟩ := Run.exec_bind_eq_ok.1 he
  obtain ⟨q', v, hq, he⟩ := Run.exec_bind_eq_ok.1 he
  have hw₁ := hw₀.make (.narrow p b) (by simp) hp
  have hpu : u.journal = _ := ihp hw₀ (by simp) hp
  have hqv : v.journal = _ := ihq hw₁ (by simp) hq
  have htv : t.journal = v.journal := by
    obtain ⟨-, -, hj⟩ | ⟨-, hj⟩ := rejoin_cases whole p q p' q' (join (make p' q') p' q')
    · rw [hj] at he
      cases he
      rfl
    · rw [hj] at he
      obtain ⟨r', t', hx, ⟨-, -, rfl⟩ | ⟨-, -, rfl⟩ | ⟨-, -, -, rfl⟩⟩ :=
        exec_join (make p' q') p' q' v
      all_goals
        cases hx.symm.trans he
        rfl
  rw [htv, hqv, hpu, hwhole, Journal.writeAll_append]

theorem reports (hq : r.outline.Reticent) : Reports b r := by
  induction r with
  | empty =>
    intro w q t hw hr he
    cases he
    rfl
  | clause n body expiry blocking label =>
    intro w q t hw hr he
    cases hb : expiry.activeAt b with
    | true =>
      simp only [narrow, hb, ↓reduceIte] at he
      cases he
      rw [outline, Outline.expired, if_pos hb]
      rfl
    | false =>
      simp only [narrow, hb, Bool.false_eq_true, ↓reduceIte] at he
      cases (exec_write_expired b label expiry w.session).symm.trans he
      rw [outline, Outline.expired, if_neg (by simp [hb])]
      rfl
  | seq n body a c iha ihc =>
    intro w q t hw hr he
    exact reports_of_parts (by simp [parts, self_mem_parts]) rfl
      (iha (hq.mono (List.subset_append_left _ _))) (ihc (hq.mono (List.subset_append_right _ _)))
      hw hr he
  | alt n body a c iha ihc =>
    intro w q t hw hr he
    exact reports_of_parts (by simp [parts, self_mem_parts]) rfl
      (iha (hq.mono (List.subset_append_left _ _))) (ihc (hq.mono (List.subset_append_right _ _)))
      hw hr he
  | derived n source recipe body expiry label ih =>
    intro w q t hw hr he
    cases hb : expiry.activeAt b with
    | true =>
      simp only [narrow, hb, ↓reduceIte] at he
      obtain ⟨source', u, hs, he⟩ := Run.exec_bind_eq_ok.1 he
      have hw₀ := hw.takeSource hr
      have hw₁ := hw₀.make (.narrow source b) (by simp) hs
      have hu : u.journal = _ := ih (hq.mono (List.subset_cons_self _ _)) hw₀ (by simp) hs
      rw [outline, Outline.expired, if_pos hb, ← hu]
      -- The recipe is called once all that drops out of the source has been written down.
      obtain ⟨-, -, rfl⟩ | ⟨hne, f, v, hf, -, rfl⟩ := exec_derive_eq_ok.1 he
      · rfl
      · have hsub : source'.outline.recipes ⊆ recipe :: source.outline.recipes :=
          List.subset_cons_of_subset _ (recipes_subset_of_narrow hw₀ (by simp) hs)
        have hv := hq recipe List.mem_cons_self hw₁ List.mem_cons_self hne hsub
        rwa [hf] at hv
    | false =>
      simp only [narrow, hb, Bool.false_eq_true, ↓reduceIte] at he
      cases (exec_write_expired b label expiry w.session).symm.trans he
      rw [outline, Outline.expired, if_neg (by simp [hb])]
      rfl

theorem carry_concat (p : Rule σ φ) (bs : List Boundary) (b : Boundary) :
    p.carry (bs ++ [b]) = p.carry bs >>= fun q => q.narrow b := by
  simp [carry, List.foldlM_append]

theorem exec_carry_writes (hw : w.Reached) (hp : p ∈ w.rules) (hd : p.outline.Dependable)
    (hq : p.outline.Reticent) {past bs : List Boundary}
    (hb : (past ++ bs).Pairwise Boundary.NotAfter) {v : Bench σ φ} (hv : v.Reached)
    (hmem : r ∈ v.rules) (he : (p.carry past).exec w.session = (.ok r, v.session)) :
    ∃ q t, (r.carry bs).exec v.session = (.ok q, t) ∧
      t.journal = v.session.journal.writeAll (p.notices past bs) := by
  -- By induction on the boundaries to come. What the rule is by then is to be told from the rule at
  -- the start and the boundaries that it has come past.
  induction bs generalizing past r v with
  | nil => exact ⟨r, v.session, rfl, rfl⟩
  | cons b bs ih =>
    obtain ⟨q₁, v₁, he₁, hv₁, hmem₁, -⟩ := exec_carry_of_dependable hw hp hd (past ++ [b])
    have hstep : (r.narrow b).exec v.session = (.ok q₁, v₁.session) := by
      rw [← he₁, carry_concat, Run.exec_bind_ok he]
    rw [← List.singleton_append, ← List.append_assoc] at hb
    obtain ⟨q, t, hqt, ht⟩ := ih hb hv₁ hmem₁ he₁
    refine ⟨q, t, ?_, ?_⟩
    · rw [carry, List.foldlM_cons, Run.exec_bind_ok hstep]
      exact hqt
    · have ho := outline_of_carry hw hp he
      have hsub : r.outline.recipes ⊆ p.outline.recipes := by
        rw [ho]
        exact Outline.gathers_recipes.remnant_subset (p.remnant_remains _)
      have hnow : r.outline.expired b = p.noticesAt past b := by
        rw [ho, expired_remains, noticesAt]
        congr 1
        apply List.filter_congr
        intro x hx
        exact stays_and_spent_eq_lapses (hw.founded_parts hp) (List.pairwise_append.1 hb).1 hx
      rw [ht, reports (hq.mono hsub) hv hmem hstep, hnow, notices, Journal.writeAll_append]

/-- Along a forward scan what drops out by its own expiry is written down, and nothing else:
boundary by boundary, and at each boundary from left to right. Nothing is written down for a derived
rule that goes because nothing is left of its source, or for what is in the source of one that has
expired, and nothing is written down twice. -/
theorem carry_notices (hw : w.Reached) (hp : p ∈ w.rules) (hd : p.outline.Dependable)
    (hq : p.outline.Reticent) {bs : List Boundary} (hb : bs.Pairwise Boundary.NotAfter) :
    ∃ q t, (p.carry bs).exec w.session = (.ok q, t) ∧
      t.journal = w.session.journal.writeAll (p.notices [] bs) ∧
      (w.session.journal.threshold = .trace →
        t.journal.entries.toList = w.session.journal.entries.toList ++ p.notices [] bs) ∧
      ∀ x ∈ p.places, ∀ {past later : List Boundary} {b c : Boundary}, x.lapses past b = true →
        x.lapses (past ++ b :: later) c = false := by
  have hscan : ([] ++ bs).Pairwise Boundary.NotAfter := hb
  obtain ⟨q, t, he, ht⟩ := exec_carry_writes hw hp hd hq hscan hw hp rfl
  refine ⟨q, t, he, ht, fun hthreshold => ?_, fun _ _ _ _ _ _ => Place.lapses_once⟩
  rw [ht]
  apply Journal.entries_writeAll
  intro e _
  rw [Journal.keeps, hthreshold]
  exact decide_eq_true (Nat.zero_le _)

end Rule

namespace Scenario

def briefCopy : Rule Tally Method := .derived 10 brief .answer brief.answer ⟨.on, 80⟩ "copy"

def copied : Rule Tally Method :=
  .seq 11 (briefCopy.answer.followedBy guarded.answer) briefCopy guarded

def tracing : Bench Tally Method :=
  ⟨⟨12, { threshold := .trace }, {}⟩, copied :: briefCopy :: workbench.rules⟩

theorem tracing_reached : tracing.Reached := by
  have h := workbench_reached.pass (s := ⟨10, { threshold := .trace }, {}⟩) (Nat.le_refl _)
  have h := h.make (r := briefCopy) (s := ⟨11, { threshold := .trace }, {}⟩)
    (.derived brief ⟨.on, 80⟩ (some .answer) "copy") (by simp [workbench]) rfl
  exact h.make (r := copied) (s := ⟨12, { threshold := .trace }, {}⟩) (.seq briefCopy guarded)
    (by simp [workbench]) rfl

def closing : Boundary := ⟨⟨"z", 16, 85⟩, ⟨"", 95, 95⟩, 5⟩

theorem copied_carry_notices :
    tracing.Reached ∧ copied ∈ tracing.rules ∧ copied.outline.Dependable ∧
      copied.outline.Reticent ∧
      [early, pastBrief, pastMirror, closing].Pairwise Boundary.NotAfter ∧
      ∃ q t, (copied.carry [early, pastBrief, pastMirror, closing]).exec tracing.session =
          (.ok q, t) ∧
        t.journal.entries.toList =
          [⟨.trace, "expired brief>10 at boundary 3 ('x' 'y')"⟩,
            ⟨.trace, "expired brief>10 at boundary 3 ('x' 'y')"⟩,
            ⟨.trace, "expired mirror@80 at boundary 4 ('y' 'z')"⟩,
            ⟨.trace, "expired joined@90 at boundary 5 ('z' '')"⟩] := by
  have hmem : copied ∈ tracing.rules := by simp [tracing]
  have hg : ∀ g ∈ copied.outline.recipes, g = .answer := by
    simp [copied, briefCopy, guarded, mirror, whole, opening, brief, joined, broken, Rule.outline,
      Outline.recipes]
  have hd : copied.outline.Dependable := wellBehaved_answer.dependable hg
  have hq : copied.outline.Reticent := by
    intro g hmem _ _ _ _ _ _
    rw [hg g hmem]
    rfl
  have hb : [early, pastBrief, pastMirror, closing].Pairwise Boundary.NotAfter := by decide
  obtain ⟨q, t, he, -, ht, -⟩ := Rule.carry_notices tracing_reached hmem hd hq hb
  refine ⟨tracing_reached, hmem, hd, hq, hb, q, t, he, (ht rfl).trans ?_⟩
  decide +kernel

end Scenario

end LayoutRules
