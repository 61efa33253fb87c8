import LayoutRules.Proofs.Calls
import LayoutRules.Proofs.Journey
import LayoutRules.Proofs.Steadiness
import Mathlib.Data.List.Forall2

namespace LayoutRules

variable {σ φ : Type}

namespace Override

def Total (f : Override σ) : Prop := ∀ c, f c = some <$> f.resolve c

variable {f g : Override σ}

theorem total_followedBy (f g : Override σ) : (f.followedBy g).Total := by
  intro c
  rw [resolve_followedBy]
  simp only [resolve, followedBy, bind_assoc, pure_bind, map_bind, map_pure,
    Choice.candidates_withCandidates]

theorem Total.otherwise_eq (h : f.Total) (g : Override σ) : f.otherwise g = f := by
  funext c
  rw [Override.otherwise, h c, bind_map_left]
  exact (map_eq_pure_bind _ _).symm

theorem resolve_foldl_followedBy (f : Override σ) (fs : List (Override σ)) (c : Choice) :
    (fs.foldl followedBy f).resolve c =
      (f :: fs).foldlM (fun kept g => g.resolve (c.withCandidates kept)) c.candidates := by
  induction fs generalizing f with
  | nil => simp
  | cons g fs ih =>
    rw [List.foldl_cons, ih]
    simp only [List.foldlM_cons, Choice.withCandidates_candidates, resolve_followedBy, bind_assoc]

theorem Total.foldl_followedBy (h : f.Total) (fs : List (Override σ)) :
    (fs.foldl followedBy f).Total := by
  induction fs generalizing f with
  | nil => exact h
  | cons g fs ih => exact ih (total_followedBy f g)

end Override

namespace Rule

/-- The candidates at a choice if these rules are in force there in turn, with one more rule to fall
back on. With two rules or more there is no falling back, even if none of them answers. A single
rule falls back where it has no answer. -/
def consult (fallback : Rule σ φ) (c : Choice) : List (Rule σ φ) → Run σ (List Candidate)
  | [] => fallback.resolve c
  | [r] => do
    match ← r.answer c with
    | some cs => return cs
    | none => fallback.resolve c
  | rs => rs.foldlM (fun kept r => r.resolve (c.withCandidates kept)) c.candidates

theorem foldl_merge_override? (rs : List (Rule σ φ)) (x : Option (Override σ)) :
    (rs.map override?).foldl Connective.seq.merge x =
      ((rs.filter fun r => !r.isEmpty).map fun r => some r.answer).foldl
        Connective.seq.merge x := by
  induction rs generalizing x with
  | nil => rfl
  | cons r rs ih =>
    rw [List.map_cons, List.foldl_cons, ih]
    by_cases hr : r = .empty
    · subst hr
      cases x <;> rfl
    · have hne : r.isEmpty = false := Bool.eq_false_iff.2 (mt isEmpty_iff.1 hr)
      rw [override?_of_ne hr, List.filter_cons_of_pos (by simp [hne])]
      rfl

theorem foldl_merge_some (f : Override σ) (rs : List (Rule σ φ)) :
    (rs.map fun r => some r.answer).foldl Connective.seq.merge (some f) =
      some ((rs.map answer).foldl Override.followedBy f) := by
  induction rs generalizing f with
  | nil => rfl
  | cons r rs ih => exact ih (f.followedBy r.answer)

theorem resolve_eq_of_override? {p q : Rule σ φ} (h : p.override? = q.override?) (c : Choice) :
    p.resolve c = q.resolve c := by
  rw [resolve, resolve, answer_eq_getD, answer_eq_getD, h]

theorem resolve_of_override? {r : Rule σ φ} {f : Override σ} (h : r.override? = some f)
    (c : Choice) : r.resolve c = f.resolve c := by
  rw [resolve, answer_eq_getD, h]
  rfl

theorem resolve_eq_consult {q fallback : Rule σ φ} {rs : List (Rule σ φ)}
    (h : q.override? = Connective.alt.merge
      ((rs.map override?).foldl Connective.seq.merge none) fallback.override?) (c : Choice) :
    q.resolve c = fallback.consult c (rs.filter fun r => !r.isEmpty) := by
  rw [foldl_merge_override?] at h
  generalize (rs.filter fun r => !r.isEmpty) = alive at h ⊢
  match alive with
  | [] =>
    refine resolve_eq_of_override? (h.trans ?_) c
    cases fallback.override? <;> rfl
  | [r] =>
    by_cases hf : fallback = .empty
    · subst hf
      rw [resolve_of_override? (f := r.answer) h]
      simp only [consult, Override.resolve, resolve_empty]
      congr 1
      funext a
      cases a <;> rfl
    · rw [override?_of_ne hf] at h
      rw [resolve_of_override? (f := r.answer.otherwise fallback.answer) h,
        Override.resolve_otherwise]
      rfl
  | r :: r' :: rs =>
    -- Two rules in turn always answer, and so the fallback is out of the question.
    have htotal : ((rs.map answer).foldl Override.followedBy
        (r.answer.followedBy r'.answer)).Total :=
      (Override.total_followedBy _ _).foldl_followedBy _
    have hq : q.override? =
        some ((rs.map answer).foldl Override.followedBy (r.answer.followedBy r'.answer)) := by
      refine h.trans ?_
      show Connective.alt.merge ((rs.map fun r => some r.answer).foldl Connective.seq.merge
        (some (r.answer.followedBy r'.answer))) _ = _
      rw [foldl_merge_some]
      cases fallback.override? with
      | none => rfl
      | some g => exact congrArg some (htotal.otherwise_eq g)
    rw [resolve_of_override? hq]
    show ((r'.answer :: rs.map answer).foldl Override.followedBy r.answer).resolve c = _
    rw [Override.resolve_foldl_followedBy, ← List.map_cons, ← List.map_cons, List.foldlM_map]
    rfl

variable [Recipe φ σ] {rs : List (Rule σ φ)} {n : Nat} {b : Boundary}

def narrowAll (rs : List (Rule σ φ)) (b : Boundary) : Run σ (List (Rule σ φ)) :=
  rs.mapM fun r => r.narrow b

theorem narrowAll_cons (r : Rule σ φ) (rs : List (Rule σ φ)) (b : Boundary) :
    narrowAll (r :: rs) b = (do
      let q ← r.narrow b
      let ss ← narrowAll rs b
      return q :: ss) :=
  List.mapM_cons

theorem exec_narrowAll {xs : List (Option (Override σ))}
    (h : List.Forall₂ (fun r x => r.Leaves n b x) rs xs) {s : Session σ} (hs : n ≤ s.nextSerial) :
    ∃ ss t, (narrowAll rs b).exec s = (.ok ss, t) ∧ n ≤ t.nextSerial ∧
      ss.map override? = xs := by
  induction h generalizing s with
  | nil => exact ⟨[], s, rfl, hs, rfl⟩
  | @cons r x rs xs hr _ ih =>
    obtain ⟨q, t, hq, hx⟩ := hr s hs
    obtain ⟨ss, u, hss, hu, hxs⟩ := ih (Nat.le_trans hs (Run.nextSerial_le_of_exec hq))
    refine ⟨q :: ss, u, ?_, hu, by rw [List.map_cons, hx, hxs]⟩
    rw [narrowAll_cons, Run.exec_bind_ok hq, Run.exec_bind_ok hss]
    rfl

theorem exists_forall₂_leaves {w : Bench σ φ} (hw : w.Reached)
    (hrs : ∀ r ∈ rs, r ∈ w.rules ∧ r.Steady w.session.nextSerial) (b : Boundary) :
    ∃ xs, List.Forall₂ (fun r x => r.Leaves w.session.nextSerial b x) rs xs ∧
      ∀ x ∈ xs, ∀ f ∈ x, f.Pure := by
  induction rs with
  | nil => exact ⟨[], .nil, List.forall_mem_nil _⟩
  | cons r rs ih =>
    rw [List.forall_mem_cons] at hrs
    obtain ⟨⟨hr, hs⟩, hrest⟩ := hrs
    obtain ⟨x, hx, hpx⟩ := exists_leaves hw hr hs b
    obtain ⟨xs, hxs, hpxs⟩ := ih hrest
    exact ⟨x :: xs, .cons hx hxs, List.forall_mem_cons.2 ⟨hpx, hpxs⟩⟩

omit [Recipe φ σ] in
theorem pure_of_mem_foldl_merge (k : Connective) {xs : List (Option (Override σ))}
    (hxs : ∀ x ∈ xs, ∀ f ∈ x, f.Pure) {x : Option (Override σ)} (hx : ∀ f ∈ x, f.Pure) :
    ∀ f ∈ xs.foldl k.merge x, f.Pure := by
  induction xs generalizing x with
  | nil => exact hx
  | cons y ys ih =>
    rw [List.forall_mem_cons] at hxs
    exact ih hxs.2 (pure_of_mem_merge k hx hxs.1)

omit [Recipe φ σ] in
theorem pure_answer_of_override? {r : Rule σ φ} (h : ∀ f ∈ r.override?, f.Pure) :
    r.answer.Pure := by
  rw [answer_eq_getD]
  cases hr : r.override? with
  | none => exact Override.pure_undefined
  | some f => exact h f hr

end Rule

variable [Recipe φ σ] {w : Bench σ φ}

namespace Trail

variable {t : Trail σ φ} {r : Rule σ φ} {rs : List (Rule σ φ)}

def attachAll (t : Trail σ φ) (rs : List (Rule σ φ)) : Run σ (Trail σ φ) :=
  rs.foldlM attach t

theorem exec_attach_narrowedBy (hw : w.Reached) (ht : t.rule ∈ w.rules) (hr : r ∈ w.rules) :
    ∃ t', ∃ v : Bench σ φ, (t.attach r).exec w.session = (.ok t', v.session) ∧ v.Reached ∧
      w.rules ⊆ v.rules ∧ t'.rule ∈ v.rules ∧ w.session.nextSerial ≤ v.session.nextSerial ∧
      Rule.NarrowedBy .seq t.rule r t'.rule v.session.nextSerial := by
  obtain ⟨q, v, hq, hv, hsub, hmem, hle, hn⟩ := Rule.exec_join_narrowedBy .seq hw ht hr
  obtain ⟨j, hj⟩ := exec_attach hq
  exact ⟨_, ⟨{ v.session with journal := j }, v.rules⟩, hj, hv.pass (Nat.le_refl _), hsub, hmem,
    hle, hn⟩

theorem exec_attachFallback_narrowedBy (hw : w.Reached) (ht : t.rule ∈ w.rules)
    (hr : r ∈ w.rules) :
    ∃ t' u, (t.attachFallback r).exec w.session = (.ok t', u) ∧
      w.session.nextSerial ≤ u.nextSerial ∧
      Rule.NarrowedBy .alt t.rule r t'.rule u.nextSerial := by
  obtain ⟨q, v, hq, _, _, _, hle, hn⟩ := Rule.exec_join_narrowedBy .alt hw ht hr
  obtain ⟨j, hj⟩ := exec_attachFallback hq
  exact ⟨_, _, hj, hle, hn⟩

theorem exec_attachAll_leaves (hw : w.Reached) (ht : t.rule ∈ w.rules)
    (hrs : ∀ r ∈ rs, r ∈ w.rules) :
    ∃ t', ∃ v : Bench σ φ, (t.attachAll rs).exec w.session = (.ok t', v.session) ∧ v.Reached ∧
      w.rules ⊆ v.rules ∧ t'.rule ∈ v.rules ∧ w.session.nextSerial ≤ v.session.nextSerial ∧
      ∀ {b x xs}, t.rule.Leaves w.session.nextSerial b x →
        List.Forall₂ (fun r x => r.Leaves w.session.nextSerial b x) rs xs →
        t'.rule.Leaves v.session.nextSerial b (xs.foldl Connective.seq.merge x) := by
  induction rs generalizing w t with
  | nil =>
    refine ⟨t, w, rfl, hw, List.Subset.refl _, ht, Nat.le_refl _, fun hx hxs => ?_⟩
    cases hxs
    exact hx
  | cons r rs ih =>
    rw [List.forall_mem_cons] at hrs
    obtain ⟨t₁, v₁, h₁, hv₁, hsub₁, ht₁, hle₁, hn⟩ := exec_attach_narrowedBy hw ht hrs.1
    obtain ⟨t₂, v₂, h₂, hv₂, hsub₂, ht₂, hle₂, hleaves⟩ :=
      ih hv₁ ht₁ fun r hr => hsub₁ (hrs.2 r hr)
    refine ⟨t₂, v₂, ?_, hv₂, List.Subset.trans hsub₁ hsub₂, ht₂, Nat.le_trans hle₁ hle₂, ?_⟩
    · rw [attachAll, List.foldlM_cons, Run.exec_bind_ok h₁]
      exact h₂
    · intro b x xs hx hxs
      cases hxs with
      | cons hr hrest =>
        rw [List.foldl_cons]
        exact hleaves (hn.leaves (hx.mono hle₁) (hr.mono hle₁)) (hrest.imp fun _ _ h => h.mono hle₁)

end Trail

/-- Rules are attached in turn to a trail that has none, and then one more to fall back on.
Candidates are found by what is left of each rule by itself, and the fallback is asked only if at
most one of these is left. But it is narrowed in any case, after the rules, and if this fails so
does the whole. If the fallback is steady as well, there are candidates, the same in any session. -/
theorem Trail.candidates_eq_consult {rs : List (Rule σ φ)} {fallback : Rule σ φ} (hw : w.Reached)
    (hrs : ∀ r ∈ rs, r ∈ w.rules ∧ r.Steady w.session.nextSerial) (hf : fallback ∈ w.rules) :
    ∃ t₁ s₁ t u₀, (({} : Trail σ φ).attachAll rs).exec w.session = (.ok t₁, s₁) ∧
      (t₁.attachFallback fallback).exec s₁ = (.ok t, u₀) ∧
      ∀ (c : Choice) (u v : Session σ), u₀.nextSerial ≤ u.nextSerial →
        w.session.nextSerial ≤ v.nextSerial →
        ∃ ss v₁ t₁' u₁, (Rule.narrowAll rs c.boundary).exec v = (.ok ss, v₁) ∧
          (t₁.narrow c.boundary).exec u = (.ok t₁', u₁) ∧
          (∀ e u₂, (fallback.narrow c.boundary).exec u₁ = (.error e, u₂) →
            (t.candidates c).exec u = (.error e, u₂)) ∧
          (∀ fallback' u₂, (fallback.narrow c.boundary).exec u₁ = (.ok fallback', u₂) →
            ∃ n, (t.candidates c).exec u =
              (fallback'.consult c (ss.filter fun s => !s.isEmpty)).exec
                { u₂ with nextSerial := n }) ∧
          (fallback.Steady w.session.nextSerial →
            ∃ fallback' v₂ cs, (fallback.narrow c.boundary).exec v₁ = (.ok fallback', v₂) ∧
              (∃ u₃, (t.candidates c).exec u = (.ok cs, u₃)) ∧
              ∀ s, ∃ s', (fallback'.consult c (ss.filter fun s => !s.isEmpty)).exec s =
                (.ok cs, s')) := by
  obtain ⟨t₁, w₁, h₁, hw₁, hsub, ht₁, hle₁, hleaves⟩ :=
    exec_attachAll_leaves (t := {}) hw hw.empty_mem fun r hr => (hrs r hr).1
  obtain ⟨t, u₀, ht, hle₀, hn⟩ := exec_attachFallback_narrowedBy hw₁ ht₁ (hsub hf)
  refine ⟨t₁, w₁.session, t, u₀, h₁, ht, fun c u v hu hv => ?_⟩
  obtain ⟨xs, hxs, hpxs⟩ := Rule.exists_forall₂_leaves hw hrs c.boundary
  have hempty : (.empty : Rule σ φ).Leaves w.session.nextSerial c.boundary none :=
    fun s _ => ⟨.empty, s, rfl, rfl⟩
  -- In the session u₁ the rules have been narrowed, and the turn is to the fallback.
  obtain ⟨p', u₁, hp', hpx⟩ := hleaves hempty hxs u (Nat.le_trans hle₀ hu)
  obtain ⟨ss, v₁, hss, hv₁, rfl⟩ := Rule.exec_narrowAll hxs hv
  have hconsult : ∀ fallback' u₂, (fallback.narrow c.boundary).exec u₁ = (.ok fallback', u₂) →
      ∃ (q : Rule σ φ) (n : Nat),
        (t.candidates c).exec u = (q.resolve c).exec { u₂ with nextSerial := n } ∧
        q.override? = Connective.alt.merge
          ((ss.map Rule.override?).foldl Connective.seq.merge none) fallback'.override? := by
    intro fallback' u₂ hfallback
    obtain ⟨q, n, hq, ho⟩ := hn.ok hu hp' hfallback
    exact ⟨q, n, Run.exec_bind_ok hq, by rw [ho, hpx]⟩
  refine ⟨ss, v₁, _, u₁, hss, exec_narrow hp', fun e u₂ he => ?_, fun fallback' u₂ hfallback => ?_,
    fun hs => ?_⟩
  · exact Run.exec_bind_error (hn.error hu hp' he)
  · obtain ⟨q, n, hcand, ho⟩ := hconsult fallback' u₂ hfallback
    exact ⟨n, by rw [hcand, Rule.resolve_eq_consult ho]⟩
  · obtain ⟨y, hy, hpy⟩ := Rule.exists_leaves hw hf hs c.boundary
    obtain ⟨fallback', v₂, hv₂, hoy⟩ := hy v₁ hv₁
    have hle := Run.nextSerial_le_of_exec hp'
    obtain ⟨fallback'', u₂, hu₂, hoy'⟩ := hy u₁ (by omega)
    obtain ⟨q, n, hcand, ho⟩ := hconsult fallback'' u₂ hu₂
    rw [hoy', ← hoy] at ho
    have hpure : q.answer.Pure := by
      refine Rule.pure_answer_of_override? ?_
      rw [ho, hoy]
      exact Rule.pure_of_mem_merge .alt (Rule.pure_of_mem_foldl_merge .seq hpxs (by simp)) hpy
    obtain ⟨cs, hcs⟩ := Rule.exec_resolve_of_pure hpure c
    rw [Rule.resolve_eq_consult ho] at hcs hcand
    exact ⟨fallback', v₂, cs, hv₂, hcand ▸ hcs _, hcs⟩

namespace Scenario

def hush : Rule Tally Method := .clause 10 Override.undefined ⟨.after, 10⟩ false "hush"

def calm : Rule Tally Method := .clause 11 Override.undefined ⟨.on, 90⟩ false "calm"

def calmCopy : Rule Tally Method := .derived 12 calm .answer calm.answer ⟨.on, 90⟩ "copy"

def lull : Bench Tally Method := ⟨⟨13, {}, {}⟩, calmCopy :: calm :: hush :: workbench.rules⟩

theorem lull_reached : lull.Reached := by
  have h := workbench_reached.make (r := hush) (s := ⟨11, {}, {}⟩)
    (.clause ⟨.after, 10⟩ (some Override.undefined) "hush" false) (by simp) rfl
  have h := h.make (r := calm) (s := ⟨12, {}, {}⟩)
    (.clause ⟨.on, 90⟩ (some Override.undefined) "calm" false) (by simp) rfl
  exact h.make (r := calmCopy) (s := ⟨13, {}, {}⟩)
    (.derived calm ⟨.on, 90⟩ (some .answer) "copy") (by simp) rfl

theorem steady_of_answer {w : Bench Tally Method} {r : Rule Tally Method} (hw : w.Reached)
    (hr : r ∈ w.rules) (hg : ∀ g ∈ r.outline.recipes, g = .answer)
    (hb : ∀ f ∈ r.outline.bodies, f.Pure) : r.Steady w.session.nextSerial :=
  Rule.steady_of_wellBehaved wellBehaved_answer keepsPure_answer hw hr hg hb

theorem lull_steady :
    ∀ r ∈ [hush, calmCopy, broken], r ∈ lull.rules ∧ r.Steady lull.session.nextSerial := by
  intro r hr
  have hmem : r ∈ lull.rules := by
    revert r
    simp [lull, workbench]
  have hb : ∀ f ∈ r.outline.bodies, f.Pure := by
    revert r
    simp [hush, calmCopy, calm, broken, Rule.outline, Outline.bodies,
      Override.pure_undefined, Override.newlines, Override.pure_total]
  have hg : ∀ g ∈ r.outline.recipes, g = .answer := by
    revert r
    simp [hush, calmCopy, calm, broken, Rule.outline, Outline.recipes]
  exact ⟨hmem, steady_of_answer lull_reached hmem hg hb⟩

theorem lull_candidates_eq_consult :
    lull.Reached ∧
      (∀ r ∈ [hush, calmCopy], r ∈ lull.rules ∧ r.Steady lull.session.nextSerial) ∧
      broken ∈ lull.rules ∧
      ∃ t₁ s₁ t u₀,
        (({} : Trail Tally Method).attachAll [hush, calmCopy]).exec lull.session = (.ok t₁, s₁) ∧
        (t₁.attachFallback broken).exec s₁ = (.ok t, u₀) ∧
        (∃ u, (t.candidates ⟨early, finale.candidates⟩).exec u₀ = (.ok finale.candidates, u)) ∧
        ∃ u, (t.candidates ⟨pastBrief, finale.candidates⟩).exec u₀ = (.ok finale.newlines, u) := by
  have hrs : ∀ r ∈ [hush, calmCopy], r ∈ lull.rules ∧ r.Steady lull.session.nextSerial :=
    fun r hr => lull_steady r (List.mem_append_left [broken] hr)
  obtain ⟨hbroken, hs⟩ := lull_steady broken (by simp)
  obtain ⟨t₁, s₁, t, u₀, ht₁, ht, h⟩ := Trail.candidates_eq_consult lull_reached hrs hbroken
  refine ⟨lull_reached, hrs, hbroken, t₁, s₁, t, u₀, ht₁, ht, ?_, ?_⟩
  · obtain ⟨ss, v₁, t₁', u₁, hss, -, -, -, hpure⟩ :=
      h ⟨early, finale.candidates⟩ u₀ lull.session (Nat.le_refl _) (Nat.le_refl _)
    obtain ⟨fallback', v₂, cs, hf, hcs, hconsult⟩ := hpure hs
    cases hss
    cases hf
    obtain ⟨s', hs'⟩ := hconsult lull.session
    cases hs'
    exact hcs
  · obtain ⟨ss, v₁, t₁', u₁, hss, -, -, -, hpure⟩ :=
      h ⟨pastBrief, finale.candidates⟩ u₀ lull.session (Nat.le_refl _) (Nat.le_refl _)
    obtain ⟨fallback', v₂, cs, hf, hcs, hconsult⟩ := hpure hs
    cases hss
    cases hf
    obtain ⟨s', hs'⟩ := hconsult lull.session
    cases hs'
    exact hcs

theorem lapsingBench_steady :
    ∀ r ∈ [joined, broken],
      r ∈ lapsingBench.rules ∧ r.Steady lapsingBench.session.nextSerial := by
  intro r hr
  have hmem : r ∈ lapsingBench.rules := by
    revert r
    simp [lapsingBench, workbench]
  have hg : ∀ g ∈ r.outline.recipes, g = .answer := by
    revert r
    simp [joined, broken, Rule.outline, Outline.recipes]
  have hb : ∀ f ∈ r.outline.bodies, f.Pure := by
    revert r
    simp [joined, broken, Rule.outline, Outline.bodies, Override.newlines, Override.nonNewlines,
      Override.pure_total]
  exact ⟨hmem, steady_of_answer lapsingBench_reached hmem hg hb⟩

/-- Two rules are left, which between them leave no candidate open. Yet it does not come to this,
for the fallback that need not be asked cannot be narrowed. -/
theorem lapsing_fallback_refused :
    lapsingBench.Reached ∧
      (∀ r ∈ [joined, broken],
        r ∈ lapsingBench.rules ∧ r.Steady lapsingBench.session.nextSerial) ∧
      lapsing ∈ lapsingBench.rules ∧
      ∃ t₁ s₁ t u₀,
        (({} : Trail Tally Method).attachAll [joined, broken]).exec lapsingBench.session =
          (.ok t₁, s₁) ∧
        (t₁.attachFallback lapsing).exec s₁ = (.ok t, u₀) ∧
        (Rule.narrowAll [joined, broken] pastBrief).exec u₀ = (.ok [joined, broken], u₀) ∧
        (∀ fallback : Rule Tally Method, (fallback.consult ⟨pastBrief, finale.candidates⟩
          [joined, broken]).exec u₀ = (.ok [], u₀)) ∧
        ∃ u, (t.candidates ⟨pastBrief, finale.candidates⟩).exec u₀ =
          (.error (.recipeWithoutOverride "lapsing"), u) :=
  ⟨lapsingBench_reached, lapsingBench_steady, by simp [lapsingBench], _, _, _, _, rfl, rfl, rfl,
    fun _ => rfl, _, rfl⟩

end Scenario

end LayoutRules
