import LayoutRules.Proofs.Answers
import LayoutRules.Proofs.Places

namespace LayoutRules

variable {σ φ : Type}

def Run.Determinate {α : Type} (x : Run σ α) : Prop := ∀ s t, (x.exec s).1 = (x.exec t).1

theorem Run.Determinate.bind {α β : Type} {x : Run σ α} {f : α → Run σ β} (hx : x.Determinate)
    (hf : ∀ a, (f a).Determinate) : (x >>= f).Determinate := by
  intro s t
  have h := hx s t
  rw [exec_bind, exec_bind]
  cases hs : x.exec s with
  | mk a u =>
    cases ht : x.exec t with
    | mk b v =>
      rw [hs, ht] at h
      obtain rfl : a = b := h
      cases a with
      | error e => rfl
      | ok a => exact hf a u v

namespace Override

/-- An override that is a function of the choice as far as its answers and faults go. It may have
effects. -/
def Determinate (f : Override σ) : Prop := ∀ c, (f c).Determinate

variable {f g : Override σ}

theorem Pure.determinate (hf : f.Pure) : f.Determinate := by
  intro c s t
  obtain ⟨a, ha⟩ := hf c
  obtain ⟨n, hn⟩ := ha s
  obtain ⟨m, hm⟩ := ha t
  rw [hn, hm]

theorem determinate_failing (e : Fault) : (failing e : Override σ).Determinate := fun _ _ _ => rfl

theorem Determinate.followedBy (hf : f.Determinate) (hg : g.Determinate) :
    (f.followedBy g).Determinate :=
  fun c => (hf c).bind fun _ => (hg _).bind fun _ _ _ => rfl

theorem Determinate.otherwise (hf : f.Determinate) (hg : g.Determinate) :
    (f.otherwise g).Determinate := by
  intro c
  refine (hf c).bind fun a => ?_
  cases a with
  | none => exact hg c
  | some cs => exact fun _ _ => rfl

end Override

/-- A clause, and what has its say before it: the first parts of the wholes that have it in their
second parts, the outermost whole first. A derived rule counts as a clause, for its override is its
own. -/
structure Turn (σ φ : Type) where
  clause : Clause σ φ
  behind : List (Connective × Rule σ φ) := []

def Turn.back (k : Connective) (p : Rule σ φ) (x : Turn σ φ) : Turn σ φ :=
  { x with behind := (k, p) :: x.behind }

/-- The choice as it is once it has come past these, if it does. In a sequence it comes past the
first part with the candidates that this leaves open. It comes to an alternative only if the first
part has no answer, and then it is as it was. -/
def Choice.past (s : Session σ) : List (Connective × Rule σ φ) → Choice → Option Choice
  | [], c => some c
  | (.seq, p) :: xs, c =>
    match ((p.resolve c).exec s).1 with
    | .ok cs => (c.withCandidates cs).past s xs
    | .error _ => none
  | (.alt, p) :: xs, c =>
    match ((p.answer c).exec s).1 with
    | .ok none => c.past s xs
    | .ok (some _) => none
    | .error _ => none

/-- From one session to another by calls of overrides, one after the other, and by nothing else. A
call that fails is the last. -/
inductive Asked : Session σ → List (Override σ × Choice) → Option Fault → Session σ → Prop
  | done (s : Session σ) : Asked s [] none s
  | answered {s t u : Session σ} {f : Override σ} {c : Choice} {a : Option (List Candidate)}
      {calls : List (Override σ × Choice)} {fault : Option Fault} (h : (f c).exec s = (.ok a, u))
      (hr : Asked u calls fault t) : Asked s ((f, c) :: calls) fault t
  | failed {s t : Session σ} {f : Override σ} {c : Choice} {e : Fault}
      (h : (f c).exec s = (.error e, t)) : Asked s [(f, c)] (some e) t

theorem Asked.append {s t u : Session σ} {xs ys : List (Override σ × Choice)}
    {fault : Option Fault} (h : Asked s xs none u) (k : Asked u ys fault t) :
    Asked s (xs ++ ys) fault t := by
  generalize hn : (none : Option Fault) = none' at h
  induction h with
  | done => exact k
  | answered h _ ih => exact .answered h (ih k hn)
  | failed => cases hn

def Fault.of? {α : Type} : Except Fault α → Option Fault
  | .ok _ => none
  | .error e => some e

namespace Choice

variable {s : Session σ} {c d : Choice} {p : Rule σ φ}

theorem past_cons (s : Session σ) (k : Connective) (p : Rule σ φ)
    (xs : List (Connective × Rule σ φ)) (c : Choice) :
    c.past s ((k, p) :: xs) = (c.past s [(k, p)]).bind fun d => d.past s xs := by
  cases k with
  | seq =>
    simp only [past]
    split <;> rfl
  | alt =>
    simp only [past]
    split <;> rfl

theorem past_seq_of_ok {a : Option (List Candidate)} (h : ((p.answer c).exec s).1 = .ok a) :
    c.past s [(.seq, p)] = some (c.withCandidates (a.getD c.candidates)) := by
  have hresolve : ((p.resolve c).exec s).1 = .ok (a.getD c.candidates) := by
    rw [Rule.resolve, Run.exec_bind_ok (Prod.ext h rfl)]
    rfl
  simp only [past, hresolve]

theorem past_seq_of_error {e : Fault} (h : ((p.answer c).exec s).1 = .error e) :
    c.past s [(.seq, p)] = none := by
  have hresolve : ((p.resolve c).exec s).1 = .error e := by
    rw [Rule.resolve, Run.exec_bind_error (Prod.ext h rfl)]
  simp only [past, hresolve]

theorem past_alt_of_none (h : ((p.answer c).exec s).1 = .ok none) :
    c.past s [(.alt, p)] = some c := by
  simp only [past, h]

theorem past_alt_of_ne (h : ((p.answer c).exec s).1 ≠ .ok none) : c.past s [(.alt, p)] = none := by
  rw [past]
  split
  · rename_i hnone
    exact absurd hnone h
  · rfl
  · rfl

theorem boundary_of_past {xs : List (Connective × Rule σ φ)} (h : c.past s xs = some d) :
    d.boundary = c.boundary := by
  induction xs generalizing c with
  | nil =>
    obtain rfl := Option.some.inj h
    rfl
  | cons x xs ih =>
    obtain ⟨k, p⟩ := x
    cases k with
    | seq =>
      rw [past] at h
      split at h
      · exact (ih h).trans (boundary_withCandidates c _)
      · cases h
    | alt =>
      rw [past] at h
      split at h
      · exact ih h
      · cases h
      · cases h

end Choice

namespace Rule

/-- The clauses that may be asked, from left to right. -/
def turns : Rule σ φ → List (Turn σ φ)
  | .empty => []
  | .clause n body expiry blocking label =>
    [{ clause := ⟨.clause n body expiry blocking label, label, expiry, false⟩ }]
  | .seq _ _ p q => p.turns ++ q.turns.map (.back .seq p)
  | .alt _ _ p q => p.turns ++ q.turns.map (.back .alt p)
  | .derived n source recipe body expiry label =>
    [{ clause := ⟨.derived n source recipe body expiry label, label, expiry, true⟩ }]

/-- The clauses to which the choice comes, each with the choice as it then is. -/
def calls (r : Rule σ φ) (s : Session σ) (c : Choice) : List (Turn σ φ × Choice) :=
  r.turns.filterMap fun x => (c.past s x.behind).map fun d => (x, d)

/-- The overrides that are to be called, and with what. -/
def asks (r : Rule σ φ) (s : Session σ) (c : Choice) : List (Override σ × Choice) :=
  (r.calls s c).map fun x => (x.1.clause.rule.answer, x.2)

variable {p q r : Rule σ φ} {s : Session σ} {c : Choice}

theorem map_fst_calls (r : Rule σ φ) (s : Session σ) (c : Choice) :
    (r.calls s c).map Prod.fst = r.turns.filter fun x => (c.past s x.behind).isSome := by
  rw [calls, List.map_filterMap, ← List.filterMap_eq_filter]
  congr 1
  funext x
  cases h : c.past s x.behind <;> simp [Option.guard, h]

theorem asks_of_turns {k : Connective} (hr : r.turns = p.turns ++ q.turns.map (.back k p)) :
    r.asks s c = p.asks s c ++ (c.past s [(k, p)]).elim [] (q.asks s) := by
  rw [asks, calls, hr, List.filterMap_append, List.map_append, List.filterMap_map]
  congr 1
  have hback : ∀ x : Turn σ φ, c.past s (x.back k p).behind =
      (c.past s [(k, p)]).bind fun d => d.past s x.behind :=
    fun x => Choice.past_cons s k p x.behind c
  simp only [Function.comp_def, hback]
  cases c.past s [(k, p)] with
  | none => simp
  | some d => simp [asks, calls, List.map_filterMap, Turn.back, Function.comp_def]

section

variable {s₀ t : Session σ} {a : Except Fault (Option (List Candidate))}

theorem asked_of_seq (hr : r.turns = p.turns ++ q.turns.map (.back .seq p))
    (hd : p.answer.Determinate)
    (ihp : ∀ {a u}, (p.answer c).exec s = (a, u) → Asked s (p.asks s₀ c) (Fault.of? a) u)
    (ihq : ∀ {d u a v}, (q.answer d).exec u = (a, v) → Asked u (q.asks s₀ d) (Fault.of? a) v)
    (he : ((p.answer.followedBy q.answer) c).exec s = (a, t)) :
    Asked s (r.asks s₀ c) (Fault.of? a) t := by
  rw [asks_of_turns hr]
  cases hp : (p.answer c).exec s with
  | mk a₁ u =>
    -- What the first part answers now is what it was told to answer.
    have h₀ : ((p.answer c).exec s₀).1 = a₁ := by
      rw [hd c s₀ s, hp]
    cases a₁ with
    | error e =>
      cases (Run.exec_bind_error hp).symm.trans he
      rw [Choice.past_seq_of_error h₀, Option.elim_none, List.append_nil]
      exact ihp hp
    | ok a₁ =>
      have hrest := (Run.exec_bind_ok hp).symm.trans he
      rw [Choice.past_seq_of_ok h₀]
      apply (ihp hp).append
      cases hq : (q.answer (c.withCandidates (a₁.getD c.candidates))).exec u with
      | mk a₂ v =>
        have hsecond := ihq hq
        cases a₂ with
        | error e =>
          cases (Run.exec_bind_error hq).symm.trans hrest
          exact hsecond
        | ok a₂ =>
          cases (Run.exec_bind_ok hq).symm.trans hrest
          exact hsecond

theorem asked_of_alt (hr : r.turns = p.turns ++ q.turns.map (.back .alt p))
    (hd : p.answer.Determinate)
    (ihp : ∀ {a u}, (p.answer c).exec s = (a, u) → Asked s (p.asks s₀ c) (Fault.of? a) u)
    (ihq : ∀ {u a v}, (q.answer c).exec u = (a, v) → Asked u (q.asks s₀ c) (Fault.of? a) v)
    (he : ((p.answer.otherwise q.answer) c).exec s = (a, t)) :
    Asked s (r.asks s₀ c) (Fault.of? a) t := by
  rw [asks_of_turns hr]
  cases hp : (p.answer c).exec s with
  | mk a₁ u =>
    have h₀ : ((p.answer c).exec s₀).1 = a₁ := by
      rw [hd c s₀ s, hp]
    cases a₁ with
    | error e =>
      cases (Run.exec_bind_error hp).symm.trans he
      rw [Choice.past_alt_of_ne (by simp [h₀]), Option.elim_none, List.append_nil]
      exact ihp hp
    | ok a₁ =>
      cases a₁ with
      | some cs =>
        cases (Run.exec_bind_ok hp).symm.trans he
        rw [Choice.past_alt_of_ne (by simp [h₀]), Option.elim_none, List.append_nil]
        exact ihp hp
      | none =>
        rw [Choice.past_alt_of_none h₀]
        exact (ihp hp).append (ihq ((Run.exec_bind_ok hp).symm.trans he))

end

theorem map_clause_turns (hr : r.outline.recipes = []) :
    r.turns.map Turn.clause = r.leaves.map Place.clause := by
  have hback : ∀ k (p : Rule σ φ), Turn.clause ∘ Turn.back k p = Turn.clause := fun _ _ => rfl
  induction r with
  | empty | clause => rfl
  | seq n body p q ihp ihq | alt n body p q ihp ihq =>
    obtain ⟨hrp, hrq⟩ := List.append_eq_nil_iff.1 hr
    simp only [turns, leaves_seq, leaves_alt, List.map_append, List.map_map, hback, ihp hrp,
      ihq hrq]
  | derived => exact absurd hr (List.cons_ne_nil _ _)

variable [Recipe φ σ]

theorem determinate_answer (hf : ∀ p ∈ r.parts, p.Founded)
    (hd : ∀ f ∈ r.overrides, f.Determinate) : r.answer.Determinate := by
  induction r with
  | empty => exact fun _ _ _ => rfl
  | clause n body | derived n source recipe body => exact hd body (List.mem_singleton_self _)
  | seq n body p q ihp ihq =>
    simp only [parts, List.forall_mem_cons, List.forall_mem_append] at hf
    simp only [overrides, List.forall_mem_append] at hd
    obtain ⟨⟨_, _, rfl⟩, hfp, hfq⟩ := hf
    exact (ihp hfp hd.1).followedBy (ihq hfq hd.2)
  | alt n body p q ihp ihq =>
    simp only [parts, List.forall_mem_cons, List.forall_mem_append] at hf
    simp only [overrides, List.forall_mem_append] at hd
    obtain ⟨⟨_, _, rfl⟩, hfp, hfq⟩ := hf
    exact (ihp hfp hd.1).otherwise (ihq hfq hd.2)

omit [Recipe φ σ] in
theorem asked_of_body {t u : Session σ} {f : Override σ}
    {a : Except Fault (Option (List Candidate))} (h : (f c).exec t = (a, u)) :
    Asked t [(f, c)] (Fault.of? a) u := by
  cases a with
  | ok a => exact .answered h (.done u)
  | error e => exact .failed h

theorem asked_of_exec (s₀ : Session σ) (hf : ∀ p ∈ r.parts, p.Founded)
    (hd : ∀ f ∈ r.overrides, f.Determinate) {c : Choice} {s t : Session σ}
    {a : Except Fault (Option (List Candidate))} (he : (r.answer c).exec s = (a, t)) :
    Asked s (r.asks s₀ c) (Fault.of? a) t := by
  induction r generalizing c s t a with
  | empty =>
    cases he
    exact .done s
  | clause n body expiry blocking label => exact asked_of_body he
  | derived n source recipe body expiry label => exact asked_of_body he
  | seq n body p q ihp ihq =>
    simp only [parts, List.forall_mem_cons, List.forall_mem_append] at hf
    simp only [overrides, List.forall_mem_append] at hd
    obtain ⟨⟨_, _, rfl⟩, hfp, hfq⟩ := hf
    exact asked_of_seq rfl (determinate_answer hfp hd.1) (ihp hfp hd.1) (ihq hfq hd.2) he
  | alt n body p q ihp ihq =>
    simp only [parts, List.forall_mem_cons, List.forall_mem_append] at hf
    simp only [overrides, List.forall_mem_append] at hd
    obtain ⟨⟨_, _, rfl⟩, hfp, hfq⟩ := hf
    exact asked_of_alt rfl (determinate_answer hfp hd.1) (ihp hfp hd.1) (ihq hfq hd.2) he

/-- If the answers of overrides depend on nothing but the choice, then a rule calls the overrides of
those clauses to which the choice comes, and each on the choice as it comes there. It calls them
from left to right, and none again. The first call that fails is the last, and is what the whole
fails with. -/
theorem asks_in_turn {w : Bench σ φ} (hw : w.Reached) (hp : p ∈ w.rules)
    (hd : ∀ f ∈ p.overrides, f.Determinate) (s₀ s : Session σ) (c : Choice) :
    Asked s (p.asks s₀ c) (Fault.of? ((p.answer c).exec s).1) ((p.answer c).exec s).2 ∧
      (p.calls s₀ c).map Prod.fst = p.turns.filter (fun x => (c.past s₀ x.behind).isSome) ∧
      (∀ x ∈ p.calls s₀ c, c.past s₀ x.1.behind = some x.2 ∧ x.2.boundary = c.boundary) ∧
      (p.outline.recipes = [] → p.turns.map Turn.clause = p.leaves.map Place.clause) := by
  refine ⟨asked_of_exec s₀ (hw.founded_parts hp) hd rfl, map_fst_calls p s₀ c, fun x hx => ?_,
    map_clause_turns⟩
  obtain ⟨y, _, hy⟩ := List.mem_filterMap.1 hx
  obtain ⟨d, hd, rfl⟩ := Option.map_eq_some_iff.1 hy
  exact ⟨hd, Choice.boundary_of_past hd⟩

end Rule

namespace Scenario

theorem determinate_recorded (id : Text) {f : Override Tally} (hf : f.Determinate) :
    (recordedOverride id f).Determinate :=
  fun c => Run.Determinate.bind (fun _ _ => rfl) fun _ => hf c

/-! A detour by a clause that has no answer leads to one that has. What this leaves open comes to a
clause that fails, and so nothing comes to the last one. -/

def hollow : Rule Tally Method :=
  .clause 10 (recordedOverride "hollow" Override.undefined) ⟨.on, 90⟩ false "hollow"

def trimming : Rule Tally Method :=
  .clause 11 (recordedOverride "trimming" Override.newlines) ⟨.on, 90⟩ false "trimming"

def brittle : Rule Tally Method :=
  .clause 12 (recordedOverride "brittle" (.failing (.raised "lost"))) ⟨.on, 90⟩ false "brittle"

def detour : Rule Tally Method := .alt 13 (hollow.answer.otherwise trimming.answer) hollow trimming

def descent : Rule Tally Method := .seq 14 (brittle.answer.followedBy joined.answer) brittle joined

def passage : Rule Tally Method := .seq 15 (detour.answer.followedBy descent.answer) detour descent

def passageBench : Bench Tally Method :=
  ⟨⟨16, {}, {}⟩, [passage, descent, detour, brittle, trimming, hollow] ++ workbench.rules⟩

theorem passageBench_reached : passageBench.Reached := by
  have h := workbench_reached.make (r := hollow) (s := ⟨11, {}, {}⟩)
    (.clause ⟨.on, 90⟩ (some (recordedOverride "hollow" .undefined)) "hollow" false) (by simp) rfl
  have h := h.make (r := trimming) (s := ⟨12, {}, {}⟩)
    (.clause ⟨.on, 90⟩ (some (recordedOverride "trimming" .newlines)) "trimming" false) (by simp)
    rfl
  have h := h.make (r := brittle) (s := ⟨13, {}, {}⟩) (.clause ⟨.on, 90⟩
    (some (recordedOverride "brittle" (.failing (.raised "lost")))) "brittle" false) (by simp) rfl
  have h := h.make (r := detour) (s := ⟨14, {}, {}⟩) (.alt hollow trimming) (by simp) rfl
  have h := h.make (r := descent) (s := ⟨15, {}, {}⟩) (.seq brittle joined)
    (by simp [workbench]) rfl
  exact h.make (r := passage) (s := ⟨16, {}, {}⟩) (.seq detour descent) (by simp) rfl

def trimmed : Choice := finale.withCandidates [{ gap := .newline, cost := 4 }]

theorem passage_asks_in_turn :
    passageBench.Reached ∧ passage ∈ passageBench.rules ∧
      (∀ f ∈ passage.overrides, f.Determinate) ∧ passage.outline.recipes = [] ∧
      passage.turns.map (fun x => x.clause.label) =
        (["hollow", "trimming", "brittle", "joined"] : List Text) ∧
      (passage.calls passageBench.session finale).map (fun x => (x.1.clause.label, x.2)) =
        ([("hollow", finale), ("trimming", finale), ("brittle", trimmed)] : List (Text × Choice)) ∧
      ∃ t, Asked passageBench.session (passage.asks passageBench.session finale)
          (some (.raised "lost")) t ∧
        (passage.answer finale).exec passageBench.session = (.error (.raised "lost"), t) ∧
        t.client.events = #[.override "hollow" 4 finale.candidates,
          .override "trimming" 4 finale.candidates, .override "brittle" 4 trimmed.candidates] := by
  have hmem : passage ∈ passageBench.rules := by simp [passageBench]
  have hd : ∀ f ∈ passage.overrides, f.Determinate := by
    simp [passage, detour, descent, hollow, trimming, brittle, joined, Rule.overrides,
      Override.newlines, Override.nonNewlines, determinate_recorded, Override.determinate_failing,
      Override.pure_undefined.determinate, (Override.pure_total _).determinate]
  obtain ⟨hasked, _⟩ :=
    Rule.asks_in_turn passageBench_reached hmem hd passageBench.session passageBench.session finale
  exact ⟨passageBench_reached, hmem, hd, rfl, rfl, rfl, _, hasked, rfl, rfl⟩

end Scenario

end LayoutRules
