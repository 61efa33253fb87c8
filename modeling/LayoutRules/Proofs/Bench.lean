import LayoutRules.Rule.Outline
import LayoutRules.Scenario.Method
import LayoutRules.Trail

namespace LayoutRules

variable {σ φ : Type}

namespace Rule

/-- A rule and all the rules that it is made of, at any depth. -/
def parts : Rule σ φ → List (Rule σ φ)
  | .empty => [.empty]
  | .clause n body expiry blocking label => [.clause n body expiry blocking label]
  | .seq n body p q => .seq n body p q :: (p.parts ++ q.parts)
  | .alt n body p q => .alt n body p q :: (p.parts ++ q.parts)
  | .derived n source recipe body expiry label =>
    .derived n source recipe body expiry label :: source.parts

theorem self_mem_parts (r : Rule σ φ) : r ∈ r.parts := by
  cases r <;> simp [parts]

theorem parts_subset {p r : Rule σ φ} (h : p ∈ r.parts) : p.parts ⊆ r.parts := by
  induction r with
  | empty | clause =>
    simp only [parts, List.mem_singleton] at h
    rw [h]
    exact List.Subset.refl _
  | seq n body a b iha ihb | alt n body a b iha ihb =>
    simp only [parts, List.mem_cons, List.mem_append] at h
    obtain rfl | h | h := h
    · exact List.Subset.refl _
    · exact fun x hx => List.mem_cons_of_mem _ (List.mem_append_left _ (iha h hx))
    · exact fun x hx => List.mem_cons_of_mem _ (List.mem_append_right _ (ihb h hx))
  | derived n source recipe body expiry label ih =>
    simp only [parts, List.mem_cons] at h
    obtain rfl | h := h
    · exact List.Subset.refl _
    · exact fun x hx => List.mem_cons_of_mem _ (ih h hx)

end Rule

inductive Move (σ φ : Type) where
  | narrow (b : Boundary)
  | attach (rule : Rule σ φ)
  | attachFallback (rule : Rule σ φ)
  | without (test : Test σ φ)
  | advance (c : Choice) (taken : Candidate) (rule : Rule σ φ)

namespace Move

@[simp]
def rules : Move σ φ → List (Rule σ φ)
  | .narrow _ | .without _ => []
  | .attach r | .attachFallback r | .advance _ _ r => [r]

def run [Recipe φ σ] (t : Trail σ φ) : Move σ φ → Run σ (Trail σ φ)
  | .narrow b => t.narrow b
  | .attach r => t.attach r
  | .attachFallback r => t.attachFallback r
  | .without test => t.without test
  | .advance c taken r => t.advance c taken r

end Move

inductive Operation (σ φ : Type) where
  | clause (expiry : Expiry) (body : Option (Override σ)) (label : Text) (blocking : Bool)
  | derived (source : Rule σ φ) (expiry : Expiry) (recipe : Option φ) (label : Text)
  | seq (first second : Rule σ φ)
  | alt (first second : Rule σ φ)
  | narrow (rule : Rule σ φ) (b : Boundary)
  | filter (rule : Rule σ φ) (test : Test σ φ)
  | lead (trail : Trail σ φ) (move : Move σ φ)

namespace Operation

@[simp]
def given : Operation σ φ → List (Rule σ φ)
  | .clause .. => []
  | .derived source _ _ _ => [source]
  | .seq p q | .alt p q => [p, q]
  | .narrow r _ | .filter r _ => [r]
  | .lead t m => t.rule :: m.rules

/-- Of a move of a trail only the rule counts here that the trail then has. -/
def run [Recipe φ σ] : Operation σ φ → Run σ (Rule σ φ)
  | .clause expiry body label blocking => Rule.clauseOf expiry body label blocking
  | .derived source expiry recipe label => source.derivedBy expiry recipe label
  | .seq p q => p.followedBy q
  | .alt p q => p.otherwise q
  | .narrow r b => r.narrow b
  | .filter r test => r.filter test
  | .lead t m => Trail.rule <$> m.run t

end Operation

/-- A session and the rules that a client has at hand in it. -/
structure Bench (σ φ : Type) where
  session : Session σ
  rules : List (Rule σ φ)

namespace Bench

variable [Recipe φ σ]

/-- What a client may do: make a rule out of rules at hand, take one out of another, or anything
else that gives back no serial number, such as an operation that fails. -/
inductive Step (w : Bench σ φ) : Bench σ φ → Prop
  | made {o : Operation σ φ} {r : Rule σ φ} {s : Session σ} (hg : ∀ p ∈ o.given, p ∈ w.rules)
      (he : o.run.exec w.session = (.ok r, s)) : Step w ⟨s, r :: w.rules⟩
  | taken {p r : Rule σ φ} (hr : r ∈ w.rules) (hp : p ∈ r.parts) : Step w ⟨w.session, p :: w.rules⟩
  | passed {s : Session σ} (hs : w.session.nextSerial ≤ s.nextSerial) : Step w ⟨s, w.rules⟩

theorem Step.rules_subset {w w' : Bench σ φ} (h : w.Step w') : w.rules ⊆ w'.rules := by
  cases h with
  | made | taken => exact List.subset_cons_self _ _
  | passed => exact List.Subset.refl _

/-- The benches to which any finite sequence of steps may lead from one that is bare but for the
empty rule. -/
inductive Reached : Bench σ φ → Prop
  | start (s : Session σ) : Reached ⟨s, [.empty]⟩
  | step {w w' : Bench σ φ} (h : Reached w) (hs : w.Step w') : Reached w'

namespace Reached

variable {w : Bench σ φ}

theorem make (h : w.Reached) (o : Operation σ φ) (hg : ∀ p ∈ o.given, p ∈ w.rules) {r : Rule σ φ}
    {s : Session σ} (he : o.run.exec w.session = (.ok r, s)) :
    (⟨s, r :: w.rules⟩ : Bench σ φ).Reached :=
  h.step (.made hg he)

theorem move (h : w.Reached) {t t' : Trail σ φ} {m : Move σ φ} {s : Session σ}
    (ht : t.rule ∈ w.rules) (hm : ∀ r ∈ m.rules, r ∈ w.rules)
    (he : (m.run t).exec w.session = (.ok t', s)) :
    (⟨s, t'.rule :: w.rules⟩ : Bench σ φ).Reached :=
  h.make (.lead t m) (List.forall_mem_cons.2 ⟨ht, hm⟩) (Run.exec_map_eq_ok.2 ⟨t', he, rfl⟩)

theorem take (h : w.Reached) {p r : Rule σ φ} (hr : r ∈ w.rules) (hp : p ∈ r.parts) :
    (⟨w.session, p :: w.rules⟩ : Bench σ φ).Reached :=
  h.step (.taken hr hp)

theorem takeBoth (h : w.Reached) {p q r : Rule σ φ} (hr : r ∈ w.rules) (hp : p ∈ r.parts)
    (hq : q ∈ r.parts) : (⟨w.session, q :: p :: w.rules⟩ : Bench σ φ).Reached :=
  (h.take hr hp).take (List.mem_cons_of_mem _ hr) hq

theorem takeSource (h : w.Reached) {n : Nat} {source : Rule σ φ} {recipe : φ} {body : Override σ}
    {expiry : Expiry} {label : Text} (hr : .derived n source recipe body expiry label ∈ w.rules) :
    (⟨w.session, source :: w.rules⟩ : Bench σ φ).Reached :=
  h.take hr (List.mem_cons_of_mem _ source.self_mem_parts)

theorem pass (h : w.Reached) {s : Session σ} (hs : w.session.nextSerial ≤ s.nextSerial) :
    (⟨s, w.rules⟩ : Bench σ φ).Reached :=
  h.step (.passed hs)

theorem pass_exec (h : w.Reached) {α : Type} {x : Run σ α} {a : Except Fault α} {s : Session σ}
    (he : x.exec w.session = (a, s)) : (⟨s, w.rules⟩ : Bench σ φ).Reached := by
  have hs := x.nextSerial_le w.session
  rw [he] at hs
  exact h.pass hs

theorem empty_mem (h : w.Reached) : .empty ∈ w.rules := by
  induction h with
  | start s => exact List.mem_singleton_self _
  | step _ hs ih =>
    cases hs with
    | made | taken => exact List.mem_cons_of_mem _ ih
    | passed => exact ih

end Reached

end Bench

namespace Scenario

/-! A sequence of three clauses is mirrored, the mirror gets one of the clauses as a fallback, and
all is narrowed to a boundary at which the first clause has expired. -/

def brief : Rule Tally Method := .clause 0 Override.newlines ⟨.after, 10⟩ false "brief"

def joined : Rule Tally Method := .clause 1 Override.nonNewlines ⟨.on, 90⟩ false "joined"

def broken : Rule Tally Method := .clause 2 Override.newlines ⟨.before, 90⟩ true "broken"

def opening : Rule Tally Method := .seq 3 (brief.answer.followedBy joined.answer) brief joined

def whole : Rule Tally Method := .seq 4 (opening.answer.followedBy broken.answer) opening broken

def mirror : Rule Tally Method := .derived 5 whole .answer whole.answer ⟨.on, 80⟩ "mirror"

def guarded : Rule Tally Method := .alt 6 (mirror.answer.otherwise joined.answer) mirror joined

def early : Boundary := ⟨⟨"w", 0, 7⟩, ⟨"x", 8, 15⟩, 2⟩

def pastBrief : Boundary := ⟨⟨"x", 8, 15⟩, ⟨"y", 15, 16⟩, 3⟩

def pastMirror : Boundary := ⟨⟨"y", 15, 16⟩, ⟨"z", 16, 85⟩, 4⟩

def finale : Choice := ⟨pastMirror, [{ gap := .space, cost := 1 }, { gap := .newline, cost := 4 }]⟩

def remnant : Rule Tally Method := .seq 7 (joined.answer.followedBy broken.answer) joined broken

def remnantMirror : Rule Tally Method :=
  .derived 8 remnant .answer remnant.answer ⟨.on, 80⟩ "mirror"

def narrowed : Rule Tally Method :=
  .alt 9 (remnantMirror.answer.otherwise joined.answer) remnantMirror joined

def workbench : Bench Tally Method :=
  ⟨⟨10, {}, {}⟩, [narrowed, guarded, mirror, whole, opening, broken, joined, brief, .empty]⟩

theorem workbench_reached : workbench.Reached := by
  have h := Bench.Reached.start (φ := Method) (⟨0, {}, {}⟩ : Session Tally)
  have h := h.make (r := brief) (s := ⟨1, {}, {}⟩)
    (.clause ⟨.after, 10⟩ (some Override.newlines) "brief" false) (by simp) rfl
  have h := h.make (r := joined) (s := ⟨2, {}, {}⟩)
    (.clause ⟨.on, 90⟩ (some Override.nonNewlines) "joined" false) (by simp) rfl
  have h := h.make (r := broken) (s := ⟨3, {}, {}⟩)
    (.clause ⟨.before, 90⟩ (some Override.newlines) "broken" true) (by simp) rfl
  have h := h.make (r := opening) (s := ⟨4, {}, {}⟩) (.seq brief joined) (by simp) rfl
  have h := h.make (r := whole) (s := ⟨5, {}, {}⟩) (.seq opening broken) (by simp) rfl
  have h := h.make (r := mirror) (s := ⟨6, {}, {}⟩)
    (.derived whole ⟨.on, 80⟩ (some .answer) "mirror") (by simp) rfl
  have h := h.make (r := guarded) (s := ⟨7, {}, {}⟩) (.alt mirror joined) (by simp) rfl
  exact h.make (r := narrowed) (s := ⟨10, {}, {}⟩) (.narrow guarded pastBrief) (by simp) rfl

end Scenario

end LayoutRules
