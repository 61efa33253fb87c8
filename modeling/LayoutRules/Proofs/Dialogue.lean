import LayoutRules.Proofs.Discretion
import Mathlib.Data.List.Forall2

namespace LayoutRules

variable {σ φ : Type}

inductive Request (σ φ : Type) where
  | make (operation : Operation σ φ)
  | any (rule : Rule σ φ) (test : Test σ φ)
  | answer (rule : Rule σ φ) (c : Choice)
  | resolve (rule : Rule σ φ) (c : Choice)
  | render (rule : Rule σ φ)
  | lead (trail : Trail σ φ) (move : Move σ φ)
  | candidates (trail : Trail σ φ) (c : Choice)
  | own (f : σ → σ)

inductive Reply (σ φ : Type) where
  | rule (r : Rule σ φ)
  | trail (t : Trail σ φ)
  | truth (b : Bool)
  | answer (a : Option (List Candidate))
  | candidates (cs : List Candidate)
  | text (t : Text)
  | done

/-- What a client asks for in turn. It goes by all that came of its requests, faults too, and by the
state in which the calls of its overrides, recipes and tests have left it. -/
inductive Dialogue (σ φ : Type) where
  | ended
  | ask (request : Request σ φ) (next : Except Fault (Reply σ φ) → σ → Dialogue σ φ)

def Request.run [Recipe φ σ] : Request σ φ → Run σ (Reply σ φ)
  | .make o => .rule <$> o.run
  | .any r test => .truth <$> r.any test
  | .answer r c => .answer <$> r.answer c
  | .resolve r c => .candidates <$> r.resolve c
  | .render r => return .text r.render
  | .lead t m => .trail <$> m.run t
  | .candidates t c => .candidates <$> t.candidates c
  | .own f => (fun _ => .done) <$> Run.onClient fun c => ((), f c)

/-- What comes of each request, and the session after it. -/
def Dialogue.run [Recipe φ σ] :
    Dialogue σ φ → Session σ → List (Except Fault (Reply σ φ) × Session σ)
  | .ended, _ => []
  | .ask request next, s =>
    let heard := request.run.exec s
    heard :: (next heard.1 heard.2.client).run heard.2

def Move.Discreet (G : φ → Prop) : Move σ φ → Prop
  | .narrow _ => True
  | .attach r | .attachFallback r | .advance _ _ r => r.Discreet G
  | .without test => test.Discreet G

def Operation.Discreet (G : φ → Prop) : Operation σ φ → Prop
  | .clause _ body _ _ => ∀ f ∈ body, f.Discreet
  | .derived source _ recipe _ => source.Discreet G ∧ ∀ g ∈ recipe, G g
  | .seq p q | .alt p q => p.Discreet G ∧ q.Discreet G
  | .narrow r _ => r.Discreet G
  | .filter r test => r.Discreet G ∧ test.Discreet G
  | .lead t m => t.Discreet G ∧ m.Discreet G

def Request.Discreet (G : φ → Prop) : Request σ φ → Prop
  | .make o => o.Discreet G
  | .answer r _ | .resolve r _ | .render r => r.Discreet G
  | .any r test => r.Discreet G ∧ test.Discreet G
  | .lead t m => t.Discreet G ∧ m.Discreet G
  | .candidates t _ => t.Discreet G
  | .own _ => True

def Reply.Discreet (G : φ → Prop) : Reply σ φ → Prop
  | .rule r => r.Discreet G
  | .trail t => t.Discreet G
  | _ => True

/-- None of the overrides, recipes and tests that the client hands over does more to the journal
than write, as long as none of those does that came with the replies. -/
def Dialogue.Discreet (G : φ → Prop) : Dialogue σ φ → Prop
  | .ended => True
  | .ask request next =>
    request.Discreet G ∧ ∀ a c, (∀ y, a = .ok y → y.Discreet G) → (next a c).Discreet G

section

variable [Recipe φ σ] {G : φ → Prop}

theorem Move.discreetTo_run (hG : DiscreetRecipes (σ := σ) G) {t : Trail σ φ} (ht : t.Discreet G)
    {m : Move σ φ} (hm : m.Discreet G) : (m.run t).DiscreetTo (Trail.Discreet G) := by
  cases m with
  | narrow b => exact Trail.discreetTo_narrow hG ht b
  | attach r => exact Trail.discreetTo_attach ht hm
  | attachFallback r => exact Trail.discreetTo_attachFallback ht hm
  | without test => exact Trail.discreetTo_without hG ht hm
  | advance c taken r => exact Trail.discreetTo_advance hG ht hm c taken

theorem Operation.discreetTo_run (hG : DiscreetRecipes (σ := σ) G) {o : Operation σ φ}
    (ho : o.Discreet G) : o.run.DiscreetTo (Rule.Discreet G) := by
  cases o with
  | clause expiry body label blocking => exact Rule.discreetTo_clauseOf ho
  | derived source expiry recipe label => exact Rule.discreetTo_derivedBy hG ho.2 ho.1 expiry label
  | seq p q => exact Rule.discreetTo_followedBy ho.1 ho.2
  | alt p q => exact Rule.discreetTo_otherwise ho.1 ho.2
  | narrow r b => exact Rule.discreetTo_narrow hG ho b
  | filter r test => exact Rule.discreetTo_filter hG ho.2 ho.1
  | lead t m => exact (Move.discreetTo_run hG ho.1 ho.2).map fun _ h => h

theorem Request.discreetTo_run (hG : DiscreetRecipes (σ := σ) G) {x : Request σ φ}
    (hx : x.Discreet G) : x.run.DiscreetTo (Reply.Discreet G) := by
  cases x with
  | make o => exact (Operation.discreetTo_run hG hx).map fun _ h => h
  | any r test => exact (Rule.discreetTo_any hx.2 hx.1).map fun _ _ => trivial
  | answer r c => exact (Rule.Discreet.answer hx c).discreetTo.map fun _ _ => trivial
  | resolve r c => exact (Rule.discreetTo_resolve hx c).map fun _ _ => trivial
  | render r => exact Run.discreetTo_pure trivial
  | lead t m => exact (Move.discreetTo_run hG hx.1 hx.2).map fun _ h => h
  | candidates t c => exact (Trail.discreetTo_candidates hG hx c).map fun _ _ => trivial
  | own f => exact (Run.discreetTo_onClient _).map fun _ _ => trivial

end

namespace Session

def atLevel (l : Level) (s : Session σ) : Session σ :=
  { s with journal := { s.journal with threshold := l } }

/-- Two sessions that agree but for the level at which entries are kept. Since the entries that both
had before, the second has kept all, and the first just those that are grave enough. -/
structure HeardAt (l : Level) (before : List Entry) (s t : Session σ) : Prop where
  nextSerial : s.nextSerial = t.nextSerial
  client : s.client = t.client
  pattern : s.journal.pattern = t.journal.pattern
  threshold : s.journal.threshold = l
  traced : t.journal.threshold = .trace
  entries : ∃ new, t.journal.entries.toList = before ++ new ∧
    s.journal.entries.toList = before ++ new.filter fun e => l.rank ≤ e.level.rank

theorem heardAt_atLevel (l : Level) (s : Session σ) :
    (s.atLevel l).HeardAt l s.journal.entries.toList (s.atLevel .trace) :=
  ⟨rfl, rfl, rfl, rfl, rfl, [], by simp [atLevel]⟩

variable {l : Level} {before : List Entry} {s t : Session σ}

theorem HeardAt.eq_with_journal (h : s.HeardAt l before t) :
    s = { t with journal := s.journal } := by
  obtain ⟨n, j, c⟩ := s
  obtain ⟨rfl, rfl, -⟩ := h
  rfl

theorem HeardAt.write (h : s.HeardAt l before t) (e : Entry) :
    ({ s with journal := s.journal.write e } : Session σ).HeardAt l before
      { t with journal := t.journal.write e } where
  nextSerial := h.nextSerial
  client := h.client
  pattern := by simp only [Journal.pattern_write, h.pattern]
  threshold := by simp only [Journal.threshold_write, h.threshold]
  traced := by simp only [Journal.threshold_write, h.traced]
  entries := by
    obtain ⟨new, ht, hs⟩ := h.entries
    have hkept : t.journal.keeps e.level = true := by simp [Journal.keeps, h.traced, Level.rank]
    refine ⟨new ++ [e], ?_, ?_⟩
    · rw [Journal.write_of_keeps hkept, Array.toList_push, ht, List.append_assoc]
    · cases hk : s.journal.keeps e.level with
      | true =>
        have he : l.rank ≤ e.level.rank := by simpa [Journal.keeps, h.threshold] using hk
        rw [Journal.write_of_keeps hk, Array.toList_push, hs, List.filter_append, List.append_assoc]
        simp [he]
      | false =>
        have he : ¬ l.rank ≤ e.level.rank := by simpa [Journal.keeps, h.threshold] using hk
        rw [Journal.write_of_not_keeps hk, hs, List.filter_append]
        simp [he]

end Session

theorem Run.Discreet.heardAt {α : Type} {x : Run σ α} (h : x.Discreet) {l : Level}
    {before : List Entry} {s t : Session σ} (hst : s.HeardAt l before t) :
    (x.exec s).1 = (x.exec t).1 ∧ (x.exec s).2.HeardAt l before (x.exec t).2 := by
  induction h generalizing s t with
  | untouched h =>
    have hs := h t s.journal
    have ht := h t t.journal
    rw [← hst.eq_with_journal] at hs
    rw [hs]
    refine ⟨rfl, ⟨rfl, rfl, ?_, hst.threshold, ?_, ?_⟩⟩
    all_goals rw [ht]
    · exact hst.pattern
    · exact hst.traced
    · exact hst.entries
  | write level text =>
    rw [Run.exec_write, Run.exec_write]
    exact ⟨rfl, hst.write ⟨level, text ()⟩⟩
  | @bind _ _ x f hx hf ihx ihf =>
    obtain ⟨hres, hheard⟩ := ihx hst
    cases hs : x.exec s with
    | mk a u =>
      cases ht : x.exec t with
      | mk b v =>
        rw [hs, ht] at hres hheard
        cases hres
        cases a with
        | error e =>
          rw [Run.exec_bind_error hs, Run.exec_bind_error ht]
          exact ⟨rfl, hheard⟩
        | ok a =>
          rw [Run.exec_bind_ok hs, Run.exec_bind_ok ht]
          exact ihf t a v ht hheard

variable [Recipe φ σ] {G : φ → Prop}

namespace Dialogue

theorem run_heardAt_of_heardAt (hG : DiscreetRecipes (σ := σ) G) {d : Dialogue σ φ}
    (hd : d.Discreet G) {l : Level} {before : List Entry} {s t : Session σ}
    (hst : s.HeardAt l before t) :
    List.Forall₂ (fun heard all => heard.1 = all.1 ∧ heard.2.HeardAt l before all.2)
      (d.run s) (d.run t) := by
  induction d generalizing s t with
  | ended => exact .nil
  | ask request next ih =>
    obtain ⟨hrequest, hnext⟩ := hd
    -- Both runs get the same reply in the same state, and so they go on with the same request.
    have hrun := request.discreetTo_run hG hrequest
    obtain ⟨hres, hheard⟩ := hrun.discreet.heardAt hst
    refine .cons ⟨hres, hheard⟩ ?_
    rw [hres, hheard.client]
    refine ih _ _ (hnext _ _ fun y hy => ?_) hheard
    exact hrun.meets t y (request.run.exec t).2 (Prod.ext hy rfl)

/-- Whatever a client asks for in turn, the level at which the journal keeps entries makes no
difference to it: each request comes to the same, serial numbers included, or to the same fault, and
leaves the client in the same state. A client whose overrides, recipes and tests record their calls
therefore has the same record. Of the entries that are written in between, also by a request that
fails, the journal has just those that are grave enough. -/
theorem run_heardAt (hG : DiscreetRecipes (σ := σ) G) {d : Dialogue σ φ} (hd : d.Discreet G)
    (s : Session σ) (l : Level) :
    List.Forall₂
      (fun heard all => heard.1 = all.1 ∧ heard.2.HeardAt l s.journal.entries.toList all.2)
      (d.run (s.atLevel l)) (d.run (s.atLevel .trace)) :=
  run_heardAt_of_heardAt hG hd (s.heardAt_atLevel l)

end Dialogue

namespace Scenario

def echo : Method := .recorded "echo" (.ifLabelled "brief" .answer)

def parley : Dialogue Tally Method :=
  .ask (.make (.derived opening ⟨.on, 80⟩ (some echo) "echo")) fun
    | .ok (.rule r), _ => .ask (.lead {} (.attach r)) fun
      | .ok (.trail t), _ => .ask (.candidates t ⟨early, []⟩) fun _ _ =>
        .ask (.lead t (.advance ⟨pastBrief, []⟩ {} brief)) fun _ _ => .ended
      | _, _ => .ended
    | _, _ => .ended

theorem discreetRecipes_echo : DiscreetRecipes (σ := Tally) (fun g => g = echo) := by
  rintro g rfl p hp
  have hderive : (Recipe.derive echo p : Run Tally _) = (do
      Tally.record (.recipe "echo" p.render)
      if ← p.any fun c => return c.label = "brief" then return some p.answer
      else return none) := rfl
  rw [hderive]
  refine (Run.discreetTo_onClient _).bind fun _ _ => ?_
  refine (Rule.discreetTo_any (fun _ _ => .untouched fun _ _ => rfl) hp).bind fun found _ => ?_
  cases found with
  | true => exact Run.discreetTo_pure fun f hf => Option.mem_some.1 hf ▸ hp.answer
  | false => exact Run.discreetTo_pure fun f hf => absurd hf (by simp)

theorem discreet_total (f : Choice → List Candidate) : (Override.total f : Override σ).Discreet :=
  fun _ => .untouched fun _ _ => rfl

theorem discreet_opening : opening.Discreet fun g => g = echo :=
  ⟨(discreet_total _).followedBy (discreet_total _), discreet_total _, discreet_total _⟩

theorem discreet_parley : parley.Discreet fun g => g = echo := by
  refine ⟨⟨discreet_opening, by simp⟩, fun a c hr => ?_⟩
  dsimp only
  split
  · rename_i r
    refine ⟨⟨trivial, hr _ rfl⟩, fun a c ht => ?_⟩
    dsimp only
    split
    · rename_i t
      exact ⟨ht _ rfl, fun _ _ _ => ⟨⟨ht _ rfl, discreet_total _⟩, fun _ _ _ => trivial⟩⟩
    · trivial
  · trivial

theorem parley_run_heardAt :
    DiscreetRecipes (σ := Tally) (fun g => g = echo) ∧ parley.Discreet (fun g => g = echo) ∧
      let s : Session Tally := ⟨10, {}, {}⟩
      (parley.run (s.atLevel .trace)).map (fun all => all.2.journal.entries.size) = [0, 1, 1, 2] ∧
      (parley.run (s.atLevel .debug)).map (fun heard => heard.2.journal.entries.size) =
        [0, 1, 1, 1] ∧
      (parley.run (s.atLevel .debug)).map (fun heard => heard.2.client.events.size) =
        [1, 1, 2, 3] ∧
      ∃ heard all, (parley.run (s.atLevel .debug))[3]? = some heard ∧
        (parley.run (s.atLevel .trace))[3]? = some all ∧
        heard.1 = .error (.recipeWithoutOverride "echo") ∧ heard.1 = all.1 ∧
        heard.2.HeardAt .debug [] all.2 := by
  refine ⟨discreetRecipes_echo, discreet_parley, rfl, rfl, rfl, ?_⟩
  have h := Dialogue.run_heardAt discreetRecipes_echo discreet_parley ⟨10, {}, {}⟩ .debug
  refine ⟨_, _, rfl, rfl, rfl, ?_⟩
  exact List.Forall₂.get h (i := 3) (by decide) (by decide)

end Scenario

end LayoutRules
