import LayoutRules.Proofs.Bench
import LayoutRules.Proofs.Narrowing
import LayoutRules.Proofs.Pruning

namespace LayoutRules

variable {σ φ α β : Type}

/-- The later entries are the earlier ones with nothing but extra ones in between. -/
structure Interspersed (extra es fs : List Entry) : Prop where
  sublist : List.Sublist es fs
  rest : fs.filter (fun e => e ∉ extra) = es.filter (fun e => e ∉ extra)

namespace Interspersed

variable {extra es fs : List Entry}

theorem refl (extra es : List Entry) : Interspersed extra es es := ⟨List.Sublist.refl es, rfl⟩

theorem append (h : Interspersed extra es fs) (new : List Entry) :
    Interspersed extra (es ++ new) (fs ++ new) where
  sublist := h.sublist.append (List.Sublist.refl new)
  rest := by rw [List.filter_append, List.filter_append, h.rest]

theorem insert (h : Interspersed extra es fs) {e : Entry} (he : e ∈ extra) :
    Interspersed extra es (fs ++ [e]) where
  sublist := h.sublist.trans (List.sublist_append_left fs [e])
  rest := by
    rw [List.filter_append, h.rest]
    simp [he]

end Interspersed

namespace Session

def withEntries (s : Session σ) (es : Array Entry) : Session σ :=
  { s with journal := { s.journal with entries := es } }

structure Ahead (extra : List Entry) (s t : Session σ) : Prop where
  nextSerial : s.nextSerial = t.nextSerial
  client : s.client = t.client
  threshold : s.journal.threshold = t.journal.threshold
  pattern : s.journal.pattern = t.journal.pattern
  entries : Interspersed extra t.journal.entries.toList s.journal.entries.toList

variable {extra : List Entry} {s t : Session σ}

namespace Ahead

theorem refl (extra : List Entry) (s : Session σ) : s.Ahead extra s :=
  ⟨rfl, rfl, rfl, rfl, .refl _ _⟩

theorem eq_withEntries (h : s.Ahead extra t) : s = t.withEntries s.journal.entries := by
  obtain ⟨n, ⟨threshold, pattern, es⟩, client⟩ := s
  obtain ⟨rfl, rfl, rfl, rfl, -⟩ := h
  rfl

theorem write (h : s.Ahead extra t) {e : Entry} (he : e ∈ extra) :
    ({ s with journal := s.journal.write e } : Session σ).Ahead extra t where
  nextSerial := h.nextSerial
  client := h.client
  threshold := (Journal.threshold_write _ _).trans h.threshold
  pattern := (Journal.pattern_write _ _).trans h.pattern
  entries := by
    cases hk : s.journal.keeps e.level with
    | true =>
      show Interspersed extra _ (s.journal.write e).entries.toList
      rw [Journal.write_of_keeps hk, Array.toList_push]
      exact h.entries.insert he
    | false =>
      show Interspersed extra _ (s.journal.write e).entries.toList
      rw [Journal.write_of_not_keeps hk]
      exact h.entries

end Ahead

end Session

namespace Run

def IgnoresEntries (x : Run σ α) : Prop :=
  ∀ s, ∃ new, ∀ es, x.exec (s.withEntries es) =
    ((x.exec s).1, (x.exec s).2.withEntries (es ++ new))

/-- From sessions of which one is ahead of the other, two runs come to the same result or the same
fault, and one session is then still ahead of the other by extra entries only. -/
def InStep (extra : List Entry) (x y : Run σ α) : Prop :=
  ∀ ⦃s t⦄, s.Ahead extra t → (x.exec s).1 = (y.exec t).1 ∧ (x.exec s).2.Ahead extra (y.exec t).2

theorem ignoresEntries_pure (a : α) : (pure a : Run σ α).IgnoresEntries := fun s =>
  ⟨#[], fun es => by rw [Array.append_empty]; rfl⟩

theorem ignoresEntries_fresh : (fresh : Run σ Nat).IgnoresEntries := fun s =>
  ⟨#[], fun es => by rw [Array.append_empty]; rfl⟩

theorem ignoresEntries_onClient (f : σ → α × σ) : (onClient f).IgnoresEntries := fun s =>
  ⟨#[], fun es => by rw [Array.append_empty]; rfl⟩

theorem ignoresEntries_write (level : Level) (text : Unit → Text) :
    (write level text : Run σ Unit).IgnoresEntries := by
  intro s
  cases h : s.journal.keeps level with
  | true =>
    refine ⟨#[⟨level, text ()⟩], fun es => ?_⟩
    have hes : ({ s.journal with entries := es } : Journal).keeps level = true := h
    simp [Journal.write, Session.withEntries, h, hes]
  | false =>
    refine ⟨#[], fun es => ?_⟩
    have hes : ({ s.journal with entries := es } : Journal).keeps level = false := h
    simp [Journal.write, Session.withEntries, h, hes]

theorem IgnoresEntries.bind {x : Run σ α} {f : α → Run σ β} (hx : x.IgnoresEntries)
    (hf : ∀ a, (f a).IgnoresEntries) : (x >>= f).IgnoresEntries := by
  intro s
  obtain ⟨new, hnew⟩ := hx s
  cases h : x.exec s with
  | mk res t =>
    simp only [h] at hnew
    cases res with
    | error e =>
      refine ⟨new, fun es => ?_⟩
      rw [exec_bind_error (hnew es), exec_bind_error h]
    | ok a =>
      obtain ⟨new', hnew'⟩ := hf a t
      refine ⟨new ++ new', fun es => ?_⟩
      rw [exec_bind_ok (hnew es), exec_bind_ok h, hnew', Array.append_assoc]

variable {extra : List Entry} {x y : Run σ α} {f g : α → Run σ β}

theorem IgnoresEntries.inStep (h : x.IgnoresEntries) : InStep extra x x := by
  intro s t hst
  obtain ⟨new, hnew⟩ := h t
  have hs := hnew s.journal.entries
  have ht := hnew t.journal.entries
  rw [← hst.eq_withEntries] at hs
  have hte : (x.exec t).2 = (x.exec t).2.withEntries (t.journal.entries ++ new) :=
    congrArg Prod.snd ht
  rw [hs]
  refine ⟨rfl, rfl, rfl, rfl, rfl, ?_⟩
  rw [hte]
  simp only [Session.withEntries, Array.toList_append]
  exact hst.entries.append new.toList

theorem InStep.bind (hx : InStep extra x y) (hf : ∀ a, InStep extra (f a) (g a)) :
    InStep extra (x >>= f) (y >>= g) := by
  intro s t hst
  obtain ⟨hres, hahead⟩ := hx hst
  rw [exec_bind, exec_bind]
  revert hres hahead
  cases x.exec s with
  | mk a u =>
    cases y.exec t with
    | mk b v =>
      intro hres hahead
      cases hres
      cases a with
      | error e => exact ⟨rfl, hahead⟩
      | ok a => exact hf a hahead

theorem inStep_pure (a : α) : InStep extra (pure a : Run σ α) (pure a) :=
  (ignoresEntries_pure a).inStep

end Run

namespace Rule

variable {extra : List Entry}

theorem inStep_join (make : Nat → Rule σ φ) (p q : Rule σ φ) :
    Run.InStep extra (join make p q) (join make p q) := by
  unfold join
  split
  · exact Run.inStep_pure p
  · split
    · exact Run.inStep_pure q
    · exact (Run.ignoresEntries_fresh.bind fun n => Run.ignoresEntries_pure (make n)).inStep

theorem inStep_rejoin {again : Run σ (Rule σ φ)} (h : Run.InStep extra again again)
    (whole p q p' q' : Rule σ φ) :
    Run.InStep extra (rejoin whole p q p' q' again) (rejoin whole p q p' q' again) := by
  unfold rejoin
  split
  · exact Run.inStep_pure whole
  · exact h

def expiredEntries (r : Rule σ φ) (b : Boundary) : List Entry :=
  (r.clauses.filter fun c => !c.expiry.activeAt b).map fun c =>
    ⟨.trace, expiredText c.label c.expiry b⟩

theorem inStep_reporting {b : Boundary} {c : Clause σ φ}
    (hc : c.expiry.activeAt b = false → ⟨.trace, expiredText c.label c.expiry b⟩ ∈ extra) :
    Run.InStep extra (Test.reporting b c) (Test.active b c) := by
  intro s t hst
  have hactive : (Test.active b c).exec t = (.ok (c.expiry.activeAt b), t) := rfl
  rw [hactive]
  cases h : c.expiry.activeAt b with
  | true =>
    rw [Test.exec_reporting_of_active h]
    exact ⟨rfl, hst⟩
  | false =>
    rw [Test.exec_reporting_of_expired h]
    exact ⟨rfl, hst.write (hc h)⟩

variable [Recipe φ σ]

theorem inStep_derive {recipe : φ} (p : Rule σ φ) (hg : (Recipe.derive recipe p).IgnoresEntries)
    (expiry : Expiry) (label : Text) :
    Run.InStep extra (p.derive expiry recipe label) (p.derive expiry recipe label) := by
  by_cases hp : p = .empty
  · subst hp
    exact Run.inStep_pure _
  · rw [derive_of_ne hp]
    refine hg.inStep.bind fun f => ?_
    cases f with
    | none => exact fun _ _ h => ⟨rfl, h⟩
    | some f =>
      exact Run.ignoresEntries_fresh.inStep.bind fun n =>
        Run.inStep_pure _

theorem inStep_filter {test test' : Test σ φ} {r : Rule σ φ}
    (ht : ∀ c ∈ r.clauses, Run.InStep extra (test c) (test' c))
    (hg : ∀ g ∈ r.outline.recipes, ∀ p, (Recipe.derive g p).IgnoresEntries) :
    Run.InStep extra (r.filter test) (r.filter test') := by
  induction r with
  | empty => exact Run.inStep_pure _
  | clause n body expiry blocking label =>
    exact (ht _ (List.mem_singleton_self _)).bind fun _ => Run.inStep_pure _
  | seq n body p q ihp ihq | alt n body p q ihp ihq =>
    simp only [clauses, List.forall_mem_append] at ht
    simp only [outline, Outline.recipes, List.forall_mem_append] at hg
    exact (ihp ht.1 hg.1).bind fun p' => (ihq ht.2 hg.2).bind fun q' =>
      inStep_rejoin (inStep_join _ p' q') _ p q p' q'
  | derived n source recipe body expiry label ih =>
    simp only [clauses, List.forall_mem_cons] at ht
    simp only [outline, Outline.recipes, List.forall_mem_cons] at hg
    refine ht.1.bind fun passed => ?_
    cases passed with
    | false => exact Run.inStep_pure _
    | true =>
      exact (ih ht.2 hg.2).bind fun source' => inStep_derive source' (hg.1 source') expiry label

theorem inStep_narrow (r : Rule σ φ) (b : Boundary)
    (hg : ∀ g ∈ r.outline.recipes, ∀ p, (Recipe.derive g p).IgnoresEntries) :
    Run.InStep (r.expiredEntries b) (r.narrow b) (r.filter (.active b)) := by
  rw [narrow_eq_filter]
  refine inStep_filter (fun c hc => inStep_reporting fun h => ?_) hg
  exact List.mem_map.2 ⟨c, List.mem_filter.2 ⟨hc, by simp [h]⟩, rfl⟩

end Rule

/-- A client that keeps a record of which recipe was called, and what was to be seen of the rule
that it was called on. -/
structure Recording (φ ν τ : Type) where
  calls : List (φ × ν) := []
  own : τ

namespace Recording

variable {ν τ : Type} (view : Rule (Recording φ ν τ) φ → ν)
variable (make : φ → Rule (Recording φ ν τ) φ →
  Run (Recording φ ν τ) (Option (Override (Recording φ ν τ))))

@[reducible]
def recipe : Recipe φ (Recording φ ν τ) where
  derive g p := do
    Run.onClient fun c => ((), { c with calls := c.calls ++ [(g, view p)] })
    make g p

/-- Narrowing and filtering by what is active come to the same rule, under the same serial numbers,
or to the same fault. They call the same recipes in the same order, each on rules that look the
same from any point of view, and leave the session in the same state but for the entries about
clauses that drop out. -/
theorem narrow_eq_filter_active (p : Rule (Recording φ ν τ) φ) (b : Boundary)
    (hmake : ∀ g ∈ p.outline.recipes, ∀ q, (make g q).IgnoresEntries)
    (s : Session (Recording φ ν τ)) :
    letI := recipe view make
    ∃ result narrowed filtered, (p.narrow b).exec s = (result, narrowed) ∧
      (p.filter (.active b)).exec s = (result, filtered) ∧
      narrowed.client.calls = filtered.client.calls ∧
      narrowed.Ahead (p.expiredEntries b) filtered := by
  let _ := recipe view make
  have hrecord : ∀ g ∈ p.outline.recipes, ∀ q, (Recipe.derive g q).IgnoresEntries := fun g hg q =>
    (Run.ignoresEntries_onClient _).bind fun _ => hmake g hg q
  obtain ⟨hresult, hahead⟩ := p.inStep_narrow b hrecord (.refl _ s)
  refine ⟨_, _, _, rfl, ?_, congrArg Recording.calls hahead.client, hahead⟩
  rw [hresult]

end Recording

namespace Scenario

/-! A client gives out overrides for so many calls in all. When two derived rules are derived anew,
there is none left for the second. -/

abbrev Ration := Recording Nat Text Nat

def ration (limit : Nat) (p : Rule Ration Nat) : Run Ration (Option (Override Ration)) := do
  let used ← Run.onClient fun c => (c.own, { c with own := c.own + 1 })
  Run.write .info fun _ => "call " ++ Text.ofNat used
  return if used < limit then some p.answer else none

def passing : Rule Ration Nat := .clause 0 Override.newlines ⟨.after, 10⟩ false "passing"

def lasting : Rule Ration Nat := .clause 1 Override.nonNewlines ⟨.on, 90⟩ false "lasting"

def either : Rule Ration Nat := .alt 2 (passing.answer.otherwise lasting.answer) passing lasting

def copy : Rule Ration Nat := .derived 3 either 1 either.answer ⟨.on, 80⟩ "copy"

def spare : Rule Ration Nat := .derived 4 lasting 1 lasting.answer ⟨.on, 80⟩ "spare"

def copies : Rule Ration Nat := .seq 5 (copy.answer.followedBy spare.answer) copy spare

theorem ignoresEntries_ration (limit : Nat) (p : Rule Ration Nat) :
    (ration limit p).IgnoresEntries :=
  (Run.ignoresEntries_onClient _).bind fun _ =>
    (Run.ignoresEntries_write _ _).bind fun _ => Run.ignoresEntries_pure _

theorem copies_narrow_eq_filter_active :
    letI := Recording.recipe Rule.render ration
    let s : Session Ration := ⟨6, { threshold := .trace }, { own := 0 }⟩
    (∀ g ∈ copies.outline.recipes, ∀ q, (ration g q).IgnoresEntries) ∧
      ∃ result narrowed filtered, (copies.narrow pastBrief).exec s = (result, narrowed) ∧
        (copies.filter (.active pastBrief)).exec s = (result, filtered) ∧
        result = .error (.recipeWithoutOverride "spare") ∧
        narrowed.client.calls = filtered.client.calls ∧ filtered.client.calls.length = 2 ∧
        narrowed.Ahead (copies.expiredEntries pastBrief) filtered ∧
        narrowed.journal.entries.size = 3 ∧ filtered.journal.entries.size = 2 := by
  intro s
  have hration : ∀ g ∈ copies.outline.recipes, ∀ q, (ration g q).IgnoresEntries := fun g _ q =>
    ignoresEntries_ration g q
  obtain ⟨result, narrowed, filtered, hn, hf, hcalls, hahead⟩ :=
    Recording.narrow_eq_filter_active Rule.render ration copies pastBrief hration s
  refine ⟨hration, result, narrowed, filtered, hn, hf, ?_, hcalls, ?_, hahead, ?_, ?_⟩
  · exact (congrArg Prod.fst hf).symm
  · exact (congrArg (fun r => r.2.client.calls.length) hf).symm
  · exact (congrArg (fun r => r.2.journal.entries.size) hn).symm
  · exact (congrArg (fun r => r.2.journal.entries.size) hf).symm

end Scenario

end LayoutRules
