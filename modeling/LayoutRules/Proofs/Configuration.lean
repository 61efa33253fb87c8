import LayoutRules.Run
import LayoutRules.Settings

namespace LayoutRules

variable {σ : Type}

namespace Level

def spellings : List Text := names.map Prod.fst

theorem lookup_of_mem {name : Text} (h : name ∈ spellings) :
    names.lookup name = some (spelled name) := by
  revert h name
  decide

theorem lookup_of_notMem {name : Text} (h : name ∉ spellings) : names.lookup name = none := by
  rw [← Option.not_isSome_iff_eq_none, List.lookup_isSome_iff]
  rintro ⟨p, hp, hname⟩
  exact h (beq_iff_eq.1 hname ▸ List.mem_map_of_mem hp)

theorem spelled_eq_off_iff {name : Text} (h : name ∈ spellings) :
    spelled name = .off ↔ name = "off" := by
  revert h name
  decide

theorem ofName_of_mem {name : Text} (h : name ∈ spellings) : ofName name = .ok (spelled name) :=
  if_neg fun hoff => hoff.2 ((spelled_eq_off_iff h).1 hoff.1)

theorem ofName_of_notMem {name : Text} (h : name ∉ spellings) :
    ofName name = .error (.unknownLevel name) := by
  have hoff : spelled name = .off := by rw [spelled, lookup_of_notMem h, Option.getD_none]
  have hne : name ≠ "off" := by
    rintro rfl
    exact h (by decide)
  exact if_pos ⟨hoff, hne⟩

theorem ofName_eq_ok_iff {name : Text} {l : Level} :
    ofName name = .ok l ↔ names.lookup name = some l := by
  by_cases h : name ∈ spellings
  · rw [ofName_of_mem h, lookup_of_mem h, Except.ok.injEq, Option.some_inj]
  · rw [ofName_of_notMem h, lookup_of_notMem h]
    exact ⟨nofun, nofun⟩

end Level

/-- The name is quoted as a whole unless it holds a zero byte, which no variable can bring in. -/
theorem Fault.message_unknownLevel {name : Text} (h : 0 ∉ name.bytes) :
    (Fault.unknownLevel name).message = (Fault.unknownLevel name).wording := by
  apply Text.untilZero_of_zero_notMem
  have hopen : 0 ∉ ("splitpolicy: unknown log level '" : Text).bytes := by decide
  have hclose : 0 ∉ ("'" : Text).bytes := by decide
  simp only [wording, Text.bytes_append, List.mem_append, not_or]
  exact ⟨⟨hopen, h⟩, hclose⟩

namespace Environment

def configure (e : Environment) : Run σ Unit := do
  let settings ← Run.ofExcept (Settings.ofEnvironment e)
  Run.onJournal fun j => j.configure settings

/-- Goes through environments in turn and tells for each one whether it failed. The next one has its
turn in any case. -/
def configureInTurn (es : List Environment) : Run σ (List (Option Fault)) :=
  es.mapM fun e => e.configure.attempt

/-- Wrong is only a level that is set to something other than a name. -/
def fault? (e : Environment) : Option Fault :=
  match e.level with
  | some name => if name ∈ Level.spellings then none else some (.unknownLevel name)
  | none => none

def accepted (e : Environment) : Bool := e.fault?.isNone

def threshold (e : Environment) : Level :=
  match e.level with
  | some name => Level.spelled name
  | none => .warn

/-- The pattern an environment asks for. An empty one is as good as none. -/
def pattern? (e : Environment) : Option Text := e.pattern.filter fun p => !p.isEmpty

variable {e : Environment}

theorem fault?_eq_some_iff {f : Fault} :
    e.fault? = some f ↔
      ∃ name, e.level = some name ∧ name ∉ Level.spellings ∧ f = .unknownLevel name := by
  obtain ⟨level, pattern⟩ := e
  cases level with
  | none => simp [fault?]
  | some name => by_cases h : name ∈ Level.spellings <;> simp [fault?, h, eq_comm]

theorem fault?_eq_none_iff :
    e.fault? = none ↔ ∀ name, e.level = some name → name ∈ Level.spellings := by
  obtain ⟨level, pattern⟩ := e
  cases level with
  | none => simp [fault?]
  | some name => simp [fault?]

theorem ofEnvironment_of_fault {f : Fault} (h : e.fault? = some f) :
    Settings.ofEnvironment e = .error f := by
  obtain ⟨level, pattern⟩ := e
  obtain ⟨name, rfl, hname, rfl⟩ := fault?_eq_some_iff.1 h
  exact Settings.ofEnvironment_refused (Level.ofName_of_notMem hname) pattern

theorem ofEnvironment_of_accepted (h : e.fault? = none) :
    Settings.ofEnvironment e = .ok ⟨e.threshold, e.pattern.getD ""⟩ := by
  obtain ⟨level, pattern⟩ := e
  cases level with
  | none => rfl
  | some name =>
    have hname := fault?_eq_none_iff.1 h name rfl
    exact Settings.ofEnvironment_set (Level.ofName_of_mem hname) pattern

theorem exec_configure_eq (e : Environment) (s : Session σ) :
    e.configure.exec s = match s.journal.configureFrom e with
      | .ok j => (.ok (), { s with journal := j })
      | .error f => (.error f, s) := by
  rw [configure, Journal.configureFrom]
  cases Settings.ofEnvironment e <;> rfl

theorem exec_configure_of_fault {f : Fault} (h : e.fault? = some f) (s : Session σ) :
    e.configure.exec s = (.error f, s) := by
  rw [exec_configure_eq, Journal.configureFrom, ofEnvironment_of_fault h]
  rfl

theorem exec_configure_of_accepted (h : e.fault? = none) (s : Session σ) :
    e.configure.exec s = (.ok (),
      { s with journal := s.journal.configure ⟨e.threshold, e.pattern.getD ""⟩ }) := by
  rw [exec_configure_eq, Journal.configureFrom, ofEnvironment_of_accepted h]
  rfl

theorem exec_configure_error_iff {s t : Session σ} {f : Fault} :
    e.configure.exec s = (.error f, t) ↔ e.fault? = some f ∧ t = s := by
  constructor
  · intro h
    cases hf : e.fault? with
    | none => cases (exec_configure_of_accepted hf s).symm.trans h
    | some g =>
      cases (exec_configure_of_fault hf s).symm.trans h
      exact ⟨rfl, rfl⟩
  · rintro ⟨hf, rfl⟩
    exact exec_configure_of_fault hf t

def afterTurn (j : Journal) (e : Environment) : Journal :=
  if e.accepted then j.configure ⟨e.threshold, e.pattern.getD ""⟩ else j

theorem exec_attempt_configure (e : Environment) (s : Session σ) :
    e.configure.attempt.exec s = (.ok e.fault?, { s with journal := afterTurn s.journal e }) := by
  cases h : e.fault? with
  | some f =>
    rw [Run.exec_attempt_error (exec_configure_of_fault h s), afterTurn, accepted, h]
    rfl
  | none =>
    rw [Run.exec_attempt_ok (exec_configure_of_accepted h s), afterTurn, accepted, h]
    rfl

theorem exec_configureInTurn (es : List Environment) (s : Session σ) :
    (configureInTurn es).exec s =
      (.ok (es.map fault?), { s with journal := es.foldl afterTurn s.journal }) := by
  induction es generalizing s with
  | nil => rfl
  | cons e es ih =>
    rw [configureInTurn, List.mapM_cons, Run.exec_bind_ok (exec_attempt_configure e s)]
    exact (Run.exec_bind_ok (ih _)).trans rfl

theorem afterTurn_of_accepted (h : e.accepted = true) (j : Journal) :
    afterTurn j e = { j with threshold := e.threshold, pattern := e.pattern?.getD j.pattern } := by
  rw [afterTurn, if_pos h, Journal.configure, pattern?]
  cases e.pattern with
  | none => rfl
  | some text => cases htext : text.isEmpty <;> simp [htext, Option.filter]

theorem foldl_afterTurn (es : List Environment) (j : Journal) :
    es.foldl afterTurn j =
      { j with
        threshold := ((es.filter accepted).getLast?.map threshold).getD j.threshold
        pattern := ((es.filter accepted).filterMap pattern?).getLast?.getD j.pattern } := by
  induction es generalizing j with
  | nil => rfl
  | cons e es ih =>
    rw [List.foldl_cons, ih]
    cases h : e.accepted with
    | false => rw [afterTurn, List.filter_cons_of_neg (by simp [h]), if_neg (by simp [h])]
    | true =>
      -- The first one has its say only as far as none of the later ones has.
      have hlevel : ((e :: es.filter accepted).getLast?.map threshold).getD j.threshold =
          ((es.filter accepted).getLast?.map threshold).getD e.threshold := by
        rw [List.getLast?_cons]
        cases (es.filter accepted).getLast? <;> rfl
      have hpattern : ((e :: es.filter accepted).filterMap pattern?).getLast?.getD j.pattern =
          ((es.filter accepted).filterMap pattern?).getLast?.getD (e.pattern?.getD j.pattern) := by
        cases hw : e.pattern? with
        | none => rw [List.filterMap_cons_none hw, Option.getD_none]
        | some text =>
          rw [List.filterMap_cons_some hw, List.getLast?_cons, Option.getD_some, Option.getD_some]
      rw [afterTurn_of_accepted h, List.filter_cons_of_pos h, hlevel, hpattern]

theorem threshold_eq_off_iff (h : e.accepted = true) :
    e.threshold = .off ↔ e.level = some ("off" : Text) := by
  have hname := fault?_eq_none_iff.1 (Option.isNone_iff_eq_none.1 h)
  obtain ⟨level, pattern⟩ := e
  cases level with
  | none => simp [threshold]
  | some name =>
    rw [Option.some_inj]
    exact Level.spelled_eq_off_iff (hname name rfl)

/-- Environments in turn, with no regard to failures. Each one fails that sets the level to what is
no name, with a message in which this is quoted, and changes nothing in the session, whatever
pattern it has. In the end the threshold is that of the last one that was accepted, and the pattern
is the last one of those that were accepted and had one. Nothing else in the session has changed. -/
theorem configureInTurn_all_or_nothing (es : List Environment) (s : Session σ) :
    (configureInTurn es).exec s =
        (.ok (es.map fault?), { s with
          journal := { s.journal with
            threshold := ((es.filter accepted).getLast?.map threshold).getD s.journal.threshold
            pattern :=
              ((es.filter accepted).filterMap pattern?).getLast?.getD s.journal.pattern } }) ∧
      (∀ e : Environment,
        (∀ u : Session σ, (∃ f t, e.configure.exec u = (.error f, t)) ↔
          ∃ name, e.level = some name ∧ name ∉ Level.spellings) ∧
        (∀ (u t : Session σ) (f : Fault), e.configure.exec u = (.error f, t) →
          t = u ∧ e.fault? = some f ∧ ∃ name, e.level = some name ∧
            f.wording = "splitpolicy: unknown log level '" ++ name ++ "'" ∧
            (0 ∉ name.bytes → f.message = f.wording)) ∧
        (e.accepted = true → (e.threshold = .off ↔ e.level = some ("off" : Text)))) ∧
      ∀ name, (Level.ofName name =
        if Level.spelled name = .off ∧ name ≠ "off" then .error (.unknownLevel name)
          else .ok (Level.spelled name)) ∧
        ∀ l, Level.ofName name = .ok l ↔ Level.names.lookup name = some l := by
  refine ⟨?_, fun e => ⟨fun u => ?_, fun u t f h => ?_, threshold_eq_off_iff⟩,
    fun name => ⟨rfl, fun l => Level.ofName_eq_ok_iff⟩⟩
  · rw [exec_configureInTurn, foldl_afterTurn]
  · constructor
    · rintro ⟨f, t, h⟩
      obtain ⟨name, hlevel, hname, -⟩ := fault?_eq_some_iff.1 (exec_configure_error_iff.1 h).1
      exact ⟨name, hlevel, hname⟩
    · rintro ⟨name, hlevel, hname⟩
      exact ⟨_, u, exec_configure_of_fault (fault?_eq_some_iff.2 ⟨name, hlevel, hname, rfl⟩) u⟩
  · obtain ⟨hfault, rfl⟩ := exec_configure_error_iff.1 h
    obtain ⟨name, hlevel, -, rfl⟩ := fault?_eq_some_iff.1 hfault
    exact ⟨rfl, hfault, name, hlevel, rfl, Fault.message_unknownLevel⟩

example (s : Session σ) :
    (configureInTurn [⟨some "debug", some "%v"⟩, ⟨some "", some "lost"⟩, ⟨none, some ""⟩,
      ⟨some "loud", some "lost too"⟩]).exec s =
      (.ok [none, some (.unknownLevel ""), none, some (.unknownLevel "loud")],
        { s with journal := { s.journal with threshold := .warn, pattern := "%v" } }) := rfl

end Environment

end LayoutRules
