import LayoutRules.Journal

namespace LayoutRules

/-- The variables from which settings are read. A variable that is unset has no value; one that is
set may be empty. -/
structure Environment where
  level : Option Text := none
  pattern : Option Text := none

/-- Exports the two variables. A variable holds what stands before the first zero byte. -/
def Environment.exporting (level pattern : Option Text) : Environment :=
  ⟨level.map Text.untilZero, pattern.map Text.untilZero⟩

structure Settings where
  level : Level := .warn
  pattern : Text := ""
deriving DecidableEq

namespace Settings

def ofEnvironment (e : Environment) : Except Fault Settings := do
  let level ← match e.level with
    | some name => Level.ofName name
    | none => .ok .warn
  return ⟨level, e.pattern.getD ""⟩

theorem ofEnvironment_set {name : Text} {l : Level} (h : Level.ofName name = .ok l)
    (pattern : Option Text) :
    ofEnvironment ⟨some name, pattern⟩ = .ok ⟨l, pattern.getD ""⟩ := by
  simp only [ofEnvironment, h]
  rfl

theorem ofEnvironment_refused {name : Text} {f : Fault} (h : Level.ofName name = .error f)
    (pattern : Option Text) : ofEnvironment ⟨some name, pattern⟩ = .error f := by
  simp only [ofEnvironment, h]
  rfl

end Settings

/-- Takes over the level, and the pattern unless it is empty. -/
def Journal.configure (j : Journal) (s : Settings) : Journal :=
  { j with
    threshold := s.level
    pattern := if s.pattern.isEmpty then j.pattern else s.pattern }

def Journal.configureFrom (j : Journal) (e : Environment) : Except Fault Journal :=
  (Settings.ofEnvironment e).map j.configure

def Journal.configureEach (j : Journal) : List Environment → Except Fault (List Journal)
  | [] => return []
  | e :: es => do
    let j ← j.configureFrom e
    return j :: (← j.configureEach es)

end LayoutRules
