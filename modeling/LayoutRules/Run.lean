import LayoutRules.Choice
import LayoutRules.Journal

namespace LayoutRules

/-- What a run carries along: the next serial number for a new rule, the journal, and the state of
the client whose overrides, recipes and tests are called. -/
structure Session (σ : Type) where
  nextSerial : Nat := 0
  journal : Journal := {}
  client : σ

/-- A step that may fail. A failure keeps what the session had become by then, and no step gives
back a serial number. -/
structure Run (σ α : Type) where
  exec : Session σ → Except Fault α × Session σ
  nextSerial_le : ∀ s, s.nextSerial ≤ (exec s).2.nextSerial

/-- A client's answer to a choice. No answer means that the choice is outside its domain. -/
abbrev Override (σ : Type) := Choice → Run σ (Option (List Candidate))

namespace Run

variable {σ α β : Type}

@[ext]
theorem ext {x y : Run σ α} (h : ∀ s, x.exec s = y.exec s) : x = y := by
  cases x
  cases y
  congr
  exact funext h

theorem nextSerial_le_of_exec {x : Run σ α} {s t : Session σ} {a : Except Fault α}
    (h : x.exec s = (a, t)) : s.nextSerial ≤ t.nextSerial := by
  have hle := x.nextSerial_le s
  rwa [h] at hle

@[always_inline, inline]
protected def pure (a : α) : Run σ α := ⟨fun s => (.ok a, s), fun _ => Nat.le_refl _⟩

@[always_inline, inline]
protected def bind (x : Run σ α) (f : α → Run σ β) : Run σ β where
  exec s :=
    match x.exec s with
    | (.ok a, t) => (f a).exec t
    | (.error e, t) => (.error e, t)
  nextSerial_le s := by
    have h := x.nextSerial_le s
    split
    · rename_i a t ht
      rw [ht] at h
      exact Nat.le_trans h ((f a).nextSerial_le t)
    · rename_i ht
      rwa [ht] at h

instance : Monad (Run σ) where
  pure := Run.pure
  bind := Run.bind

@[simp]
theorem exec_pure (a : α) (s : Session σ) : (pure a : Run σ α).exec s = (.ok a, s) := rfl

theorem exec_bind (x : Run σ α) (f : α → Run σ β) (s : Session σ) :
    (x >>= f).exec s =
      match x.exec s with
      | (.ok a, t) => (f a).exec t
      | (.error e, t) => (.error e, t) := rfl

theorem exec_bind_ok {x : Run σ α} {f : α → Run σ β} {s t : Session σ} {a : α}
    (h : x.exec s = (.ok a, t)) : (x >>= f).exec s = (f a).exec t := by
  rw [exec_bind, h]

theorem exec_bind_error {x : Run σ α} {f : α → Run σ β} {s t : Session σ} {e : Fault}
    (h : x.exec s = (.error e, t)) : (x >>= f).exec s = (.error e, t) := by
  rw [exec_bind, h]

theorem exec_bind_eq_ok {x : Run σ α} {f : α → Run σ β} {s t : Session σ} {b : β} :
    (x >>= f).exec s = (.ok b, t) ↔
      ∃ a u, x.exec s = (.ok a, u) ∧ (f a).exec u = (.ok b, t) := by
  rw [exec_bind]
  constructor
  · intro h
    split at h
    · rename_i a u ha
      exact ⟨a, u, ha, h⟩
    · cases h
  · rintro ⟨a, u, ha, h⟩
    rw [ha]
    exact h

theorem exec_map_eq_ok {x : Run σ α} {f : α → β} {s t : Session σ} {b : β} :
    (f <$> x).exec s = (.ok b, t) ↔ ∃ a, x.exec s = (.ok a, t) ∧ f a = b := by
  show (x >>= fun a => pure (f a)).exec s = _ ↔ _
  rw [exec_bind_eq_ok]
  simp only [exec_pure, Prod.mk.injEq, Except.ok.injEq]
  exact ⟨fun ⟨a, _, h, hb, ht⟩ => ⟨a, ht ▸ h, hb⟩, fun ⟨a, h, hb⟩ => ⟨a, t, h, hb, rfl⟩⟩

instance : LawfulMonad (Run σ) := LawfulMonad.mk' (Run σ)
  (fun x => by
    ext s : 1
    show (x >>= pure).exec s = x.exec s
    rw [exec_bind]
    rcases x.exec s with ⟨_ | _, _⟩ <;> rfl)
  (fun _ _ => rfl)
  (fun x f g => by
    ext s : 1
    simp only [exec_bind]
    rcases x.exec s with ⟨_ | _, _⟩ <;> rfl)

@[inline]
def fail (f : Fault) : Run σ α := ⟨fun s => (.error f, s), fun _ => Nat.le_refl _⟩

def fresh : Run σ Nat :=
  ⟨fun s => (.ok s.nextSerial, { s with nextSerial := s.nextSerial + 1 }),
    fun s => Nat.le_succ s.nextSerial⟩

/-- Writes an entry. Its text is made only if the journal keeps it. -/
def write (level : Level) (text : Unit → Text) : Run σ Unit where
  exec s :=
    (.ok (), if s.journal.keeps level then
      { s with journal := s.journal.write ⟨level, text ()⟩ } else s)
  nextSerial_le s := by
    show _ ≤ Session.nextSerial (ite _ _ _)
    split <;> exact Nat.le_refl _

@[simp]
theorem exec_write (level : Level) (text : Unit → Text) (s : Session σ) :
    (write level text).exec s =
      (.ok (), { s with journal := s.journal.write ⟨level, text ()⟩ }) := by
  show (Except.ok (), ite _ _ _) = _
  split
  · rfl
  · rename_i h
    rw [Journal.write_of_not_keeps (by simpa using h)]

def onClient (f : σ → α × σ) : Run σ α :=
  ⟨fun ⟨n, journal, client⟩ => let r := f client; (.ok r.1, ⟨n, journal, r.2⟩),
    fun _ => Nat.le_refl _⟩

def ofExcept (r : Except Fault α) : Run σ α := ⟨fun s => (r, s), fun _ => Nat.le_refl _⟩

def onJournal (f : Journal → Journal) : Run σ Unit :=
  ⟨fun s => (.ok (), { s with journal := f s.journal }), fun _ => Nat.le_refl _⟩

def attempt (x : Run σ α) : Run σ (Option Fault) where
  exec s :=
    match x.exec s with
    | (.ok _, t) => (.ok none, t)
    | (.error f, t) => (.ok (some f), t)
  nextSerial_le s := by
    have h := x.nextSerial_le s
    split <;> rename_i ht <;> rwa [ht] at h

theorem exec_attempt_ok {x : Run σ α} {s t : Session σ} {a : α} (h : x.exec s = (.ok a, t)) :
    x.attempt.exec s = (.ok none, t) := by
  simp only [attempt, h]

theorem exec_attempt_error {x : Run σ α} {s t : Session σ} {f : Fault}
    (h : x.exec s = (.error f, t)) : x.attempt.exec s = (.ok (some f), t) := by
  simp only [attempt, h]

end Run

end LayoutRules
