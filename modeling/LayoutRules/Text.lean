namespace LayoutRules

/-- Text is a sequence of bytes. Labels and tags may hold any byte, and texts are compared and
ordered byte by byte. -/
structure Text where
  bytes : List UInt8
deriving DecidableEq, Inhabited

namespace Text

def ofString (s : String) : Text := ⟨s.toUTF8.data.toList⟩

instance : Coe String Text := ⟨ofString⟩

def toString? (t : Text) : Option String := String.fromUTF8? ⟨t.bytes.toArray⟩

def isEmpty (t : Text) : Bool := t.bytes.isEmpty

instance : Append Text := ⟨fun s t => ⟨s.bytes ++ t.bytes⟩⟩

@[simp]
theorem bytes_append (s t : Text) : (s ++ t).bytes = s.bytes ++ t.bytes := rfl

instance : LT Text := ⟨fun s t => s.bytes < t.bytes⟩

instance (s t : Text) : Decidable (s < t) := inferInstanceAs (Decidable (s.bytes < t.bytes))

theorem lt_trans {s t u : Text} (h : s < t) (k : t < u) : s < u :=
  List.lt_trans (show s.bytes < t.bytes from h) k

theorem lt_of_not_lt {s t : Text} (h : ¬s < t) (hne : t ≠ s) : t < s := by
  refine Classical.byContradiction fun k => hne ?_
  have he : t.bytes = s.bytes := List.le_antisymm h k
  cases s
  cases t
  simp_all

def startsWith (t start : Text) : Bool := start.bytes.isPrefixOf t.bytes

def untilZero (t : Text) : Text := ⟨t.bytes.takeWhile (· != 0)⟩

theorem untilZero_of_zero_notMem {t : Text} (h : 0 ∉ t.bytes) : t.untilZero = t := by
  cases t with
  | mk bs =>
    simp only [untilZero, mk.injEq]
    induction bs with
    | nil => rfl
    | cons b bs ih =>
      simp only [List.mem_cons, not_or] at h
      have hb : (b != 0) = true := by simpa using fun e : b = 0 => h.1 e.symm
      simp [hb, ih h.2]

def ofNat (n : Nat) : Text := ⟨(Nat.toDigits 10 n).map (fun c => c.toNat.toUInt8)⟩

def ofInt : Int → Text
  | .ofNat n => ofNat n
  | .negSucc n => "-" ++ ofNat (n + 1)

end Text

end LayoutRules
