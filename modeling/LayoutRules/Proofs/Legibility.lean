import LayoutRules.Candidate
import Mathlib.Data.Set.Function

namespace LayoutRules

namespace Text

theorem bytes_append_inj {M : UInt8 → Prop} {xs ys s t : List UInt8} {a b : UInt8}
    (hx : ∀ x ∈ xs, ¬ M x) (hy : ∀ y ∈ ys, ¬ M y) (ha : M a) (hb : M b)
    (h : xs ++ a :: s = ys ++ b :: t) : xs = ys ∧ a = b ∧ s = t := by
  induction xs generalizing ys with
  | nil =>
    cases ys with
    | nil => exact ⟨rfl, List.cons.inj h⟩
    | cons y ys =>
      obtain ⟨rfl, -⟩ := List.cons.inj h
      exact absurd ha (hy a List.mem_cons_self)
  | cons x xs ih =>
    rw [List.forall_mem_cons] at hx
    cases ys with
    | nil =>
      obtain ⟨rfl, -⟩ := List.cons.inj h
      exact absurd hb hx.1
    | cons y ys =>
      rw [List.forall_mem_cons] at hy
      obtain ⟨rfl, h'⟩ := List.cons.inj h
      obtain ⟨rfl, hab⟩ := ih hx.2 hy.2 h'
      exact ⟨rfl, hab⟩

def IsDigit (b : UInt8) : Prop := 48 ≤ b ∧ b ≤ 57

instance : DecidablePred IsDigit := fun b => inferInstanceAs (Decidable (48 ≤ b ∧ b ≤ 57))

theorem toNat_of_mem_toDigits {n : Nat} {c : Char} (h : c ∈ Nat.toDigits 10 n) :
    48 ≤ c.toNat ∧ c.toNat ≤ 57 :=
  Char.isDigit_iff_toNat.1 (Nat.isDigit_of_mem_toDigits (by decide) (by decide) h)

theorem toNat_toUInt8_of_mem_toDigits {n : Nat} {c : Char} (h : c ∈ Nat.toDigits 10 n) :
    c.toNat.toUInt8.toNat = c.toNat := by
  have hd := toNat_of_mem_toDigits h
  exact Nat.mod_eq_of_lt (by omega)

theorem isDigit_of_mem_ofNat {n : Nat} : ∀ b ∈ (ofNat n).bytes, IsDigit b := by
  intro b hb
  obtain ⟨c, hc, rfl⟩ := List.mem_map.1 hb
  rw [IsDigit, UInt8.le_iff_toNat_le, UInt8.le_iff_toNat_le, toNat_toUInt8_of_mem_toDigits hc]
  exact toNat_of_mem_toDigits hc

theorem ofNat_injective : Function.Injective ofNat := by
  -- The digits are read back from the bytes, and the number from its digits.
  have hread : ∀ n,
      Nat.ofDigitChars 10 ((ofNat n).bytes.map fun b => Char.ofNat b.toNat) 0 = n := by
    intro n
    have hmap : (ofNat n).bytes.map (fun b => Char.ofNat b.toNat) = Nat.toDigits 10 n := by
      rw [ofNat, List.map_map]
      refine (List.map_congr_left fun c hc => ?_).trans (List.map_id _)
      rw [Function.comp_apply, toNat_toUInt8_of_mem_toDigits hc, Char.ofNat_toNat, id]
    rw [hmap, Nat.ofDigitChars_ten_toDigits]
  intro m n h
  rw [← hread m, h, hread n]

theorem ofNat_ne (n : Nat) : (ofNat n).bytes ≠ [] := by
  simp [ofNat, Nat.toDigits_ne_nil]

theorem ofNat_append_inj {m n : Nat} {a b : UInt8} {s t : List UInt8} (ha : ¬ IsDigit a)
    (hb : ¬ IsDigit b) (h : (ofNat m).bytes ++ a :: s = (ofNat n).bytes ++ b :: t) :
    m = n ∧ a = b ∧ s = t := by
  have hdigit : ∀ {n}, ∀ x ∈ (ofNat n).bytes, ¬ ¬ IsDigit x := fun x hx =>
    Decidable.not_not.2 (isDigit_of_mem_ofNat x hx)
  obtain ⟨hbytes, hab⟩ := bytes_append_inj (M := fun x => ¬ IsDigit x) hdigit hdigit ha hb h
  exact ⟨ofNat_injective (congrArg mk hbytes), hab⟩

theorem ofNat_append_ne_minus {n : Nat} {s t : List UInt8} : (ofNat n).bytes ++ s ≠ 45 :: t := by
  intro h
  obtain ⟨d, ds, hds⟩ := List.exists_cons_of_ne_nil (ofNat_ne n)
  have hd : IsDigit d := isDigit_of_mem_ofNat d (hds ▸ List.mem_cons_self)
  rw [hds] at h
  obtain ⟨rfl, -⟩ := List.cons.inj h
  exact absurd hd (by decide)

theorem ofInt_append_inj {m n : Int} {a b : UInt8} {s t : List UInt8} (ha : ¬ IsDigit a)
    (hb : ¬ IsDigit b) (h : (ofInt m).bytes ++ a :: s = (ofInt n).bytes ++ b :: t) :
    m = n ∧ a = b ∧ s = t := by
  cases m with
  | ofNat m =>
    cases n with
    | ofNat n =>
      obtain ⟨rfl, hab⟩ := ofNat_append_inj ha hb h
      exact ⟨rfl, hab⟩
    | negSucc n => exact absurd h ofNat_append_ne_minus
  | negSucc m =>
    cases n with
    | ofNat n => exact absurd h.symm ofNat_append_ne_minus
    | negSucc n =>
      obtain ⟨hmn, hab⟩ := ofNat_append_inj ha hb (List.cons.inj h).2
      obtain rfl : m = n := Nat.succ.inj hmn
      exact ⟨rfl, hab⟩

end Text

namespace Gap

def Named (g : Gap) : Prop := g = .joined ∨ g = .space ∨ g = .newline

instance (g : Gap) : Decidable g.Named := inferInstanceAs (Decidable (_ ∨ _ ∨ _))

theorem named_iff {g : Gap} : g.Named ↔ g.name ≠ "?" := by
  cases g with
  | joined | space | newline => decide
  | unnamed code beyond => simp [Named, name]

theorem name_injOn : Set.InjOn name {g | g.Named} := by
  rintro g (rfl | rfl | rfl) g' (rfl | rfl | rfl) h <;> revert h <;> decide

theorem name_eq_iff {g g' : Gap} (hg : g.Named) : g.name = g'.name ↔ g = g' := by
  refine ⟨fun h => ?_, congrArg name⟩
  have hg' : g'.Named := named_iff.2 (h ▸ named_iff.1 hg)
  exact name_injOn hg hg' h

theorem ne_opening_of_mem_name (g : Gap) : ∀ b ∈ g.name.bytes, ¬ b = 91 := by
  cases g with
  | joined | space | newline | unnamed =>
    simp only [name]
    decide +kernel

end Gap

namespace Candidate

def trailer (tag : Text) : List UInt8 := if tag.isEmpty then [] else 58 :: tag.bytes

theorem trailer_injective : Function.Injective trailer := by
  rintro ⟨bs⟩ ⟨bs'⟩ h
  cases bs with
  | nil =>
    cases bs' with
    | nil => rfl
    | cons b' bs' => cases h
  | cons b bs =>
    cases bs' with
    | nil => cases h
    | cons b' bs' => exact congrArg Text.mk (List.cons.inj h).2

theorem bytes_render (c : Candidate) :
    c.render.bytes =
      c.gap.name.bytes ++ 91 :: ((Text.ofInt c.cost).bytes ++ 93 :: trailer c.tag) := by
  unfold render trailer
  split <;> simp only [Text.bytes_append, List.append_assoc] <;> rfl

/-- The rendering tells the name of the gap, the cost and the tag, whatever the tag holds. -/
theorem render_eq_render_iff {a b : Candidate} :
    a.render = b.render ↔ a.gap.name = b.gap.name ∧ a.cost = b.cost ∧ a.tag = b.tag := by
  constructor
  · intro h
    have hbytes := congrArg Text.bytes h
    rw [bytes_render, bytes_render] at hbytes
    -- The name ends at the first bracket and the cost behind its digits. All the rest is the tag's.
    obtain ⟨hname, -, hrest⟩ := Text.bytes_append_inj (M := (· = 91)) a.gap.ne_opening_of_mem_name
      b.gap.ne_opening_of_mem_name rfl rfl hbytes
    obtain ⟨hcost, -, htag⟩ := Text.ofInt_append_inj (by decide) (by decide) hrest
    exact ⟨congrArg Text.mk hname, hcost, trailer_injective htag⟩
  · rintro ⟨hname, hcost, htag⟩
    simp only [render, hname, hcost, htag]

/-- A candidate whose gap has a name is rendered like no other candidate. -/
theorem render_inj_of_named {a b : Candidate} (ha : a.gap.Named) :
    a.render = b.render ↔ a = b := by
  rw [render_eq_render_iff, Gap.name_eq_iff ha]
  cases a
  cases b
  simp only [mk.injEq]

end Candidate

namespace Scenario

def tagged : Candidate := ⟨.space, -1, "x"⟩

def echoing : Candidate := ⟨.space, -1, "[-1]:x"⟩

theorem echoing_render_inj :
    echoing.gap.Named ∧ (echoing.render = tagged.render ↔ echoing = tagged) ∧
      echoing.render = "Space[-1]:[-1]:x" ∧ tagged.render = "Space[-1]:x" := by
  have hnamed : echoing.gap.Named := by decide
  exact ⟨hnamed, Candidate.render_inj_of_named hnamed, by decide +kernel, by decide +kernel⟩

example : Candidate.render ⟨.ofCode 3, -1, "x"⟩ = Candidate.render ⟨.ofCode (-1), -1, "x"⟩ := by
  decide

end Scenario

end LayoutRules
