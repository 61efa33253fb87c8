import LayoutRules.Text

namespace LayoutRules

structure Names (α : Type) where
  entries : List (Text × α) := []
  sorted : entries.Pairwise (fun a b => a.1 < b.1) := by simp

namespace Names

variable {α : Type}

instance : Inhabited (Names α) := ⟨{}⟩

def get? (t : Names α) (name : Text) : Option α := t.entries.lookup name

def insertEntry (name : Text) (a : α) : List (Text × α) → List (Text × α)
  | [] => [(name, a)]
  | e :: es =>
    if e.1 = name then (name, a) :: es
    else if name < e.1 then (name, a) :: e :: es
    else e :: insertEntry name a es

theorem fst_of_mem_insertEntry {name : Text} {a : α} {es : List (Text × α)} {x : Text × α}
    (h : x ∈ insertEntry name a es) : x.1 = name ∨ x ∈ es := by
  induction es with
  | nil =>
    left
    simp_all [insertEntry]
  | cons e es ih =>
    simp only [insertEntry] at h
    split at h
    · rcases List.mem_cons.1 h with rfl | h
      · exact .inl rfl
      · exact .inr (List.mem_cons_of_mem e h)
    · split at h
      · rcases List.mem_cons.1 h with rfl | h
        · exact .inl rfl
        · exact .inr h
      · rcases List.mem_cons.1 h with rfl | h
        · exact .inr List.mem_cons_self
        · exact (ih h).imp_right (List.mem_cons_of_mem e)

theorem sorted_insertEntry (name : Text) (a : α) {es : List (Text × α)}
    (h : es.Pairwise (fun a b => a.1 < b.1)) :
    (insertEntry name a es).Pairwise (fun a b => a.1 < b.1) := by
  induction es with
  | nil => simp [insertEntry]
  | cons e es ih =>
    obtain ⟨he, hs⟩ := List.pairwise_cons.1 h
    simp only [insertEntry]
    split
    · rename_i heq
      exact List.pairwise_cons.2 ⟨fun x hx => heq ▸ he x hx, hs⟩
    · rename_i hne
      split
      · rename_i hlt
        refine List.pairwise_cons.2 ⟨fun x hx => ?_, h⟩
        rcases List.mem_cons.1 hx with rfl | hx
        · exact hlt
        · exact Text.lt_trans hlt (he x hx)
      · rename_i hlt
        refine List.pairwise_cons.2 ⟨fun x hx => ?_, ih hs⟩
        rcases fst_of_mem_insertEntry hx with hx | hx
        · exact hx ▸ Text.lt_of_not_lt hlt hne
        · exact he x hx

def insert (t : Names α) (name : Text) (a : α) : Names α :=
  ⟨insertEntry name a t.entries, sorted_insertEntry name a t.sorted⟩

def erase (t : Names α) (name : Text) : Names α :=
  ⟨t.entries.filter (fun e => e.1 ≠ name), t.sorted.filter _⟩

def select (t : Names α) (p : α → Bool) : List Text :=
  (t.entries.filter (fun e => p e.2)).map Prod.fst

end Names

end LayoutRules
