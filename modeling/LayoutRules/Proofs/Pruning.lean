import LayoutRules.Rule.Outline

namespace LayoutRules

variable {σ φ : Type}

/-- What no pruning changes of a clause or of a derived rule. -/
structure Mark where
  label : Text
  expiry : Expiry
  isDerived : Bool
deriving DecidableEq

def Clause.mark (c : Clause σ φ) : Mark := ⟨c.label, c.expiry, c.isDerived⟩

def Mark.activeAt (b : Boundary) (m : Mark) : Bool := m.expiry.activeAt b

/-- All that may be seen of a clause or of a derived rule. Whether a derived rule blocks may change
when its source is pruned. -/
structure Profile where
  mark : Mark
  blocks : Bool
deriving DecidableEq

def Clause.profile (c : Clause σ φ) : Profile := ⟨c.mark, c.blocks⟩

namespace Outline

def isEmpty : Outline σ φ → Bool
  | .empty => true
  | _ => false

theorem isEmpty_iff {o : Outline σ φ} : o.isEmpty = true ↔ o = .empty := by
  cases o <;> simp [isEmpty]

def join (make : Outline σ φ → Outline σ φ → Outline σ φ) (p q : Outline σ φ) : Outline σ φ :=
  if q.isEmpty then p else if p.isEmpty then q else make p q

def followedBy (p q : Outline σ φ) : Outline σ φ := join .seq p q

def otherwise (p q : Outline σ φ) : Outline σ φ := join .alt p q

def derive (source : Outline σ φ) (recipe : φ) (expiry : Expiry) (label : Text) : Outline σ φ :=
  if source.isEmpty then .empty else .derived source recipe expiry label

/-- What is left of a tree without the clauses and derived rules whose marks are not kept. -/
def prune (keep : Mark → Bool) : Outline σ φ → Outline σ φ
  | .empty => .empty
  | .clause n body expiry blocking label =>
    if keep ⟨label, expiry, false⟩ then .clause n body expiry blocking label else .empty
  | .seq p q => (p.prune keep).followedBy (q.prune keep)
  | .alt p q => (p.prune keep).otherwise (q.prune keep)
  | .derived source recipe expiry label =>
    if keep ⟨label, expiry, true⟩ then (source.prune keep).derive recipe expiry label else .empty

def narrow (b : Boundary) (o : Outline σ φ) : Outline σ φ := o.prune (Mark.activeAt b)

/-- Like pruning, but by profiles. That of a derived rule is seen before its source is sifted. -/
def sift (keep : Profile → Bool) : Outline σ φ → Outline σ φ
  | .empty => .empty
  | .clause n body expiry blocking label =>
    if keep ⟨⟨label, expiry, false⟩, blocking⟩ then .clause n body expiry blocking label else .empty
  | .seq p q => (p.sift keep).followedBy (q.sift keep)
  | .alt p q => (p.sift keep).otherwise (q.sift keep)
  | .derived source recipe expiry label =>
    if keep ⟨⟨label, expiry, true⟩, source.blocks⟩ then
      (source.sift keep).derive recipe expiry label
    else
      .empty

/-- The recipes in a tree, each with the label of what is derived by it. -/
def derivations : Outline σ φ → List (φ × Text)
  | .empty => []
  | .clause .. => []
  | .seq p q => p.derivations ++ q.derivations
  | .alt p q => p.derivations ++ q.derivations
  | .derived source recipe _ label => (recipe, label) :: source.derivations

def recipes : Outline σ φ → List φ
  | .empty => []
  | .clause .. => []
  | .seq p q => p.recipes ++ q.recipes
  | .alt p q => p.recipes ++ q.recipes
  | .derived source recipe _ _ => recipe :: source.recipes

def bodies : Outline σ φ → List (Override σ)
  | .empty => []
  | .clause _ body _ _ _ => [body]
  | .seq p q => p.bodies ++ q.bodies
  | .alt p q => p.bodies ++ q.bodies
  | .derived source _ _ _ => source.bodies

variable {make : Outline σ φ → Outline σ φ → Outline σ φ} {keep : Mark → Bool}

theorem recipes_eq_map_derivations (o : Outline σ φ) : o.recipes = o.derivations.map Prod.fst := by
  induction o with
  | empty | clause => rfl
  | seq p q ihp ihq | alt p q ihp ihq =>
    simp only [recipes, derivations, List.map_append, ihp, ihq]
  | derived source recipe expiry label ih => simp only [recipes, derivations, List.map_cons, ih]

theorem prune_eq_sift (keep : Mark → Bool) (o : Outline σ φ) :
    o.prune keep = o.sift fun x => keep x.mark := by
  induction o with
  | empty | clause => rfl
  | seq p q ihp ihq | alt p q ihp ihq => simp only [prune, sift, ihp, ihq]
  | derived source recipe expiry label ih => simp only [prune, sift, ih]

theorem narrow_eq_sift (b : Boundary) (o : Outline σ φ) :
    o.narrow b = o.sift fun x => x.mark.activeAt b :=
  prune_eq_sift _ o

@[simp]
theorem join_empty (p : Outline σ φ) : join make p .empty = p := rfl

@[simp]
theorem empty_join (q : Outline σ φ) : join make .empty q = q := by
  cases q <;> rfl

theorem join_of_ne {p q : Outline σ φ} (hp : p ≠ .empty) (hq : q ≠ .empty) :
    join make p q = make p q := by
  simp [join, isEmpty_iff, hp, hq]

@[simp]
theorem derive_empty (recipe : φ) (expiry : Expiry) (label : Text) :
    derive (.empty : Outline σ φ) recipe expiry label = .empty := rfl

theorem derive_of_ne {p : Outline σ φ} (hp : p ≠ .empty) (recipe : φ) (expiry : Expiry)
    (label : Text) : p.derive recipe expiry label = .derived p recipe expiry label := by
  simp [derive, isEmpty_iff, hp]

theorem map_join {f : Outline σ φ → Outline σ φ} (he : f .empty = .empty)
    (hm : ∀ p q, f (make p q) = join make (f p) (f q)) (p q : Outline σ φ) :
    f (join make p q) = join make (f p) (f q) := by
  by_cases hq : q = .empty
  · subst hq
    simp only [join_empty, he]
  · by_cases hp : p = .empty
    · subst hp
      simp only [empty_join, he]
    · rw [join_of_ne hp hq, hm]

theorem prune_followedBy (p q : Outline σ φ) :
    (p.followedBy q).prune keep = (p.prune keep).followedBy (q.prune keep) :=
  map_join rfl (fun _ _ => rfl) p q

theorem prune_otherwise (p q : Outline σ φ) :
    (p.otherwise q).prune keep = (p.prune keep).otherwise (q.prune keep) :=
  map_join rfl (fun _ _ => rfl) p q

theorem prune_derive (p : Outline σ φ) (recipe : φ) (expiry : Expiry) (label : Text) :
    (p.derive recipe expiry label).prune keep =
      if keep ⟨label, expiry, true⟩ then (p.prune keep).derive recipe expiry label else .empty := by
  by_cases hp : p = .empty
  · subst hp
    simp [prune]
  · rw [derive_of_ne hp, prune]

/-- Pruning what has been sifted is sifting once with both conditions, although what is left of the
tree in between may have another shape. A second sifting would not do: in between, derived rules may
have come to block no longer. -/
theorem prune_sift (k : Profile → Bool) (k' : Mark → Bool) (o : Outline σ φ) :
    (o.sift k).prune k' = o.sift fun x => k x && k' x.mark := by
  induction o with
  | empty => rfl
  | clause n body expiry blocking label =>
    cases h : k ⟨⟨label, expiry, false⟩, blocking⟩ <;> simp [prune, sift, h]
  | seq p q ihp ihq => rw [sift, prune_followedBy, ihp, ihq, sift]
  | alt p q ihp ihq => rw [sift, prune_otherwise, ihp, ihq, sift]
  | derived source recipe expiry label ih =>
    cases h : k ⟨⟨label, expiry, true⟩, source.blocks⟩ with
    | true => simp only [sift, h, if_true, Bool.true_and, prune_derive, ih]
    | false => simp [prune, sift, h]

theorem prune_prune (k k' : Mark → Bool) (o : Outline σ φ) :
    (o.prune k).prune k' = o.prune fun m => k m && k' m := by
  rw [prune_eq_sift k, prune_sift, prune_eq_sift]

theorem narrow_narrow {b c : Boundary} (h : b.NotAfter c) (o : Outline σ φ) :
    (o.narrow b).narrow c = o.narrow c := by
  have hk : (fun m => Mark.activeAt b m && Mark.activeAt c m) = Mark.activeAt c := by
    funext m
    cases hc : Mark.activeAt c m with
    | true =>
      have hb : Mark.activeAt b m = true := Expiry.activeAt_of_notAfter h hc
      rw [hb]
      rfl
    | false => exact Bool.and_false _
  rw [narrow, narrow, narrow, prune_prune, hk]

theorem join_subset {α : Type} {f : Outline σ φ → List α}
    (hm : ∀ p q, f (make p q) = f p ++ f q) (p q : Outline σ φ) :
    f (join make p q) ⊆ f p ++ f q := by
  unfold join
  split
  · exact List.subset_append_left _ _
  · split
    · exact List.subset_append_right _ _
    · rw [hm]
      exact List.Subset.refl _

/-- A tree that comes of another one when some clauses and derived rules are taken out of it. -/
inductive Remnant : Outline σ φ → Outline σ φ → Prop
  | none (o : Outline σ φ) : Remnant .empty o
  | clause (n : Nat) (body : Override σ) (expiry : Expiry) (blocking : Bool) (label : Text) :
    Remnant (.clause n body expiry blocking label) (.clause n body expiry blocking label)
  | seq {p' p q' q : Outline σ φ} (hp : Remnant p' p) (hq : Remnant q' q) :
    Remnant (p'.followedBy q') (.seq p q)
  | alt {p' p q' q : Outline σ φ} (hp : Remnant p' p) (hq : Remnant q' q) :
    Remnant (p'.otherwise q') (.alt p q)
  | derived {source' source : Outline σ φ} (recipe : φ) (expiry : Expiry) (label : Text)
    (h : Remnant source' source) :
    Remnant (source'.derive recipe expiry label) (.derived source recipe expiry label)

theorem remnant_sift (keep : Profile → Bool) (o : Outline σ φ) : Remnant (o.sift keep) o := by
  induction o with
  | empty => exact .none _
  | clause =>
    rw [sift]
    split
    · exact .clause ..
    · exact .none _
  | seq p q ihp ihq => exact .seq ihp ihq
  | alt p q ihp ihq => exact .alt ihp ihq
  | derived source recipe expiry label ih =>
    rw [sift]
    split
    · exact .derived recipe expiry label ih
    · exact .none _

/-- What is gathered from all over a tree, and from nothing but its clauses and recipes. -/
structure Gathers {α : Type} (f : Outline σ φ → List α) : Prop where
  empty : f .empty = []
  seq : ∀ p q, f (.seq p q) = f p ++ f q
  alt : ∀ p q, f (.alt p q) = f p ++ f q
  derived : ∀ {p q} recipe expiry label, f p ⊆ f q →
    f (.derived p recipe expiry label) ⊆ f (.derived q recipe expiry label)

theorem gathers_recipes : Gathers (recipes : Outline σ φ → List φ) where
  empty := rfl
  seq _ _ := rfl
  alt _ _ := rfl
  derived recipe _ _ h := List.cons_subset_cons recipe h

theorem gathers_derivations : Gathers (derivations : Outline σ φ → List (φ × Text)) where
  empty := rfl
  seq _ _ := rfl
  alt _ _ := rfl
  derived recipe _ label h := List.cons_subset_cons (recipe, label) h

theorem gathers_bodies : Gathers (bodies : Outline σ φ → List (Override σ)) where
  empty := rfl
  seq _ _ := rfl
  alt _ _ := rfl
  derived _ _ _ h := h

namespace Gathers

variable {α : Type} {f : Outline σ φ → List α}

theorem empty_subset (hf : Gathers f) (xs : List α) : f .empty ⊆ xs := by
  rw [hf.empty]
  exact List.nil_subset xs

theorem followedBy_subset (hf : Gathers f) (p q : Outline σ φ) : f (p.followedBy q) ⊆ f p ++ f q :=
  join_subset hf.seq p q

theorem otherwise_subset (hf : Gathers f) (p q : Outline σ φ) : f (p.otherwise q) ⊆ f p ++ f q :=
  join_subset hf.alt p q

theorem derive_subset (hf : Gathers f) (p : Outline σ φ) (recipe : φ) (expiry : Expiry)
    (label : Text) : f (p.derive recipe expiry label) ⊆ f (.derived p recipe expiry label) := by
  unfold derive
  split
  · exact hf.empty_subset _
  · exact List.Subset.refl _

theorem remnant_subset (hf : Gathers f) {p q : Outline σ φ} (h : Remnant p q) : f p ⊆ f q := by
  induction h with
  | none => exact hf.empty_subset _
  | clause => exact List.Subset.refl _
  | seq _ _ ihp ihq =>
    rw [hf.seq]
    refine List.Subset.trans (hf.followedBy_subset _ _) (List.append_subset.2 ⟨?_, ?_⟩)
    · exact List.subset_append_of_subset_left _ ihp
    · exact List.subset_append_of_subset_right _ ihq
  | alt _ _ ihp ihq =>
    rw [hf.alt]
    refine List.Subset.trans (hf.otherwise_subset _ _) (List.append_subset.2 ⟨?_, ?_⟩)
    · exact List.subset_append_of_subset_left _ ihp
    · exact List.subset_append_of_subset_right _ ihq
  | derived recipe expiry label _ ih =>
    exact List.Subset.trans (hf.derive_subset _ _ _ _) (hf.derived _ _ _ ih)

theorem sift_subset (hf : Gathers f) (keep : Profile → Bool) (o : Outline σ φ) :
    f (o.sift keep) ⊆ f o :=
  hf.remnant_subset (o.remnant_sift keep)

theorem prune_subset (hf : Gathers f) (keep : Mark → Bool) (o : Outline σ φ) :
    f (o.prune keep) ⊆ f o := by
  rw [prune_eq_sift]
  exact hf.sift_subset _ o

end Gathers

end Outline

theorem Rule.isEmpty_outline (r : Rule σ φ) : r.outline.isEmpty = r.isEmpty := by
  cases r <;> rfl

end LayoutRules
