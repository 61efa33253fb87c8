import LayoutRules.Proofs.Sifting

namespace LayoutRules

variable {σ φ : Type}

def Rule.recipe? : Rule σ φ → Option φ
  | .derived _ _ recipe _ _ _ => some recipe
  | _ => none

def Clause.stem (c : Clause σ φ) : Mark × Option φ := (c.mark, c.rule.recipe?)

/-- A clause or a derived rule where it stands in a rule: in the sources of the derived rules above
it, of which the outermost comes first. -/
structure Place (σ φ : Type) where
  clause : Clause σ φ
  above : List (Clause σ φ) := []

namespace Place

def under (c : Clause σ φ) (x : Place σ φ) : Place σ φ := { x with above := c :: x.above }

def stems (x : Place σ φ) : List (Mark × Option φ) := x.above.map Clause.stem

/-- Whether what stands there is kept, and all that it is derived by way of. -/
def kept (keep : Clause σ φ → Bool) (x : Place σ φ) : Bool := keep x.clause && x.above.all keep

theorem kept_iff {keep : Clause σ φ → Bool} {x : Place σ φ} :
    x.kept keep = true ↔ keep x.clause = true ∧ ∀ c ∈ x.above, keep c = true := by
  simp [kept]

theorem kept_under (keep : Clause σ φ → Bool) (c : Clause σ φ) (x : Place σ φ) :
    (x.under c).kept keep = (keep c && x.kept keep) := by
  simp only [kept, under, List.all_cons, Bool.and_left_comm]

theorem kept_comp_under {keep : Clause σ φ → Bool} {c : Clause σ φ} (h : keep c = true) :
    kept keep ∘ under c = kept keep := by
  funext x
  rw [Function.comp_apply, kept_under, h, Bool.true_and]

theorem kept_comp_under_of_not {keep : Clause σ φ → Bool} {c : Clause σ φ} (h : keep c = false) :
    kept keep ∘ under c = fun _ => false := by
  funext x
  rw [Function.comp_apply, kept_under, h, Bool.false_and]

end Place

namespace Rule

/-- Every clause and derived rule with what it stands in, a derived rule before its source. -/
def places : Rule σ φ → List (Place σ φ)
  | .empty => []
  | .clause n body expiry blocking label =>
    [{ clause := ⟨.clause n body expiry blocking label, label, expiry, false⟩ }]
  | .seq _ _ p q => p.places ++ q.places
  | .alt _ _ p q => p.places ++ q.places
  | .derived n source recipe body expiry label =>
    let c := ⟨.derived n source recipe body expiry label, label, expiry, true⟩
    { clause := c } :: source.places.map (.under c)

def leaves (r : Rule σ φ) : List (Place σ φ) := r.places.filter fun x => !x.clause.isDerived

def offshoots (r : Rule σ φ) : List (Place σ φ) := r.places.filter fun x => x.clause.isDerived

theorem map_clause_places (r : Rule σ φ) : r.places.map Place.clause = r.clauses := by
  induction r with
  | empty | clause => rfl
  | seq _ _ p q ihp ihq | alt _ _ p q ihp ihq =>
    simp only [places, clauses, List.map_append, ihp, ihq]
  | derived _ source _ _ _ _ ih =>
    simp only [places, clauses, List.map_cons, List.map_map, ← ih]
    rfl

section

variable (n : Nat) (body : Override σ) (p q source : Rule σ φ) (recipe : φ) (expiry : Expiry)
  (blocking : Bool) (label : Text)

@[simp]
theorem leaves_clause : (clause n body expiry blocking label : Rule σ φ).leaves =
    [{ clause := ⟨clause n body expiry blocking label, label, expiry, false⟩ }] := rfl

@[simp]
theorem leaves_seq : (seq n body p q).leaves = p.leaves ++ q.leaves :=
  List.filter_append _ _

@[simp]
theorem leaves_alt : (alt n body p q).leaves = p.leaves ++ q.leaves :=
  List.filter_append _ _

@[simp]
theorem leaves_derived : (derived n source recipe body expiry label).leaves = source.leaves.map
    (.under ⟨derived n source recipe body expiry label, label, expiry, true⟩) := List.filter_map

@[simp]
theorem offshoots_seq : (seq n body p q).offshoots = p.offshoots ++ q.offshoots :=
  List.filter_append _ _

@[simp]
theorem offshoots_alt : (alt n body p q).offshoots = p.offshoots ++ q.offshoots :=
  List.filter_append _ _

@[simp]
theorem offshoots_derived : (derived n source recipe body expiry label).offshoots =
    { clause := ⟨derived n source recipe body expiry label, label, expiry, true⟩ } ::
      source.offshoots.map
        (.under ⟨derived n source recipe body expiry label, label, expiry, true⟩) :=
  congrArg (List.cons _) List.filter_map

end

theorem blocks_eq_any_leaves (r : Rule σ φ) : r.blocks = r.leaves.any fun x => x.clause.blocks := by
  induction r with
  | empty => rfl
  | clause => simp [blocks, Clause.blocks]
  | seq _ _ p q ihp ihq | alt _ _ p q ihp ihq => simp [blocks, ihp, ihq]
  | derived _ source _ _ _ _ ih =>
    rw [leaves_derived, List.any_map]
    exact ih

end Rule

end LayoutRules
