import LayoutRules.Rule.Basic

namespace LayoutRules

variable {σ φ : Type}

structure Clause (σ φ : Type) where
  rule : Rule σ φ
  label : Text
  expiry : Expiry
  isDerived : Bool

abbrev Test (σ φ : Type) := Clause σ φ → Run σ Bool

def Test.absent : Test σ φ := fun _ => Run.fail .absentCall

def Test.not (test : Test σ φ) : Test σ φ := fun c => do return !(← test c)

namespace Rule

/-- Whether a search must keep what this rule governs in its queue. A derived rule asks the rule it
comes from. -/
def blocks : Rule σ φ → Bool
  | .empty => false
  | .clause _ _ _ blocking _ => blocking
  | .seq _ _ p q => p.blocks || q.blocks
  | .alt _ _ p q => p.blocks || q.blocks
  | .derived _ source _ _ _ _ => source.blocks

/-- Every clause and derived rule in it, a derived rule before the rule it comes from. -/
def clauses : Rule σ φ → List (Clause σ φ)
  | .empty => []
  | .clause n body expiry blocking label =>
    [⟨.clause n body expiry blocking label, label, expiry, false⟩]
  | .seq _ _ p q => p.clauses ++ q.clauses
  | .alt _ _ p q => p.clauses ++ q.clauses
  | .derived n source recipe body expiry label =>
    ⟨.derived n source recipe body expiry label, label, expiry, true⟩ :: source.clauses

def any (r : Rule σ φ) (test : Test σ φ) : Run σ Bool :=
  match r with
  | .empty => return false
  | .clause n body expiry blocking label =>
    test ⟨.clause n body expiry blocking label, label, expiry, false⟩
  | .seq _ _ p q => do
    if ← p.any test then return true else q.any test
  | .alt _ _ p q => do
    if ← p.any test then return true else q.any test
  | .derived n source recipe body expiry label => do
    if ← test ⟨.derived n source recipe body expiry label, label, expiry, true⟩ then return true
    else source.any test

def anyOf (test : Test σ φ) : List (Clause σ φ) → Run σ Bool
  | [] => return false
  | c :: cs => do
    if ← test c then return true else anyOf test cs

@[simp]
theorem anyOf_singleton (test : Test σ φ) (c : Clause σ φ) : anyOf test [c] = test c := by
  refine Eq.trans ?_ (bind_pure (test c))
  simp only [anyOf]
  congr 1
  funext b
  cases b <;> rfl

theorem anyOf_append (test : Test σ φ) (cs ds : List (Clause σ φ)) :
    anyOf test (cs ++ ds) = (do if ← anyOf test cs then return true else anyOf test ds) := by
  induction cs with
  | nil => simp [anyOf]
  | cons c cs ih =>
    simp only [List.cons_append, anyOf, ih, bind_assoc]
    congr 1
    funext b
    cases b <;> simp

theorem any_eq_anyOf_clauses (r : Rule σ φ) (test : Test σ φ) :
    r.any test = anyOf test r.clauses := by
  induction r with
  | empty => rfl
  | clause => simp only [any, clauses, anyOf_singleton]
  | seq _ _ p q ihp ihq => simp only [any, clauses, anyOf_append, ihp, ihq]
  | alt _ _ p q ihp ihq => simp only [any, clauses, anyOf_append, ihp, ihq]
  | derived _ source _ _ _ _ ih => simp only [any, clauses, anyOf, ih]

end Rule

def Clause.blocks (c : Clause σ φ) : Bool := c.rule.blocks

end LayoutRules
