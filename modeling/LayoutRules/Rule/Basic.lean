import LayoutRules.Expiry
import LayoutRules.Override

namespace LayoutRules

/-- A rule changes which candidates are open at a boundary. Every rule but the empty one has the
serial number under which it was made, and two rules are the same one if these agree. It also has
an override of its own, made when the rule was made. A derived rule keeps the rule it comes from
and the recipe, so that it can be derived anew. -/
inductive Rule (σ φ : Type) where
  | empty
  | clause (serial : Nat) (body : Override σ) (expiry : Expiry) (blocking : Bool) (label : Text)
  | seq (serial : Nat) (body : Override σ) (first second : Rule σ φ)
  | alt (serial : Nat) (body : Override σ) (first second : Rule σ φ)
  | derived (serial : Nat) (source : Rule σ φ) (recipe : φ) (body : Override σ) (expiry : Expiry)
      (label : Text)

class Recipe (φ : Type) (σ : outParam Type) where
  derive : φ → Rule σ φ → Run σ (Option (Override σ))

namespace Rule

variable {σ φ : Type}

instance : Inhabited (Rule σ φ) := ⟨.empty⟩

def isEmpty : Rule σ φ → Bool
  | .empty => true
  | _ => false

theorem isEmpty_iff {r : Rule σ φ} : r.isEmpty = true ↔ r = .empty := by
  cases r <;> simp [isEmpty]

def serial? : Rule σ φ → Option Nat
  | .empty => none
  | .clause n .. => some n
  | .seq n .. => some n
  | .alt n .. => some n
  | .derived n .. => some n

def answer : Rule σ φ → Override σ
  | .empty => Override.undefined
  | .clause _ body _ _ _ => body
  | .seq _ body _ _ => body
  | .alt _ body _ _ => body
  | .derived _ _ _ body _ _ => body

/-- Whether two rules are one and the same, which is more than being built alike. All empty rules
are the same. -/
def same (p q : Rule σ φ) : Bool := p.serial? = q.serial?

@[simp]
theorem same_self (p : Rule σ φ) : p.same p = true := by simp [same]

theorem same_comm (p q : Rule σ φ) : p.same q = q.same p := by simp [same, eq_comm]

def clauseOf (expiry : Expiry) (body : Option (Override σ)) (label : Text) (blocking : Bool) :
    Run σ (Rule σ φ) := do
  match body with
  | some f => return .clause (← Run.fresh) f expiry blocking label
  | none => Run.fail (.clauseWithoutOverride label)

/-- A rule derived by a recipe, which is called before the rule gets its serial number. Nothing
comes of the empty rule. -/
def derive [Recipe φ σ] (source : Rule σ φ) (expiry : Expiry) (recipe : φ) (label : Text) :
    Run σ (Rule σ φ) := do
  if source.isEmpty then return .empty
  match ← Recipe.derive recipe source with
  | some f => return .derived (← Run.fresh) source recipe f expiry label
  | none => Run.fail (.recipeWithoutOverride label)

/-- A missing recipe is refused whatever the rule it was meant for. -/
def derivedBy [Recipe φ σ] (source : Rule σ φ) (expiry : Expiry) (recipe : Option φ)
    (label : Text) : Run σ (Rule σ φ) :=
  match recipe with
  | some g => source.derive expiry g label
  | none => Run.fail (.derivedWithoutRecipe label)

/-- What two rules come to together: one of them if the other is empty, and else a new rule. -/
def join (make : Nat → Rule σ φ) (p q : Rule σ φ) : Run σ (Rule σ φ) := do
  if q.isEmpty then return p
  if p.isEmpty then return q
  return make (← Run.fresh)

def followedBy (p q : Rule σ φ) : Run σ (Rule σ φ) :=
  join (fun n => .seq n (p.answer.followedBy q.answer) p q) p q

def otherwise (p q : Rule σ φ) : Run σ (Rule σ φ) :=
  join (fun n => .alt n (p.answer.otherwise q.answer) p q) p q

/-- A rule made of two whose parts have been cut down. It stays the same if both parts do, and else
the parts are put together again. -/
def rejoin (whole p q p' q' : Rule σ φ) (again : Run σ (Rule σ φ)) : Run σ (Rule σ φ) :=
  if p'.same p && q'.same q then return whole else again

@[simp]
theorem empty_join (make : Nat → Rule σ φ) (q : Rule σ φ) : join make .empty q = pure q := by
  cases q <;> rfl

theorem join_of_ne {p q : Rule σ φ} (hp : p ≠ .empty) (hq : q ≠ .empty) (make : Nat → Rule σ φ) :
    join make p q = make <$> Run.fresh := by
  simp [join, isEmpty_iff, hp, hq]

@[simp]
theorem derive_empty [Recipe φ σ] (expiry : Expiry) (recipe : φ) (label : Text) :
    derive (.empty : Rule σ φ) expiry recipe label = pure .empty := rfl

theorem derive_of_ne [Recipe φ σ] {p : Rule σ φ} (hp : p ≠ .empty) (expiry : Expiry) (recipe : φ)
    (label : Text) :
    p.derive expiry recipe label = (do
      match ← Recipe.derive recipe p with
      | some f => return .derived (← Run.fresh) p recipe f expiry label
      | none => Run.fail (.recipeWithoutOverride label)) := by
  simp [derive, isEmpty_iff, hp]

theorem exec_join (make : Nat → Rule σ φ) (p q : Rule σ φ) (s : Session σ) :
    ∃ r t, (join make p q).exec s = (.ok r, t) ∧
      ((q = .empty ∧ r = p ∧ t = s) ∨ (p = .empty ∧ r = q ∧ t = s) ∨
        (p ≠ .empty ∧ q ≠ .empty ∧ r = make s.nextSerial ∧
          t = { s with nextSerial := s.nextSerial + 1 })) := by
  by_cases hq : q = .empty
  · subst hq
    exact ⟨p, s, rfl, .inl ⟨rfl, rfl, rfl⟩⟩
  · by_cases hp : p = .empty
    · subst hp
      exact ⟨q, s, by simp, .inr (.inl ⟨rfl, rfl, rfl⟩)⟩
    · rw [join_of_ne hp hq]
      exact ⟨_, _, rfl, .inr (.inr ⟨hp, hq, rfl, rfl⟩)⟩

theorem rejoin_cases (whole p q p' q' : Rule σ φ) (again : Run σ (Rule σ φ)) :
    (p'.same p = true ∧ q'.same q = true ∧ rejoin whole p q p' q' again = pure whole) ∨
      ((p'.same p && q'.same q) = false ∧ rejoin whole p q p' q' again = again) := by
  unfold rejoin
  cases h : p'.same p && q'.same q with
  | true =>
    rw [Bool.and_eq_true] at h
    exact .inl ⟨h.1, h.2, rfl⟩
  | false => exact .inr ⟨rfl, rfl⟩

theorem exec_derive_eq_ok [Recipe φ σ] {p r : Rule σ φ} {expiry : Expiry} {recipe : φ}
    {label : Text} {s t : Session σ} :
    (p.derive expiry recipe label).exec s = (.ok r, t) ↔
      (p = .empty ∧ r = .empty ∧ t = s) ∨
        (p ≠ .empty ∧ ∃ f u, (Recipe.derive recipe p).exec s = (.ok (some f), u) ∧
          r = .derived u.nextSerial p recipe f expiry label ∧
          t = { u with nextSerial := u.nextSerial + 1 }) := by
  by_cases hp : p = .empty
  · subst hp
    simp [eq_comm]
  · rw [derive_of_ne hp, Run.exec_bind_eq_ok]
    simp only [hp, false_and, false_or, ne_eq, not_false_eq_true, true_and]
    constructor
    · rintro ⟨f, u, hf, h⟩
      cases f with
      | none => cases h
      | some f =>
        cases h
        exact ⟨f, u, hf, rfl, rfl⟩
    · rintro ⟨f, u, hf, rfl, rfl⟩
      exact ⟨some f, u, hf, rfl⟩

end Rule

end LayoutRules
