import LayoutRules.Rule.Operations

namespace LayoutRules

/-- How far one search has come: the rule in force, what its candidates have cost, and how many it
has taken. -/
structure Trail (σ φ : Type) where
  rule : Rule σ φ := .empty
  cost : Int := 0
  depth : Nat := 0

namespace Trail

variable {σ φ : Type} [Recipe φ σ]

def ofRule (r : Rule σ φ) : Trail σ φ := { rule := r }

def blocks (t : Trail σ φ) : Bool := t.rule.blocks

def narrow (t : Trail σ φ) (b : Boundary) : Run σ (Trail σ φ) := do
  return { t with rule := ← t.rule.narrow b }

/-- The candidates that are open at a choice. The trail itself is not narrowed. -/
def candidates (t : Trail σ φ) (c : Choice) : Run σ (List Candidate) := do
  let r ← t.rule.narrow c.boundary
  r.resolve c

def noteAttached (sign : Text) (r : Rule σ φ) : Run σ Unit :=
  if r.isEmpty then pure () else Run.write .debug fun _ => "attach " ++ sign ++ " " ++ r.render

def attach (t : Trail σ φ) (r : Rule σ φ) : Run σ (Trail σ φ) := do
  let rule ← t.rule.followedBy r
  noteAttached "&" r
  return { t with rule }

/-- The rule acts where those in force do not. -/
def attachFallback (t : Trail σ φ) (r : Rule σ φ) : Run σ (Trail σ φ) := do
  let rule ← t.rule.otherwise r
  noteAttached "|" r
  return { t with rule }

def without (t : Trail σ φ) (test : Test σ φ) : Run σ (Trail σ φ) := do
  return { t with rule := ← t.rule.filter test.not }

def blockingText (t : Trail σ φ) (b : Boundary) : Text :=
  "path at boundary " ++ Text.ofNat b.index ++ " blocks dequeue: " ++ t.rule.render

/-- Takes a candidate: narrows to the boundary, then attaches the rule, which is therefore in force
from the next boundary on. -/
def advance (t : Trail σ φ) (c : Choice) (taken : Candidate) (r : Rule σ φ) :
    Run σ (Trail σ φ) := do
  let narrowed ← t.narrow c.boundary
  let attached ← narrowed.attach r
  let next := { attached with cost := attached.cost + taken.cost, depth := attached.depth + 1 }
  if next.blocks then Run.write .debug fun _ => next.blockingText c.boundary
  return next

omit [Recipe φ σ] in
theorem exec_noteAttached (sign : Text) (r : Rule σ φ) (s : Session σ) :
    ∃ j, (noteAttached sign r).exec s = (.ok (), { s with journal := j }) := by
  unfold noteAttached
  split
  · exact ⟨s.journal, rfl⟩
  · exact ⟨_, Run.exec_write _ _ s⟩

omit [Recipe φ σ] in
theorem exec_attach {t : Trail σ φ} {r q : Rule σ φ} {s u : Session σ}
    (h : (t.rule.followedBy r).exec s = (.ok q, u)) :
    ∃ j, (t.attach r).exec s = (.ok { t with rule := q }, { u with journal := j }) := by
  obtain ⟨j, hj⟩ := exec_noteAttached "&" r u
  refine ⟨j, ?_⟩
  rw [attach, Run.exec_bind_ok h, Run.exec_bind_ok hj]
  rfl

omit [Recipe φ σ] in
theorem exec_attachFallback {t : Trail σ φ} {r q : Rule σ φ} {s u : Session σ}
    (h : (t.rule.otherwise r).exec s = (.ok q, u)) :
    ∃ j, (t.attachFallback r).exec s = (.ok { t with rule := q }, { u with journal := j }) := by
  obtain ⟨j, hj⟩ := exec_noteAttached "|" r u
  refine ⟨j, ?_⟩
  rw [attachFallback, Run.exec_bind_ok h, Run.exec_bind_ok hj]
  rfl

theorem exec_narrow {t : Trail σ φ} {b : Boundary} {q : Rule σ φ} {s u : Session σ}
    (h : (t.rule.narrow b).exec s = (.ok q, u)) :
    (t.narrow b).exec s = (.ok { t with rule := q }, u) := by
  rw [narrow, Run.exec_bind_ok h]
  rfl

theorem exec_advance {t : Trail σ φ} {c : Choice} (taken : Candidate) {r p q : Rule σ φ}
    {s u v : Session σ} (hp : (t.rule.narrow c.boundary).exec s = (.ok p, u))
    (hq : (p.followedBy r).exec u = (.ok q, v)) :
    ∃ j, (t.advance c taken r).exec s =
      (.ok ⟨q, t.cost + taken.cost, t.depth + 1⟩, { v with journal := j }) := by
  obtain ⟨j, hj⟩ := exec_attach (t := { t with rule := p }) hq
  rw [advance, Run.exec_bind_ok (exec_narrow hp), Run.exec_bind_ok hj]
  cases hb : q.blocks with
  | true =>
    simp only [blocks, hb, ↓reduceIte]
    exact ⟨_, Run.exec_bind_ok (Run.exec_write _ _ _)⟩
  | false => exact ⟨j, by simp [blocks, hb]⟩

theorem exec_narrow_eq_ok {t t' : Trail σ φ} {b : Boundary} {s u : Session σ}
    (h : (t.narrow b).exec s = (.ok t', u)) :
    ∃ q, (t.rule.narrow b).exec s = (.ok q, u) ∧ t' = { t with rule := q } := by
  obtain ⟨q, v, hq, h⟩ := Run.exec_bind_eq_ok.1 h
  cases h
  exact ⟨q, hq, rfl⟩

theorem exec_advance_eq_ok {t t' : Trail σ φ} {c : Choice} {taken : Candidate} {r : Rule σ φ}
    {s u : Session σ} (h : (t.advance c taken r).exec s = (.ok t', u)) :
    ∃ p q v w j, (t.rule.narrow c.boundary).exec s = (.ok p, v) ∧
      (p.followedBy r).exec v = (.ok q, w) ∧
      t' = ⟨q, t.cost + taken.cost, t.depth + 1⟩ ∧ u = { w with journal := j } := by
  obtain ⟨t₁, v, h₁, _⟩ := Run.exec_bind_eq_ok.1 h
  obtain ⟨p, hp, -⟩ := exec_narrow_eq_ok h₁
  obtain ⟨q, w, hq, -⟩ := Rule.exec_join _ p r v
  obtain ⟨j, hj⟩ := exec_advance taken hp hq
  cases hj.symm.trans h
  exact ⟨p, q, v, w, j, hp, hq, rfl, rfl⟩

end Trail

end LayoutRules
