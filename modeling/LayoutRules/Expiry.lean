import LayoutRules.Boundary

namespace LayoutRules

/-- Which side of a boundary an expiry watches, and whether its own offset is still inside. -/
inductive Edge where
  | after
  | before
  | on
deriving DecidableEq, Inhabited

def Edge.name : Edge → Text
  | .after => "after"
  | .before => "before"
  | .on => "on"

def Edge.symbol : Edge → Text
  | .after => ">"
  | .before => "<"
  | .on => "@"

structure Expiry where
  edge : Edge
  offset : Int
deriving DecidableEq, Inhabited

namespace Expiry

def ofToken (edge : Edge) (t : Token) : Expiry := ⟨edge, t.stop⟩

def activeAt (e : Expiry) (b : Boundary) : Bool :=
  match e.edge with
  | .after => b.left.stop ≤ e.offset
  | .before => b.right.stop < e.offset
  | .on => b.right.stop ≤ e.offset

theorem activeAt_of_notAfter {e : Expiry} {b c : Boundary} (h : b.NotAfter c)
    (k : e.activeAt c = true) : e.activeAt b = true := by
  obtain ⟨edge, offset⟩ := e
  have hl := h.1
  have hr := h.2
  cases edge <;> simp only [activeAt, decide_eq_true_eq] at k ⊢ <;> omega

def render (e : Expiry) : Text := e.edge.symbol ++ Text.ofInt e.offset

end Expiry

end LayoutRules
