import LayoutRules.Text

namespace LayoutRules

/-- What stands between two tokens. A code beyond the three that have a name is a gap of its own. -/
inductive Gap where
  | joined
  | space
  | newline
  | unnamed (code : Int) (beyond : code < 0 ∨ 2 < code)
deriving DecidableEq

namespace Gap

def ofCode (code : Int) : Gap :=
  if h : code < 0 ∨ 2 < code then .unnamed code h
  else if code = 0 then .joined
  else if code = 1 then .space
  else .newline

def name : Gap → Text
  | .joined => "NoSplit"
  | .space => "Space"
  | .newline => "Newline"
  | .unnamed .. => "?"

end Gap

structure Candidate where
  gap : Gap := .joined
  cost : Int := 0
  tag : Text := ""
deriving DecidableEq

namespace Candidate

def isNewline (c : Candidate) : Bool := c.gap = .newline

def render (c : Candidate) : Text :=
  let head := c.gap.name ++ "[" ++ Text.ofInt c.cost ++ "]"
  if c.tag.isEmpty then head else head ++ ":" ++ c.tag

end Candidate

end LayoutRules
