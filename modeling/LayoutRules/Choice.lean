import LayoutRules.Boundary
import LayoutRules.Candidate

namespace LayoutRules

structure Choice where
  boundary : Boundary
  candidates : List Candidate
deriving DecidableEq

namespace Choice

def withCandidates (c : Choice) (candidates : List Candidate) : Choice := ⟨c.boundary, candidates⟩

@[simp]
theorem boundary_withCandidates (c : Choice) (cs : List Candidate) :
    (c.withCandidates cs).boundary = c.boundary := rfl

@[simp]
theorem candidates_withCandidates (c : Choice) (cs : List Candidate) :
    (c.withCandidates cs).candidates = cs := rfl

@[simp]
theorem withCandidates_candidates (c : Choice) : c.withCandidates c.candidates = c := rfl

def newlines (c : Choice) : List Candidate := c.candidates.filter Candidate.isNewline

def nonNewlines (c : Choice) : List Candidate := c.candidates.filter (fun x => !x.isNewline)

end Choice

end LayoutRules
