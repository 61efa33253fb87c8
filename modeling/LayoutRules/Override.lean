import LayoutRules.Run

namespace LayoutRules.Override

variable {σ : Type}

def undefined : Override σ := fun _ => return none

def total (f : Choice → List Candidate) : Override σ := fun c => return some (f c)

def keep (p : Candidate → Bool) : Override σ := total fun c => c.candidates.filter p

def newlines : Override σ := total Choice.newlines

def nonNewlines : Override σ := total Choice.nonNewlines

def only (p : Choice → Bool) (f : Override σ) : Override σ := fun c =>
  if p c then f c else return none

def failing (f : Fault) : Override σ := fun _ => Run.fail f

/-- The first acts on the candidates that are given, and the second on what the first leaves. Each
passes on what it was given where it has no answer, so that the two together always answer. -/
def followedBy (f g : Override σ) : Override σ := fun c => do
  let kept := (← f c).getD c.candidates
  return some ((← g (c.withCandidates kept)).getD kept)

def otherwise (f g : Override σ) : Override σ := fun c => do
  match ← f c with
  | some cs => return some cs
  | none => g c

end LayoutRules.Override
