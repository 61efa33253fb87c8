import LayoutRules.Level

namespace LayoutRules

structure Entry where
  level : Level
  text : Text
deriving DecidableEq

/-- What is written down while rules are used. Only entries at or above the threshold are kept. -/
structure Journal where
  threshold : Level := .warn
  pattern : Text := ""
  entries : Array Entry := #[]

namespace Journal

def name : Text := "splitpolicy"

def keeps (j : Journal) (l : Level) : Bool := j.threshold.rank ≤ l.rank

def write (j : Journal) (e : Entry) : Journal :=
  if j.keeps e.level then { j with entries := j.entries.push e } else j

theorem write_of_keeps {j : Journal} {e : Entry} (h : j.keeps e.level = true) :
    (j.write e).entries = j.entries.push e := by
  simp [write, h]

theorem write_of_not_keeps {j : Journal} {e : Entry} (h : j.keeps e.level = false) :
    j.write e = j := by
  simp [write, h]

@[simp]
theorem threshold_write (j : Journal) (e : Entry) : (j.write e).threshold = j.threshold := by
  unfold write
  split <;> rfl

@[simp]
theorem pattern_write (j : Journal) (e : Entry) : (j.write e).pattern = j.pattern := by
  unfold write
  split <;> rfl

end Journal

end LayoutRules
