import LayoutRules.Proofs.Places
import Mathlib.Data.List.Basic

namespace LayoutRules

variable {σ φ : Type}

namespace Place

def stays (keep : Clause σ φ → Bool) (x : Place σ φ) : Bool :=
  x.kept keep && x.clause.rule.leaves.any (kept keep)

/-- What is to be seen of a clause and of the derived rules above it, however often those have been
derived anew. -/
def trace (x : Place σ φ) : Clause σ φ × List (Mark × Option φ) := (x.clause, x.stems)

def path (x : Place σ φ) : List (Mark × Option φ) := x.stems ++ [x.clause.stem]

theorem stays_under (keep : Clause σ φ → Bool) (c : Clause σ φ) (x : Place σ φ) :
    (x.under c).stays keep = (keep c && x.stays keep) := by
  rw [stays, kept_under, Bool.and_assoc]
  rfl

theorem stays_comp_under {keep : Clause σ φ → Bool} {c : Clause σ φ} (h : keep c = true) :
    stays keep ∘ under c = stays keep := by
  funext x
  rw [Function.comp_apply, stays_under, h, Bool.true_and]

theorem stays_comp_under_of_not {keep : Clause σ φ → Bool} {c : Clause σ φ} (h : keep c = false) :
    stays keep ∘ under c = fun _ => false := by
  funext x
  rw [Function.comp_apply, stays_under, h, Bool.false_and]

end Place

/-- How two leaves of a whole come together if their positions are counted across its two parts. A
leaf of the first part comes before each leaf of the second. -/
def Connective.meet (k : Connective) (size : Nat) (first second : Nat → Nat → Option Connective)
    (i j : Nat) : Option Connective :=
  if j < size then first i j else if i < size then some k else second (i - size) (j - size)

namespace Connective

variable {k : Connective} {size i j : Nat} {first second : Nat → Nat → Option Connective}

theorem meet_of_lt (hj : j < size) : k.meet size first second i j = first i j := if_pos hj

theorem meet_of_lt_of_le (hi : i < size) (hj : size ≤ j) :
    k.meet size first second i j = some k := by
  rw [meet, if_neg (Nat.not_lt.2 hj), if_pos hi]

theorem meet_of_le (hi : size ≤ i) (hj : size ≤ j) :
    k.meet size first second i j = second (i - size) (j - size) := by
  rw [meet, if_neg (Nat.not_lt.2 hj), if_neg (Nat.not_lt.2 hi)]

theorem exists_meet_eq_some {size' : Nat}
    (hf : ∀ {i j}, i < j → j < size → ∃ k, first i j = some k)
    (hs : ∀ {i j}, i < j → j < size' → ∃ k, second i j = some k) (hij : i < j)
    (hj : j < size + size') : ∃ k', k.meet size first second i j = some k' := by
  by_cases hjf : j < size
  · rw [meet_of_lt hjf]
    exact hf hij hjf
  by_cases hif : i < size
  · exact ⟨k, meet_of_lt_of_le hif (Nat.not_lt.1 hjf)⟩
  · rw [meet_of_le (Nat.not_lt.1 hif) (Nat.not_lt.1 hjf)]
    exact hs (by omega) (by omega)

end Connective

namespace Outline

/-- The clauses of a tree, each with what is derived by way of it. -/
def leaves : Outline σ φ → List (Clause σ φ × List (Mark × Option φ))
  | .empty => []
  | .clause n body expiry blocking label =>
    [(⟨.clause n body expiry blocking label, label, expiry, false⟩, [])]
  | .seq p q => p.leaves ++ q.leaves
  | .alt p q => p.leaves ++ q.leaves
  | .derived source recipe expiry label =>
    source.leaves.map fun x => (x.1, (⟨label, expiry, true⟩, some recipe) :: x.2)

/-- The derived rules of a tree, each with those above it. -/
def offshoots : Outline σ φ → List (List (Mark × Option φ))
  | .empty => []
  | .clause .. => []
  | .seq p q => p.offshoots ++ q.offshoots
  | .alt p q => p.offshoots ++ q.offshoots
  | .derived source recipe expiry label =>
    [(⟨label, expiry, true⟩, some recipe)] ::
      source.offshoots.map ((⟨label, expiry, true⟩, some recipe) :: ·)

/-- What puts the leaves at two positions together: the leaf at the first position is in the first
part of it and the leaf at the second position in the second part. There is no such thing if the
positions are not given from left to right. -/
def meet : Outline σ φ → Nat → Nat → Option Connective
  | .empty => fun _ _ => none
  | .clause .. => fun _ _ => none
  | .seq p q => Connective.seq.meet p.leaves.length p.meet q.meet
  | .alt p q => Connective.alt.meet p.leaves.length p.meet q.meet
  | .derived source _ _ _ => source.meet

theorem append_join {α : Type} {f : Outline σ φ → List α} (he : f .empty = []) (k : Connective)
    (hk : ∀ p q, f (k.node p q) = f p ++ f q) (p q : Outline σ φ) :
    f (join k.node p q) = f p ++ f q := by
  by_cases hq : q = .empty
  · subst hq
    rw [join_empty, he, List.append_nil]
  by_cases hp : p = .empty
  · subst hp
    rw [empty_join, he, List.nil_append]
  rw [join_of_ne hp hq, hk]

theorem leaves_join (k : Connective) (p q : Outline σ φ) :
    (join k.node p q).leaves = p.leaves ++ q.leaves :=
  append_join rfl k (by cases k <;> exact fun _ _ => rfl) p q

theorem offshoots_join (k : Connective) (p q : Outline σ φ) :
    (join k.node p q).offshoots = p.offshoots ++ q.offshoots :=
  append_join rfl k (by cases k <;> exact fun _ _ => rfl) p q

theorem leaves_derive (source : Outline σ φ) (recipe : φ) (expiry : Expiry) (label : Text) :
    (source.derive recipe expiry label).leaves =
      source.leaves.map fun x => (x.1, (⟨label, expiry, true⟩, some recipe) :: x.2) := by
  by_cases h : source = .empty
  · subst h
    rfl
  · rw [derive_of_ne h, leaves]

theorem meet_join (k : Connective) {p q : Outline σ φ} {j : Nat}
    (hj : j < (join k.node p q).leaves.length) (i : Nat) :
    (join k.node p q).meet i j = k.meet p.leaves.length p.meet q.meet i j := by
  by_cases hq : q = .empty
  · subst hq
    exact (Connective.meet_of_lt hj).symm
  by_cases hp : p = .empty
  · subst hp
    rw [empty_join]
    rfl
  rw [join_of_ne hp hq]
  cases k <;> rfl

theorem exists_meet_eq_some {o : Outline σ φ} {i j : Nat} (hij : i < j) (hj : j < o.leaves.length) :
    ∃ k, o.meet i j = some k := by
  induction o generalizing i j with
  | empty => exact absurd hj (Nat.not_lt_zero j)
  | clause =>
    have : j < 1 := hj
    omega
  | seq p q ihp ihq | alt p q ihp ihq =>
    exact Connective.exists_meet_eq_some ihp ihq hij (List.length_append ▸ hj)
  | derived source recipe expiry label ih => exact ih hij (by simpa [leaves] using hj)

end Outline

namespace Rule

theorem leaves_outline (r : Rule σ φ) : r.outline.leaves = r.leaves.map Place.trace := by
  induction r with
  | empty | clause => rfl
  | seq _ _ p q ihp ihq | alt _ _ p q ihp ihq =>
    simp only [outline, Outline.leaves, leaves_seq, leaves_alt, List.map_append, ihp, ihq]
  | derived _ source _ _ _ _ ih =>
    simp only [outline, Outline.leaves, leaves_derived, ih, List.map_map]
    rfl

theorem map_clause_leaves_congr {p q : Rule σ φ} (h : p.outline = q.outline) :
    p.leaves.map Place.clause = q.leaves.map Place.clause := by
  have hfst : ∀ r : Rule σ φ, r.leaves.map Place.clause = r.outline.leaves.map Prod.fst := by
    intro r
    rw [leaves_outline, List.map_map]
    rfl
  rw [hfst, hfst, h]

theorem offshoots_outline (r : Rule σ φ) : r.outline.offshoots = r.offshoots.map Place.path := by
  induction r with
  | empty | clause => rfl
  | seq _ _ p q ihp ihq | alt _ _ p q ihp ihq =>
    simp only [outline, Outline.offshoots, offshoots_seq, offshoots_alt, List.map_append, ihp, ihq]
  | derived _ source _ _ _ _ ih =>
    simp only [outline, Outline.offshoots, offshoots_derived, ih, List.map_cons, List.map_map]
    rfl

theorem leaves_remains (keep : Clause σ φ → Bool) (r : Rule σ φ) :
    (r.remains keep).leaves = (r.leaves.filter (Place.kept keep)).map Place.trace := by
  induction r with
  | empty => rfl
  | clause n body expiry blocking label =>
    cases h : keep ⟨.clause n body expiry blocking label, label, expiry, false⟩ <;>
      simp [remains, h, Place.kept, Outline.leaves, Place.trace, Place.stems]
  | seq _ _ p q ihp ihq =>
    rw [leaves_seq, List.filter_append, List.map_append, ← ihp, ← ihq]
    exact Outline.leaves_join .seq _ _
  | alt _ _ p q ihp ihq =>
    rw [leaves_alt, List.filter_append, List.map_append, ← ihp, ← ihq]
    exact Outline.leaves_join .alt _ _
  | derived n source recipe body expiry label ih =>
    rw [leaves_derived, List.filter_map, List.map_map]
    cases h : keep ⟨.derived n source recipe body expiry label, label, expiry, true⟩ with
    | true =>
      rw [Place.kept_comp_under h, remains, if_pos h, Outline.leaves_derive, ih, List.map_map]
      rfl
    | false =>
      rw [Place.kept_comp_under_of_not h, remains, if_neg (by simp [h])]
      simp [Outline.leaves]

theorem remains_eq_empty_iff {keep : Clause σ φ → Bool} {r : Rule σ φ} :
    r.remains keep = .empty ↔ ∀ x ∈ r.leaves, x.kept keep = false := by
  have hleaves : (r.remains keep).leaves = [] ↔ ∀ x ∈ r.leaves, x.kept keep = false := by
    simp [leaves_remains]
  rw [← hleaves]
  refine ⟨fun h => by rw [h]; rfl, fun h => ?_⟩
  clear hleaves
  induction r with
  | empty => rfl
  | clause n body expiry blocking label =>
    rw [remains] at h ⊢
    split at h
    · cases h
    · rename_i hk
      rw [if_neg hk]
  | seq _ _ p q ihp ihq =>
    obtain ⟨hp, hq⟩ := List.append_eq_nil_iff.1 ((Outline.leaves_join .seq _ _).symm.trans h)
    rw [remains, ihp hp, ihq hq]
    rfl
  | alt _ _ p q ihp ihq =>
    obtain ⟨hp, hq⟩ := List.append_eq_nil_iff.1 ((Outline.leaves_join .alt _ _).symm.trans h)
    rw [remains, ihp hp, ihq hq]
    rfl
  | derived n source recipe body expiry label ih =>
    rw [remains] at h ⊢
    split at h
    · rename_i hk
      rw [Outline.leaves_derive, List.map_eq_nil_iff] at h
      rw [if_pos hk, ih h]
      rfl
    · rename_i hk
      rw [if_neg hk]

theorem any_kept_leaves_iff {keep : Clause σ φ → Bool} {r : Rule σ φ} :
    r.leaves.any (Place.kept keep) = true ↔ r.remains keep ≠ .empty := by
  rw [ne_eq, remains_eq_empty_iff]
  simp

theorem stays_derived_iff {keep : Clause σ φ → Bool} {n : Nat} {source : Rule σ φ} {recipe : φ}
    {body : Override σ} {expiry : Expiry} {label : Text} :
    Place.stays keep
        { clause := ⟨.derived n source recipe body expiry label, label, expiry, true⟩ } = true ↔
      keep ⟨.derived n source recipe body expiry label, label, expiry, true⟩ = true ∧
        source.remains keep ≠ .empty := by
  cases h : keep ⟨.derived n source recipe body expiry label, label, expiry, true⟩ with
  | false => simp [Place.stays, Place.kept, h]
  | true =>
    rw [← any_kept_leaves_iff]
    simp [Place.stays, Place.kept, h, Function.comp_def, Place.under]

theorem offshoots_remains (keep : Clause σ φ → Bool) (r : Rule σ φ) :
    (r.remains keep).offshoots = (r.offshoots.filter (Place.stays keep)).map Place.path := by
  induction r with
  | empty => rfl
  | clause n body expiry blocking label =>
    rw [remains]
    split <;> rfl
  | seq _ _ p q ihp ihq =>
    rw [offshoots_seq, List.filter_append, List.map_append, ← ihp, ← ihq]
    exact Outline.offshoots_join .seq _ _
  | alt _ _ p q ihp ihq =>
    rw [offshoots_alt, List.filter_append, List.map_append, ← ihp, ← ihq]
    exact Outline.offshoots_join .alt _ _
  | derived n source recipe body expiry label ih =>
    rw [offshoots_derived, List.filter_cons, List.filter_map]
    cases h : keep ⟨.derived n source recipe body expiry label, label, expiry, true⟩ with
    | false =>
      rw [Place.stays_comp_under_of_not h, remains, if_neg (by simp [h]),
        if_neg (by simp [stays_derived_iff, h])]
      simp [Outline.offshoots]
    | true =>
      rw [Place.stays_comp_under h, remains, if_pos h]
      by_cases hs : source.remains keep = .empty
      · -- Where nothing is left of the source, the derived rules in it have gone, too.
        have hnone : source.offshoots.filter (Place.stays keep) = [] :=
          List.map_eq_nil_iff.1 (ih.symm.trans (by rw [hs]; rfl))
        rw [if_neg (by simp [stays_derived_iff, hs]), hnone, hs]
        rfl
      · rw [Outline.derive_of_ne hs, if_pos (stays_derived_iff.2 ⟨h, hs⟩), Outline.offshoots, ih,
          List.map_cons, List.map_map, List.map_map]
        rfl

/-- The positions of the leaves that are kept. -/
def keptPositions (keep : Clause σ φ → Bool) (r : Rule σ φ) : List Nat :=
  r.leaves.findIdxs (Place.kept keep)

theorem length_keptPositions (keep : Clause σ φ → Bool) (r : Rule σ φ) :
    (r.keptPositions keep).length = (r.remains keep).leaves.length := by
  rw [keptPositions, List.length_findIdxs, leaves_remains, List.length_map,
    List.countP_eq_length_filter]

theorem lt_of_getElem?_keptPositions {keep : Clause σ φ → Bool} {r : Rule σ φ} {i m : Nat}
    (h : (r.keptPositions keep)[i]? = some m) : m < r.outline.leaves.length := by
  obtain ⟨hi, rfl⟩ := List.getElem?_eq_some_iff.1 h
  rw [leaves_outline, List.length_map]
  exact List.getElem_findIdxs_lt hi

/-- Leaves that are kept come together as they did before. -/
def MeetAlike (keep : Clause σ φ → Bool) (r : Rule σ φ) : Prop :=
  ∀ {i j m n}, (r.keptPositions keep)[i]? = some m → (r.keptPositions keep)[j]? = some n → i < j →
    (r.remains keep).meet i j = r.outline.meet m n

theorem meetAlike_of_join (k : Connective) {keep : Clause σ φ → Bool} {p q r : Rule σ φ}
    (hleaves : r.leaves = p.leaves ++ q.leaves)
    (hremains : r.remains keep = Outline.join k.node (p.remains keep) (q.remains keep))
    (hmeet : r.outline.meet = k.meet p.outline.leaves.length p.outline.meet q.outline.meet)
    (ihp : MeetAlike keep p) (ihq : MeetAlike keep q) : MeetAlike keep r := by
  -- A position in the second part is counted from the end of the first one, before and after.
  have hpos : ∀ i, (r.keptPositions keep)[i]? =
      if i < (p.remains keep).leaves.length then (p.keptPositions keep)[i]?
      else (q.keptPositions keep)[i - (p.remains keep).leaves.length]?.map
        (· + p.outline.leaves.length) := by
    intro i
    rw [← length_keptPositions, leaves_outline, List.length_map, keptPositions, hleaves,
      List.findIdxs_append, List.findIdxs_start (s := 0 + p.leaves.length), List.getElem?_append,
      List.getElem?_map, Nat.zero_add]
    rfl
  intro i j m n hi hj hij
  have hlt : j < (r.remains keep).leaves.length := by
    rw [← length_keptPositions]
    exact (List.getElem?_eq_some_iff.1 hj).1
  rw [hremains] at hlt ⊢
  rw [Outline.meet_join k hlt, hmeet]
  rw [hpos] at hi hj
  -- Either both are in the first part, or the later one is in the second, or both are.
  by_cases hjp : j < (p.remains keep).leaves.length
  · rw [if_pos (Nat.lt_trans hij hjp)] at hi
    rw [if_pos hjp] at hj
    have hn := lt_of_getElem?_keptPositions hj
    rw [Connective.meet_of_lt hjp, Connective.meet_of_lt hn, ihp hi hj hij]
  have hjle := Nat.not_lt.1 hjp
  rw [if_neg hjp] at hj
  obtain ⟨n', hn', rfl⟩ := Option.map_eq_some_iff.1 hj
  by_cases hip : i < (p.remains keep).leaves.length
  · rw [if_pos hip] at hi
    have hm := lt_of_getElem?_keptPositions hi
    rw [Connective.meet_of_lt_of_le hip hjle, Connective.meet_of_lt_of_le hm (Nat.le_add_left _ _)]
  · have hile := Nat.not_lt.1 hip
    rw [if_neg hip] at hi
    obtain ⟨m', hm', rfl⟩ := Option.map_eq_some_iff.1 hi
    rw [Connective.meet_of_le hile hjle,
      Connective.meet_of_le (Nat.le_add_left _ _) (Nat.le_add_left _ _), Nat.add_sub_cancel,
      Nat.add_sub_cancel, ihq hm' hn' (by omega)]

theorem meetAlike (keep : Clause σ φ → Bool) (r : Rule σ φ) : MeetAlike keep r := by
  induction r with
  | empty =>
    intro i j m n hi
    cases hi
  | clause n body expiry blocking label =>
    intro i j m m' hi hj hij
    have hle : ((clause n body expiry blocking label : Rule σ φ).keptPositions keep).length ≤ 1 := by
      rw [keptPositions, List.length_findIdxs]
      exact List.countP_le_length
    have hlt := (List.getElem?_eq_some_iff.1 hj).1
    omega
  | seq n body p q ihp ihq =>
    exact meetAlike_of_join .seq (leaves_seq n body p q) rfl rfl ihp ihq
  | alt n body p q ihp ihq =>
    exact meetAlike_of_join .alt (leaves_alt n body p q) rfl rfl ihp ihq
  | derived n source recipe body expiry label ih =>
    intro i j m m' hi hj hij
    rw [keptPositions, leaves_derived, List.findIdxs_map] at hi hj
    cases h : keep ⟨.derived n source recipe body expiry label, label, expiry, true⟩ with
    | true =>
      rw [Place.kept_comp_under h] at hi hj
      have hlt : j < (source.remains keep).leaves.length := by
        rw [← length_keptPositions]
        exact (List.getElem?_eq_some_iff.1 hj).1
      have hne : source.remains keep ≠ .empty := by
        intro he
        rw [he] at hlt
        exact absurd hlt (Nat.not_lt_zero j)
      rw [remains, if_pos h, Outline.derive_of_ne hne]
      exact ih hi hj hij
    | false =>
      rw [Place.kept_comp_under_of_not h] at hj
      have hnone : source.leaves.findIdxs (fun _ => false) = [] :=
        List.findIdxs_eq_nil_iff.2 fun _ _ => rfl
      rw [hnone] at hj
      cases hj

/-- What is left of a rule, as compared with the rule. Its clauses are those that are kept with all
that they are derived by way of, the same ones and in the same order, and so are the derived rules
that have something left in their sources. Clauses that are kept come together as they did, each on
its own side. -/
structure Retains (keep : Clause σ φ → Bool) (p q : Rule σ φ) : Prop where
  leaves : q.leaves.map Place.clause = (p.leaves.filter (Place.kept keep)).map Place.clause
  stems : q.leaves.map Place.stems = (p.leaves.filter (Place.kept keep)).map Place.stems
  offshoots : q.offshoots.map Place.path = (p.offshoots.filter (Place.stays keep)).map Place.path
  meet : ∀ {i j m n}, i < j → (p.keptPositions keep)[i]? = some m →
    (p.keptPositions keep)[j]? = some n →
    ∃ k, q.outline.meet i j = some k ∧ p.outline.meet m n = some k
  eq_empty_iff : q = .empty ↔ ∀ x ∈ p.leaves, x.kept keep = false

theorem retains_of_outline_eq {keep : Clause σ φ → Bool} {p q : Rule σ φ}
    (h : q.outline = p.remains keep) : Retains keep p q := by
  have hleaves : q.leaves.map Place.trace =
      (p.leaves.filter (Place.kept keep)).map Place.trace := by
    rw [← leaves_outline, h, leaves_remains]
  refine ⟨?_, ?_, ?_, fun {i j m n} hij hi hj => ?_, ?_⟩
  · have hfst := congrArg (List.map Prod.fst) hleaves
    rw [List.map_map, List.map_map] at hfst
    exact hfst
  · have hsnd := congrArg (List.map Prod.snd) hleaves
    rw [List.map_map, List.map_map] at hsnd
    exact hsnd
  · rw [← offshoots_outline, h, offshoots_remains]
  · have hlt : j < (p.remains keep).leaves.length := by
      rw [← length_keptPositions]
      exact (List.getElem?_eq_some_iff.1 hj).1
    obtain ⟨k, hk⟩ := Outline.exists_meet_eq_some hij hlt
    exact ⟨k, h ▸ hk, (meetAlike keep p hi hj hij).symm.trans hk⟩
  · rw [← remains_eq_empty_iff, ← h, outline_eq_empty_iff]

variable [Recipe φ σ] {w : Bench σ φ} {p : Rule σ φ}

theorem exec_filter_of_dependable (hw : w.Reached) (hp : p ∈ w.rules) (hd : p.outline.Dependable)
    {test : Test σ φ} {keep : Clause σ φ → Bool} (ht : p.Finds test keep) :
    ∃ q, ∃ v : Bench σ φ, (p.filter test).exec w.session = (.ok q, v.session) ∧ v.Reached ∧
      q ∈ v.rules ∧ q.outline = p.remains keep := by
  obtain ⟨q, v, hq, hv, _, hmem, ho⟩ :=
    (Bench.Reached.sifts_of_finds ht hw hp).exists_made hd
  exact ⟨q, v, hq, hv, hmem, ho⟩

/-- With recipes that make overrides, and a test that finds out about every clause of the rule,
filtering succeeds and retains what the test lets pass. -/
theorem filter_retains (hw : w.Reached) (hp : p ∈ w.rules) (hd : p.outline.Dependable)
    {test : Test σ φ} {keep : Clause σ φ → Bool} (ht : p.Finds test keep) :
    ∃ q t, (p.filter test).exec w.session = (.ok q, t) ∧ Retains keep p q := by
  obtain ⟨q, v, hq, _, _, ho⟩ := exec_filter_of_dependable hw hp hd ht
  exact ⟨q, v.session, hq, retains_of_outline_eq ho⟩

end Rule

namespace Scenario

theorem guarded_dependable : guarded.outline.Dependable := by
  intro g hg _ _ _ _ _ _
  obtain rfl : g = .answer := by
    simpa [guarded, mirror, whole, opening, brief, joined, broken, Rule.outline,
      Outline.recipes] using hg
  exact ⟨_, _, rfl⟩

def sparing (c : Clause Tally Method) : Bool := !c.rule.same brief && (!c.isDerived || c.blocks)

theorem guarded_filter_retains :
    workbench.Reached ∧ guarded ∈ workbench.rules ∧ guarded.outline.Dependable ∧
      guarded.Finds (fun c => return sparing c) sparing ∧
      ∃ q t, (guarded.filter fun c => return sparing c).exec workbench.session = (.ok q, t) ∧
        Rule.Retains sparing guarded q ∧
        q.leaves.map (fun x => x.clause.rule) = [joined, broken, joined] ∧
        q.offshoots.map Place.path = [[(⟨"mirror", ⟨.on, 80⟩, true⟩, some .answer)]] ∧
        q.outline.meet 0 1 = some .seq ∧ q.outline.meet 0 2 = some .alt ∧ q ≠ .empty := by
  have hmem : guarded ∈ workbench.rules := by simp [workbench]
  have hd := guarded_dependable
  have ht : guarded.Finds (fun c => return sparing c) sparing := fun c _ s => ⟨s, rfl⟩
  obtain ⟨q, t, hq, h⟩ := Rule.filter_retains workbench_reached hmem hd ht
  refine ⟨workbench_reached, hmem, hd, ht, q, t, hq, h, ?_, h.offshoots, ?_, ?_, ?_⟩
  · have hrules := congrArg (List.map Clause.rule) h.leaves
    rw [List.map_map] at hrules
    exact hrules
  · obtain ⟨k, hk, hk'⟩ := h.meet (i := 0) (j := 1) (by decide) rfl rfl
    cases hk'
    exact hk
  · obtain ⟨k, hk, hk'⟩ := h.meet (i := 0) (j := 2) (by decide) rfl rfl
    cases hk'
    exact hk
  · intro he
    have hnone := h.eq_empty_iff.1 he { clause := ⟨joined, "joined", ⟨.on, 90⟩, false⟩ } (by
      simp [guarded, joined])
    cases hnone

end Scenario

end LayoutRules
