import LayoutRules.Proofs.Notices

namespace LayoutRules

variable {σ φ : Type}

/-- Tokens of which each one stops behind the one before. -/
structure TokenStream where
  tokens : List Token
  ordered : tokens.Pairwise fun t u => t.stop < u.stop

namespace TokenStream

variable {ts : TokenStream} {number : Nat → Nat} {i j m : Nat}

def boundaries (ts : TokenStream) (number : Nat → Nat) : List Boundary :=
  (ts.tokens.zip ts.tokens.tail).mapIdx fun i x => ⟨x.1, x.2, number i⟩

theorem getElem?_boundaries (h : i + 1 < ts.tokens.length) :
    (ts.boundaries number)[i]? = some ⟨ts.tokens[i], ts.tokens[i + 1], number i⟩ := by
  have hzip : i < (ts.tokens.zip ts.tokens.tail).length := by
    rw [List.length_zip, List.length_tail]
    omega
  simp [boundaries, List.getElem?_eq_getElem hzip]

theorem stop_lt_iff (hi : i < ts.tokens.length) (hj : j < ts.tokens.length) :
    ts.tokens[i].stop < ts.tokens[j].stop ↔ i < j := by
  have hstep := List.pairwise_iff_getElem.1 ts.ordered
  constructor
  · intro h
    by_contra hle
    obtain rfl | hlt := Nat.eq_or_lt_of_le (Nat.le_of_not_lt hle)
    · omega
    · have := hstep j i hj hi hlt
      omega
  · exact hstep i j hi hj

theorem stop_le_iff (hi : i < ts.tokens.length) (hj : j < ts.tokens.length) :
    ts.tokens[i].stop ≤ ts.tokens[j].stop ↔ i ≤ j := by
  rw [← Int.not_lt, stop_lt_iff hj hi, Nat.not_lt]

theorem pairwise_boundaries (ts : TokenStream) (number : Nat → Nat) :
    (ts.boundaries number).Pairwise Boundary.NotAfter := by
  rw [List.pairwise_iff_getElem]
  intro i j hi hj hij
  have hlen : (ts.boundaries number).length = ts.tokens.length - 1 := by simp [boundaries]
  have hti : i + 1 < ts.tokens.length := by omega
  have htj : j + 1 < ts.tokens.length := by omega
  have hbi : (ts.boundaries number)[i]? = _ := getElem?_boundaries hti
  have hbj : (ts.boundaries number)[j]? = _ := getElem?_boundaries htj
  rw [List.getElem?_eq_getElem hi, Option.some_inj] at hbi
  rw [List.getElem?_eq_getElem hj, Option.some_inj] at hbj
  rw [hbi, hbj]
  constructor
  · exact (stop_le_iff _ _).2 (by omega)
  · exact (stop_le_iff _ _).2 (by omega)

theorem getLast?_take_boundaries (h : i + 1 < ts.tokens.length) :
    ((ts.boundaries number).take (i + 1)).getLast? =
      some ⟨ts.tokens[i], ts.tokens[i + 1], number i⟩ := by
  simp [List.getLast?_take, getElem?_boundaries h]

end TokenStream

/-- Whether an expiry at a token of a stream is still ahead at a boundary. Both are counted from the
start of the stream. -/
def Edge.lasts (m i : Nat) : Edge → Prop
  | .before => i + 1 < m
  | .on => i + 1 ≤ m
  | .after => i ≤ m

instance (m i : Nat) : ∀ e : Edge, Decidable (e.lasts m i)
  | .before => inferInstanceAs (Decidable (_ < _))
  | .on => inferInstanceAs (Decidable (_ ≤ _))
  | .after => inferInstanceAs (Decidable (_ ≤ _))

theorem Edge.lasts_nested {x : Edge × Edge} (hx : x ∈ [(Edge.before, Edge.on), (.on, .after)])
    (m i : Nat) : (x.1.lasts m i → x.2.lasts m i) ∧ (x.2.lasts m (i + 1) → x.1.lasts m i) := by
  simp only [List.mem_cons, List.not_mem_nil, or_false] at hx
  obtain rfl | rfl := hx <;> simp only [Edge.lasts] <;> omega

namespace TokenStream

variable {ts : TokenStream} {number : Nat → Nat} {i m : Nat}

theorem activeAt_ofToken_iff (hm : m < ts.tokens.length) (hi : i + 1 < ts.tokens.length)
    (e : Edge) :
    (Expiry.ofToken e ts.tokens[m]).activeAt ⟨ts.tokens[i], ts.tokens[i + 1], number i⟩ = true ↔
      e.lasts m i := by
  cases e with
  | before => exact decide_eq_true_iff.trans (stop_lt_iff _ _)
  | on => exact decide_eq_true_iff.trans (stop_le_iff _ _)
  | after => exact decide_eq_true_iff.trans (stop_le_iff _ _)

theorem all_activeAt_ofToken (number : Nat → Nat) (hm : m < ts.tokens.length)
    (hi : i + 1 < ts.tokens.length) (e : Edge) :
    (((ts.boundaries number).take (i + 1)).all fun b =>
      (Expiry.ofToken e ts.tokens[m]).activeAt b) = decide (e.lasts m i) := by
  have hpast : ((ts.boundaries number).take (i + 1)).Pairwise Boundary.NotAfter :=
    (ts.pairwise_boundaries number).sublist (List.take_sublist _ _)
  rw [Expiry.all_activeAt hpast (getLast?_take_boundaries hi), Bool.eq_iff_iff,
    activeAt_ofToken_iff hm hi, decide_eq_true_iff]

end TokenStream

namespace Rule

variable [Recipe φ σ]

theorem exec_carry_empty (bs : List Boundary) (s : Session σ) :
    ((empty : Rule σ φ).carry bs).exec s = (.ok .empty, s) := by
  induction bs with
  | nil => rfl
  | cons b bs ih =>
    rw [carry_cons]
    exact ih

theorem exec_narrow_clause (n : Nat) (body : Override σ) (expiry : Expiry) (blocking : Bool)
    (label : Text) (b : Boundary) (s : Session σ) :
    ∃ t, ((clause n body expiry blocking label : Rule σ φ).narrow b).exec s =
      (.ok (if expiry.activeAt b then clause n body expiry blocking label else .empty), t) := by
  rw [narrow]
  cases expiry.activeAt b with
  | true => exact ⟨s, rfl⟩
  | false => exact ⟨_, Run.exec_bind_ok (Run.exec_write _ _ _)⟩

theorem exec_carry_clause (n : Nat) (body : Override σ) (expiry : Expiry) (blocking : Bool)
    (label : Text) (bs : List Boundary) (s : Session σ) :
    ∃ t, ((clause n body expiry blocking label : Rule σ φ).carry bs).exec s =
      (.ok (if bs.all fun b => expiry.activeAt b then clause n body expiry blocking label
        else .empty), t) := by
  induction bs generalizing s with
  | nil => exact ⟨s, rfl⟩
  | cons b bs ih =>
    obtain ⟨t, ht⟩ := exec_narrow_clause (φ := φ) n body expiry blocking label b s
    rw [carry_cons, Run.exec_bind_ok ht, List.all_cons]
    cases expiry.activeAt b with
    | true => exact ih t
    | false => exact ⟨t, exec_carry_empty (φ := φ) bs t⟩

/-- Whatever the session, the boundaries can be passed and leave the rule as it is. -/
def StaysThrough (r : Rule σ φ) (bs : List Boundary) : Prop :=
  ∀ s, ∃ t, (r.carry bs).exec s = (.ok r, t)

theorem staysThrough_iff {r : Rule σ φ} {bs : List Boundary} {P : Prop} [Decidable P]
    (hr : r ≠ .empty) (h : ∀ s, ∃ t, (r.carry bs).exec s = (.ok (if P then r else .empty), t))
    (s : Session σ) : r.StaysThrough bs ↔ P := by
  constructor
  · intro hstays
    by_contra hP
    obtain ⟨t, ht⟩ := h s
    obtain ⟨u, hu⟩ := hstays s
    rw [if_neg hP] at ht
    exact hr (Except.ok.inj (Prod.mk.inj (hu.symm.trans ht)).1)
  · intro hP
    simp only [hP, ↓reduceIte] at h
    exact h

/-- Clauses that expire where some token of a stream stops, one for each edge, and what the
boundaries of the stream leave of them. Each clause remains the one it is up to the boundary told by
its edge, and from the next boundary on nothing remains of it. So a clause for one edge remains
wherever the one for the edge before does, and for one more boundary at most. -/
theorem carry_clause_ofToken (ts : TokenStream) (number : Nat → Nat)
    (m : Fin ts.tokens.length) (f : Edge → Override σ) (label : Edge → Text)
    (blocking : Edge → Bool) (s : Edge → Session σ) :
    ∃ c : Edge → Rule σ φ,
      (∀ e, ∃ t,
        (clauseOf (.ofToken e ts.tokens[m]) (some (f e)) (label e) (blocking e)).exec (s e) =
          (.ok (c e), t)) ∧
      (∀ e, c e ≠ .empty) ∧
      (∀ e i, i + 1 < ts.tokens.length → ∀ u, ∃ v,
        ((c e).carry ((ts.boundaries number).take (i + 1))).exec u =
          (.ok (if e.lasts m i then c e else .empty), v)) ∧
      ∀ x ∈ [(Edge.before, Edge.on), (.on, .after)], ∀ i,
        (i + 1 < ts.tokens.length → (c x.1).StaysThrough ((ts.boundaries number).take (i + 1)) →
          (c x.2).StaysThrough ((ts.boundaries number).take (i + 1))) ∧
        (i + 2 < ts.tokens.length → (c x.2).StaysThrough ((ts.boundaries number).take (i + 2)) →
          (c x.1).StaysThrough ((ts.boundaries number).take (i + 1))) := by
  let c : Edge → Rule σ φ := fun e =>
    .clause (s e).nextSerial (f e) (.ofToken e ts.tokens[m]) (blocking e) (label e)
  have hne : ∀ e, c e ≠ .empty := fun e he => by cases he
  have hcarry : ∀ e i, i + 1 < ts.tokens.length → ∀ u, ∃ v,
      ((c e).carry ((ts.boundaries number).take (i + 1))).exec u =
        (.ok (if e.lasts m i then c e else .empty), v) := by
    intro e i hi u
    obtain ⟨v, hv⟩ := exec_carry_clause (φ := φ) (s e).nextSerial (f e) (.ofToken e ts.tokens[m])
      (blocking e) (label e) ((ts.boundaries number).take (i + 1)) u
    have hall := TokenStream.all_activeAt_ofToken number m.isLt hi e
    simp only [hall, decide_eq_true_eq, Fin.getElem_fin] at hv
    exact ⟨v, hv⟩
  have hstays : ∀ e i, i + 1 < ts.tokens.length →
      ((c e).StaysThrough ((ts.boundaries number).take (i + 1)) ↔ e.lasts m i) := fun e i hi =>
    staysThrough_iff (hne e) (hcarry e i hi) (s e)
  refine ⟨c, fun e => ⟨_, rfl⟩, hne, hcarry, fun x hx i => ⟨fun hi => ?_, fun hi => ?_⟩⟩
  · rw [hstays _ _ hi, hstays _ _ hi]
    exact (Edge.lasts_nested hx m i).1
  · rw [hstays _ _ hi, hstays _ _ (Nat.lt_of_succ_lt hi)]
    exact (Edge.lasts_nested hx m i).2

end Rule

namespace Scenario

def line : TokenStream := ⟨[⟨"w", 0, 7⟩, ⟨"x", 8, 15⟩, ⟨"y", 15, 16⟩], by decide⟩

example : line.tokens.map (fun t => [Edge.before, .on, .after].map fun e =>
    ((line.boundaries id).filter fun b => (Expiry.ofToken e t).activeAt b).length) =
      [[0, 0, 1], [0, 1, 2], [1, 2, 2]] := by decide

end Scenario

end LayoutRules
