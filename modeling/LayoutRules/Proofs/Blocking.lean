import LayoutRules.Proofs.Dependability
import LayoutRules.Proofs.Rendering
import LayoutRules.Proofs.Retention

namespace LayoutRules

variable {σ φ : Type}

namespace Text

def Exclaims (t : Text) : Prop := 33 ∈ t.bytes

instance (t : Text) : Decidable t.Exclaims := inferInstanceAs (Decidable (33 ∈ t.bytes))

theorem not_exclaims_ofNat (n : Nat) : ¬ (ofNat n).Exclaims := by
  intro h
  exact absurd (isDigit_of_mem_ofNat 33 h) (by decide)

theorem not_exclaims_ofInt (n : Int) : ¬ (ofInt n).Exclaims := by
  cases n with
  | ofNat n => exact not_exclaims_ofNat n
  | negSucc n =>
    intro h
    obtain h | h := List.mem_append.1 h
    · exact absurd h (by decide)
    · exact not_exclaims_ofNat _ h

end Text

namespace Sketch

theorem mem_ending {b : Bool} : 33 ∈ ending b ↔ b = true := by
  cases b <;> decide

theorem mem_expiryRest {e : Expiry} {b : Bool} : 33 ∈ expiryRest e b ↔ b = true := by
  have hdigits : 33 ∉ (Text.ofInt e.offset).bytes := Text.not_exclaims_ofInt e.offset
  rw [expiryRest, List.mem_append, or_iff_right hdigits, mem_ending]

theorem ne_mark (e : Edge) : (33 : UInt8) ≠ e.mark := by
  cases e <;> decide

theorem ne_sign (k : Connective) : (33 : UInt8) ≠ k.sign := by
  cases k <;> decide

theorem mem_bytes {p : Sketch} (hl : ∀ l ∈ p.labels, ¬ l.Exclaims) :
    33 ∈ p.bytes ↔ p.blocks = true := by
  induction p with
  | empty => decide +kernel
  | clause label expiry blocking =>
    have hlabel : 33 ∉ label.bytes := hl label (List.mem_singleton_self _)
    rw [bytes, List.mem_append, or_iff_right hlabel, List.mem_cons,
      or_iff_right (ne_mark expiry.edge), mem_expiryRest, blocks]
  | both k p q ihp ihq =>
    rw [labels, List.forall_mem_append] at hl
    simp [bytes, blocks, ihp hl.1, ihq hl.2, ne_sign]
  | derived label source expiry ih =>
    rw [labels, List.forall_mem_cons] at hl
    have hlabel : 33 ∉ label.bytes := hl.1
    simp [bytes, blocks, ih hl.2, hlabel, ne_mark, mem_expiryRest]

end Sketch

namespace Rule

theorem any_blocks (r : Rule σ φ) : r.clauses.any Clause.blocks = r.blocks := by
  induction r with
  | empty => rfl
  | clause => simp [clauses, blocks, Clause.blocks]
  | seq _ _ p q ihp ihq | alt _ _ p q ihp ihq => rw [clauses, List.any_append, ihp, ihq, blocks]
  | derived _ source _ _ _ _ ih =>
    rw [clauses, List.any_cons, ih]
    exact Bool.or_self _

theorem any_not_isDerived_and_blocks (r : Rule σ φ) :
    r.clauses.any (fun c => !c.isDerived && c.blocks) = r.blocks := by
  rw [blocks_eq_any_leaves, leaves, List.any_filter, ← map_clause_places, List.any_map]
  rfl

theorem exclaims_render_iff {r : Rule σ φ} (hl : ∀ c ∈ r.clauses, ¬ c.label.Exclaims) :
    r.render.Exclaims ↔ r.blocks = true := by
  have hlabels : ∀ l ∈ r.sketch.labels, ¬ l.Exclaims := by
    rw [labels_sketch]
    exact List.forall_mem_map.2 hl
  rw [Text.Exclaims, ← bytes_sketch, Sketch.mem_bytes hlabels, blocks_sketch]

theorem blocks_iff_of_outline_eq {keep : Clause σ φ → Bool} {p q : Rule σ φ}
    (ho : q.outline = p.remains keep) :
    q.blocks = true ↔ ∃ x ∈ p.leaves, x.clause.blocks = true ∧ x.kept keep = true := by
  have hany : ∀ xs : List (Place σ φ), (xs.any fun x => x.clause.blocks) =
      (xs.map Place.clause).any Clause.blocks := fun xs => by
    rw [List.any_map]
    rfl
  rw [blocks_eq_any_leaves, hany, (retains_of_outline_eq ho).leaves, ← hany, List.any_filter,
    List.any_eq_true]
  simp only [Bool.and_eq_true, and_comm]

variable [Recipe φ σ] {w : Bench σ φ} {p : Rule σ φ}

theorem outline_carry (hw : w.Reached) (hp : p ∈ w.rules) (bs : List Boundary) :
    p.outline.carry bs = p.remains fun c => bs.all fun b => c.expiry.activeAt b := by
  have hcuts : ∀ k ∈ bs.map Cut.narrow, k.IgnoresBlocking :=
    List.forall_mem_map.2 fun _ _ _ => rfl
  rw [Outline.carry_eq_cutAll, outline_cutAll hw hp hcuts, ← remains_profile]
  simp only [List.all_map]
  rfl

theorem outline_of_carry (hw : w.Reached) (hp : p ∈ w.rules) {bs : List Boundary} {q : Rule σ φ}
    {s : Session σ} (h : (p.carry bs).exec w.session = (.ok q, s)) :
    q.outline = p.remains fun c => bs.all fun b => c.expiry.activeAt b := by
  cases comes_carry hw hp bs with
  | made he _ _ _ ho =>
    cases he.symm.trans h
    exact ho.trans (outline_carry hw hp bs)
  | refused he => cases he.symm.trans h

theorem blocks_iff_of_carry (hw : w.Reached) (hp : p ∈ w.rules) {bs : List Boundary}
    {q : Rule σ φ} {s : Session σ} (h : (p.carry bs).exec w.session = (.ok q, s)) :
    q.blocks = true ↔ ∃ x ∈ p.leaves, x.clause.blocks = true ∧
      x.kept (fun c => bs.all fun b => c.expiry.activeAt b) = true :=
  blocks_iff_of_outline_eq (outline_of_carry hw hp h)

theorem blocks_of_blocks_carry (hw : w.Reached) (hp : p ∈ w.rules) {bs : List Boundary}
    {q : Rule σ φ} {s : Session σ} (h : (p.carry bs).exec w.session = (.ok q, s))
    (hq : q.blocks = true) : p.blocks = true := by
  obtain ⟨x, hx, hblocks, _⟩ := (blocks_iff_of_carry hw hp h).1 hq
  rw [blocks_eq_any_leaves]
  exact List.any_eq_true.2 ⟨x, hx, hblocks⟩

/-- That a rule blocks is found by a search, with or without regard to derived rules, and is to be
seen in its rendering if there are no exclamation marks in its labels. A narrowed rule blocks if and
only if there is a clause that blocks and is active, as is every derived rule above it. So a rule that
is narrowed time and again may cease to block, but does not come to. -/
theorem blocks_agrees (hw : w.Reached) (hp : p ∈ w.rules) :
    (p.any fun c => return c.blocks) = pure p.blocks ∧
    (p.any fun c => return !c.isDerived && c.blocks) = pure p.blocks ∧
    ((∀ c ∈ p.clauses, ¬ c.label.Exclaims) → (p.render.Exclaims ↔ p.blocks = true)) ∧
    (p.outline.Dependable →
      (∀ b, ∃ q s, (p.narrow b).exec w.session = (.ok q, s) ∧
        (q.blocks = true ↔ ∃ x ∈ p.leaves, x.clause.blocks = true ∧
          x.kept (fun c => c.expiry.activeAt b) = true)) ∧
      ∀ bs, ∃ q s, (p.carry bs).exec w.session = (.ok q, s) ∧
        (q.blocks = true ↔ ∃ x ∈ p.leaves, x.clause.blocks = true ∧
          x.kept (fun c => bs.all fun b => c.expiry.activeAt b) = true) ∧
        ∀ cs, ∃ r t, (q.carry cs).exec s = (.ok r, t) ∧
          (r.blocks = true → q.blocks = true)) := by
  refine ⟨?_, ?_, exclaims_render_iff, fun hd => ⟨fun b => ?_, fun bs => ?_⟩⟩
  · rw [any_pure]
    exact congrArg pure (any_blocks p)
  · rw [any_pure, any_not_isDerived_and_blocks]
  · obtain ⟨q, v, hq, _, _, ho⟩ :=
      exec_filter_of_dependable hw hp hd ((judges_reporting b).finds p)
    exact ⟨q, v.session, narrow_eq_filter p b ▸ hq, blocks_iff_of_outline_eq ho⟩
  · obtain ⟨q, v, hq, hv, hmem, hdq⟩ := exec_carry_of_dependable hw hp hd bs
    refine ⟨q, v.session, hq, blocks_iff_of_carry hw hp hq, fun cs => ?_⟩
    obtain ⟨r, u, hr, _⟩ := exec_carry_of_dependable hv hmem hdq cs
    exact ⟨r, u.session, hr, blocks_of_blocks_carry hv hmem hr⟩

end Rule

namespace Scenario

theorem guarded_blocks_agrees :
    workbench.Reached ∧ guarded ∈ workbench.rules ∧ guarded.outline.Dependable ∧
      (∀ c ∈ guarded.clauses, ¬ c.label.Exclaims) ∧ guarded.render.Exclaims ∧
      broken.blocks = true ∧ Expiry.activeAt ⟨.before, 90⟩ pastMirror = true ∧
      (∃ q s, (guarded.narrow pastMirror).exec workbench.session = (.ok q, s) ∧
        q.blocks = false) ∧
      ∃ q s r t, (guarded.carry [early, pastBrief]).exec workbench.session = (.ok q, s) ∧
        (q.carry [pastMirror]).exec s = (.ok r, t) ∧ q.blocks = true ∧ r.blocks = false := by
  have hmem : guarded ∈ workbench.rules := by simp [workbench]
  have hl : ∀ c ∈ guarded.clauses, ¬ c.label.Exclaims := by decide +kernel
  obtain ⟨_, _, hrender, h⟩ := Rule.blocks_agrees workbench_reached hmem
  obtain ⟨hnarrow, hcarry⟩ := h guarded_dependable
  refine ⟨workbench_reached, hmem, guarded_dependable, hl, (hrender hl).2 rfl, rfl, rfl, ?_, ?_⟩
  · obtain ⟨q, s, hq, hblocks⟩ := hnarrow pastMirror
    exact ⟨q, s, hq, Bool.eq_false_iff.2 fun hb => absurd (hblocks.1 hb) (by decide)⟩
  · obtain ⟨q, s, hq, hblocks, hrest⟩ := hcarry [early, pastBrief]
    obtain ⟨r, t, hr, _⟩ := hrest [pastMirror]
    refine ⟨q, s, r, t, hq, hr, hblocks.2 (by decide), ?_⟩
    cases hq
    cases hr
    rfl

example :
    let loud : Rule Tally Method := .clause 0 Override.newlines ⟨.on, 1⟩ false "loud!"
    loud.render.Exclaims ∧ loud.blocks = false := by
  decide +kernel

end Scenario

end LayoutRules
