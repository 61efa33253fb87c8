import LayoutRules.Proofs.Legibility
import LayoutRules.Proofs.Sifting
import LayoutRules.Rule.Operations

namespace LayoutRules

namespace Text

def marks : Text := "(*<>@"

def Plain (t : Text) : Prop := ∀ b ∈ t.bytes, b ∉ marks.bytes

instance (t : Text) : Decidable t.Plain :=
  inferInstanceAs (Decidable (∀ b ∈ t.bytes, b ∉ marks.bytes))

end Text

def Edge.mark : Edge → UInt8
  | .after => 62
  | .before => 60
  | .on => 64

namespace Edge

theorem bytes_symbol (e : Edge) : e.symbol.bytes = [e.mark] := by
  cases e <;> decide

theorem mark_injective : Function.Injective mark := by
  intro e e' h
  revert h
  cases e <;> cases e' <;> decide

theorem mark_ne (e : Edge) : e.mark ≠ 40 ∧ e.mark ≠ 42 := by
  cases e <;> decide

theorem mark_mem (e : Edge) : e.mark ∈ Text.marks.bytes := by
  cases e <;> decide

end Edge

def Connective.sign : Connective → UInt8
  | .seq => 38
  | .alt => 124

theorem Connective.sign_injective : Function.Injective sign := by
  intro k k' h
  cases k <;> cases k' <;> simp_all [sign]

/-- What is to be seen of a rule: how it is made of clauses and derived rules, their labels and
expiries, and which clauses block. -/
inductive Sketch where
  | empty
  | clause (label : Text) (expiry : Expiry) (blocking : Bool)
  | both (k : Connective) (first second : Sketch)
  | derived (label : Text) (source : Sketch) (expiry : Expiry)

namespace Sketch

def blocks : Sketch → Bool
  | .empty => false
  | .clause _ _ blocking => blocking
  | .both _ p q => p.blocks || q.blocks
  | .derived _ source _ => source.blocks

def labels : Sketch → List Text
  | .empty => []
  | .clause label _ _ => [label]
  | .both _ p q => p.labels ++ q.labels
  | .derived label source _ => label :: source.labels

def Full : Sketch → Prop
  | .empty => False
  | .clause .. => True
  | .both _ p q => p.Full ∧ q.Full
  | .derived _ source _ => source.Full

def ending : Bool → List UInt8
  | true => [33, 100]
  | false => [100]

def expiryRest (e : Expiry) (blocking : Bool) : List UInt8 :=
  (Text.ofInt e.offset).bytes ++ ending blocking

def bytes : Sketch → List UInt8
  | .empty => ("NoPolicy" : Text).bytes
  | .clause label expiry blocking =>
    label.bytes ++ expiry.edge.mark :: expiryRest expiry blocking
  | .both k p q => 40 :: (p.bytes ++ 32 :: k.sign :: 32 :: (q.bytes ++ [41]))
  | .derived label source expiry =>
    label.bytes ++
      42 :: 40 :: (source.bytes ++ 41 :: expiry.edge.mark :: expiryRest expiry source.blocks)

def head : Sketch → List UInt8
  | .clause label _ _ | .derived label _ _ => label.bytes
  | _ => []

def mark : Sketch → UInt8
  | .clause _ expiry _ => expiry.edge.mark
  | .derived .. => 42
  | _ => 40

def rest : Sketch → List UInt8
  | .empty => []
  | .clause _ expiry blocking => expiryRest expiry blocking
  | .both k p q => p.bytes ++ 32 :: k.sign :: 32 :: (q.bytes ++ [41])
  | .derived _ source expiry =>
    40 :: (source.bytes ++ 41 :: expiry.edge.mark :: expiryRest expiry source.blocks)

theorem Full.ne_empty {p : Sketch} (h : p.Full) : p ≠ .empty := by
  rintro rfl
  exact h

theorem bytes_eq {p : Sketch} (h : p ≠ .empty) : p.bytes = p.head ++ p.mark :: p.rest := by
  cases p with
  | empty => exact absurd rfl h
  | clause | both | derived => rfl

theorem mark_mem (p : Sketch) : p.mark ∈ Text.marks.bytes := by
  cases p with
  | clause label expiry blocking => exact expiry.edge.mark_mem
  | empty | both | derived =>
    simp only [mark]
    decide

theorem plain_head {p : Sketch} (h : ∀ l ∈ p.labels, l.Plain) :
    ∀ b ∈ p.head, b ∉ Text.marks.bytes := by
  cases p with
  | clause label => exact h label (List.mem_singleton_self _)
  | derived label => exact h label List.mem_cons_self
  | empty | both => exact List.forall_mem_nil _

theorem bytes_append_eq {p q : Sketch} (hp : p ≠ .empty) (hq : q ≠ .empty)
    (hlp : ∀ l ∈ p.labels, l.Plain) (hlq : ∀ l ∈ q.labels, l.Plain) {s t : List UInt8}
    (h : p.bytes ++ s = q.bytes ++ t) :
    p.head = q.head ∧ p.mark = q.mark ∧ p.rest ++ s = q.rest ++ t := by
  rw [bytes_eq hp, bytes_eq hq, List.append_assoc, List.append_assoc] at h
  exact Text.bytes_append_inj (plain_head hlp) (plain_head hlq) p.mark_mem q.mark_mem h

theorem ending_append_inj {b b' : Bool} {s t : List UInt8} (h : ending b ++ s = ending b' ++ t) :
    b = b' ∧ s = t := by
  cases b <;> cases b' <;> simp_all [ending]

theorem exists_ending_eq_cons (b : Bool) : ∃ x xs, ending b = x :: xs ∧ ¬ Text.IsDigit x := by
  cases b with
  | true => exact ⟨33, [100], rfl, by decide⟩
  | false => exact ⟨100, [], rfl, by decide⟩

theorem expiryRest_append_inj {e e' : Expiry} {b b' : Bool} {s t : List UInt8}
    (hedge : e.edge.mark = e'.edge.mark)
    (h : expiryRest e b ++ s = expiryRest e' b' ++ t) : e = e' ∧ b = b' ∧ s = t := by
  obtain ⟨edge, offset⟩ := e
  obtain ⟨edge', offset'⟩ := e'
  obtain rfl := Edge.mark_injective hedge
  rw [expiryRest, expiryRest, List.append_assoc, List.append_assoc] at h
  obtain ⟨x, xs, hx, hdx⟩ := exists_ending_eq_cons b
  obtain ⟨y, ys, hy, hdy⟩ := exists_ending_eq_cons b'
  have h' : (Text.ofInt offset).bytes ++ x :: (xs ++ s) =
      (Text.ofInt offset').bytes ++ y :: (ys ++ t) := by
    simpa only [hx, hy, List.cons_append] using h
  obtain ⟨rfl, hxy, hst⟩ := Text.ofInt_append_inj hdx hdy h'
  refine ⟨rfl, ending_append_inj ?_⟩
  rw [hx, hy, List.cons_append, List.cons_append, hxy, hst]

/-- A rendering comes to an end in one way only, whatever follows it, and tells what is rendered. -/
theorem bytes_append_inj {p q : Sketch} (hp : p.Full) (hq : q.Full)
    (hlp : ∀ l ∈ p.labels, l.Plain) (hlq : ∀ l ∈ q.labels, l.Plain) {s t : List UInt8}
    (h : p.bytes ++ s = q.bytes ++ t) : p = q ∧ s = t := by
  -- What follows is arbitrary, so that the hypothesis holds of a part with the rest behind it.
  induction p generalizing q s t with
  | empty => cases hp
  | clause label expiry blocking =>
    obtain ⟨hhead, hmark, hrest⟩ := bytes_append_eq hp.ne_empty hq.ne_empty hlp hlq h
    cases q with
    | empty => cases hq
    | clause label' expiry' blocking' =>
      obtain rfl : label = label' := congrArg Text.mk hhead
      obtain ⟨rfl, rfl, hst⟩ := expiryRest_append_inj hmark hrest
      exact ⟨rfl, hst⟩
    | both => exact absurd hmark expiry.edge.mark_ne.1
    | derived => exact absurd hmark expiry.edge.mark_ne.2
  | both k p₁ p₂ ih₁ ih₂ =>
    obtain ⟨-, hmark, hrest⟩ := bytes_append_eq hp.ne_empty hq.ne_empty hlp hlq h
    cases q with
    | empty => cases hq
    | clause label' expiry' blocking' => exact absurd hmark.symm expiry'.edge.mark_ne.1
    | both k' q₁ q₂ =>
      simp only [labels, List.forall_mem_append] at hlp hlq
      simp only [rest, List.append_assoc, List.cons_append] at hrest
      obtain ⟨rfl, h₁⟩ := ih₁ hp.1 hq.1 hlp.1 hlq.1 hrest
      simp only [List.cons.injEq, true_and] at h₁
      obtain rfl := Connective.sign_injective h₁.1
      obtain ⟨rfl, h₂⟩ := ih₂ hp.2 hq.2 hlp.2 hlq.2 h₁.2
      exact ⟨rfl, (List.cons.inj h₂).2⟩
    | derived => exact absurd hmark (by simp [mark])
  | derived label source expiry ih =>
    obtain ⟨hhead, hmark, hrest⟩ := bytes_append_eq hp.ne_empty hq.ne_empty hlp hlq h
    cases q with
    | empty => cases hq
    | clause label' expiry' blocking' => exact absurd hmark.symm expiry'.edge.mark_ne.2
    | both => exact absurd hmark (by simp [mark])
    | derived label' source' expiry' =>
      simp only [labels, List.forall_mem_cons] at hlp hlq
      simp only [rest, List.append_assoc, List.cons_append, List.cons.injEq, true_and] at hrest
      obtain rfl : label = label' := congrArg Text.mk hhead
      obtain ⟨rfl, h₁⟩ := ih (q := source') hp hq hlp.2 hlq.2 hrest
      simp only [List.cons.injEq, true_and] at h₁
      obtain ⟨rfl, -, hst⟩ := expiryRest_append_inj h₁.1 h₁.2
      exact ⟨rfl, hst⟩

theorem bytes_ne {p : Sketch} (h : p ≠ .empty) : p.bytes ≠ ("NoPolicy" : Text).bytes := by
  have hplain : ∀ b ∈ ("NoPolicy" : Text).bytes, b ∉ Text.marks.bytes := by
    decide +kernel
  intro he
  refine hplain p.mark ?_ p.mark_mem
  rw [← he, bytes_eq h]
  exact List.mem_append_right _ List.mem_cons_self

end Sketch

namespace Rule

variable {σ φ : Type}

def sketch : Rule σ φ → Sketch
  | .empty => .empty
  | .clause _ _ expiry blocking label => .clause label expiry blocking
  | .seq _ _ p q => .both .seq p.sketch q.sketch
  | .alt _ _ p q => .both .alt p.sketch q.sketch
  | .derived _ source _ _ expiry label => .derived label source.sketch expiry

variable {r : Rule σ φ}

theorem sketch_eq_empty_iff : r.sketch = .empty ↔ r = .empty := by
  cases r <;> simp [sketch]

theorem blocks_sketch (r : Rule σ φ) : r.sketch.blocks = r.blocks := by
  induction r with
  | empty | clause => rfl
  | seq _ _ p q ihp ihq | alt _ _ p q ihp ihq => simp only [sketch, Sketch.blocks, blocks, ihp, ihq]
  | derived _ source _ _ _ _ ih => simp only [sketch, Sketch.blocks, blocks, ih]

theorem labels_sketch (r : Rule σ φ) : r.sketch.labels = r.clauses.map Clause.label := by
  induction r with
  | empty | clause => rfl
  | seq _ _ p q ihp ihq | alt _ _ p q ihp ihq =>
    simp only [sketch, Sketch.labels, clauses, List.map_append, ihp, ihq]
  | derived _ source _ _ _ _ ih => simp only [sketch, Sketch.labels, clauses, List.map_cons, ih]

theorem bytes_renderExpiry (e : Expiry) (b : Bool) :
    (renderExpiry e b).bytes = e.edge.mark :: Sketch.expiryRest e b := by
  have hending : (if b then "!" else "" : Text).bytes ++ ("d" : Text).bytes = Sketch.ending b := by
    cases b <;> decide
  rw [Sketch.expiryRest, ← hending]
  cases b <;> simp [renderExpiry, Expiry.render, Edge.bytes_symbol]

theorem bytes_sketch (r : Rule σ φ) : r.sketch.bytes = r.render.bytes := by
  induction r with
  | empty => rfl
  | clause _ _ expiry blocking label =>
    simp only [sketch, Sketch.bytes, render, Text.bytes_append, bytes_renderExpiry]
  | seq _ _ p q ihp ihq | alt _ _ p q ihp ihq =>
    simp only [sketch, Sketch.bytes, render, Text.bytes_append, ihp, ihq, List.append_assoc]
    rfl
  | derived _ source _ _ expiry label ih =>
    simp only [sketch, Sketch.bytes, render, Text.bytes_append, bytes_renderExpiry, ih,
      blocks_sketch, List.append_assoc]
    rfl

variable [Recipe φ σ] {w v : Bench σ φ} {p q : Rule σ φ}

theorem full_sketch (hf : ∀ p ∈ r.parts, p.Founded) (hr : r ≠ .empty) : r.sketch.Full := by
  induction r with
  | empty => exact absurd rfl hr
  | clause => trivial
  | seq n body p q ihp ihq | alt n body p q ihp ihq =>
    simp only [parts, List.forall_mem_cons, List.forall_mem_append] at hf
    obtain ⟨⟨hp, hq, _⟩, hfp, hfq⟩ := hf
    exact ⟨ihp hfp hp, ihq hfq hq⟩
  | derived n source recipe body expiry label ih =>
    simp only [parts, List.forall_mem_cons] at hf
    exact ih hf.2 hf.1.1

omit [Recipe φ σ] in
theorem render_eq_noPolicy_iff : r.render = "NoPolicy" ↔ r = .empty := by
  constructor
  · intro h
    refine Classical.byContradiction fun hr => ?_
    refine Sketch.bytes_ne (fun he => hr (sketch_eq_empty_iff.1 he)) ?_
    rw [bytes_sketch, h]
  · rintro rfl
    rfl

theorem sketch_eq_of_render_eq (hfp : ∀ x ∈ p.parts, x.Founded) (hfq : ∀ x ∈ q.parts, x.Founded)
    (hp : ∀ c ∈ p.clauses, c.label.Plain) (hq : ∀ c ∈ q.clauses, c.label.Plain)
    (h : p.render = q.render) : p.sketch = q.sketch := by
  by_cases hpe : p = .empty
  · subst hpe
    rw [render_eq_noPolicy_iff.1 h.symm]
  · have hqe : q ≠ .empty := by
      rintro rfl
      exact hpe (render_eq_noPolicy_iff.1 h)
    have hlp : ∀ l ∈ p.sketch.labels, l.Plain := by
      rw [labels_sketch]
      exact List.forall_mem_map.2 hp
    have hlq : ∀ l ∈ q.sketch.labels, l.Plain := by
      rw [labels_sketch]
      exact List.forall_mem_map.2 hq
    have hbytes : p.sketch.bytes ++ [] = q.sketch.bytes ++ [] := by
      rw [bytes_sketch, bytes_sketch, h]
    exact (Sketch.bytes_append_inj (full_sketch hfp hpe) (full_sketch hfq hqe) hlp hlq hbytes).1

/-- Rules whose labels hold no marks are rendered alike if and only if the same is to be seen of
them, and whatever the labels are, no rule is rendered like the empty one. -/
theorem render_eq_iff_sketch_eq (hw : w.Reached) (hv : v.Reached) (hp : p ∈ w.rules)
    (hq : q ∈ v.rules) :
    ((∀ c ∈ p.clauses, c.label.Plain) → (∀ c ∈ q.clauses, c.label.Plain) →
      (p.render = q.render ↔ p.sketch = q.sketch)) ∧
    (p.render = "NoPolicy" ↔ p = .empty) := by
  refine ⟨fun hlp hlq => ⟨fun h => ?_, fun h => ?_⟩, render_eq_noPolicy_iff⟩
  · exact sketch_eq_of_render_eq (hw.founded_parts hp) (hv.founded_parts hq) hlp hlq h
  · refine congrArg Text.mk ?_
    rw [← bytes_sketch, ← bytes_sketch, h]

end Rule

namespace Scenario

def renewedMirror : Rule Tally Method :=
  .derived 10 whole .answer whole.answer ⟨.on, 80⟩ "mirror"

def renewed : Rule Tally Method :=
  .alt 11 (renewedMirror.answer.otherwise joined.answer) renewedMirror joined

def renewedBench : Bench Tally Method := ⟨⟨12, {}, {}⟩, renewed :: workbench.rules⟩

theorem renewedBench_reached : renewedBench.Reached :=
  workbench_reached.make (.narrow guarded early) (by simp [workbench]) rfl

theorem renewed_render_eq_iff :
    renewedBench.Reached ∧ workbench.Reached ∧ renewed ∈ renewedBench.rules ∧
      narrowed ∈ renewedBench.rules ∧ guarded ∈ workbench.rules ∧
      (∀ c ∈ renewed.clauses ++ narrowed.clauses ++ guarded.clauses, c.label.Plain) ∧
      renewed.same guarded = false ∧ renewed.render = guarded.render ∧
      narrowed.render ≠ guarded.render ∧ narrowed.render ≠ "NoPolicy" := by
  have hrenewed : renewed ∈ renewedBench.rules := by simp [renewedBench]
  have hnarrowed : narrowed ∈ renewedBench.rules := by simp [renewedBench, workbench]
  have hguarded : guarded ∈ workbench.rules := by simp [workbench]
  have hplain : ∀ c ∈ renewed.clauses ++ narrowed.clauses ++ guarded.clauses, c.label.Plain := by
    decide +kernel
  obtain ⟨⟨hpr, hpn⟩, hpg⟩ := by simpa only [List.forall_mem_append] using hplain
  have hr := Rule.render_eq_iff_sketch_eq renewedBench_reached workbench_reached hrenewed hguarded
  have hn := Rule.render_eq_iff_sketch_eq renewedBench_reached workbench_reached hnarrowed hguarded
  refine ⟨renewedBench_reached, workbench_reached, hrenewed, hnarrowed, hguarded, hplain, rfl, ?_,
    ?_, ?_⟩
  · exact (hr.1 hpr hpg).2 rfl
  · intro h
    have hsketch := (hn.1 hpn hpg).1 h
    simp [narrowed, guarded, remnantMirror, mirror, remnant, whole, opening, joined,
      Rule.sketch] at hsketch
  · intro h
    have hempty := hn.2.1 h
    simp [narrowed] at hempty

/-- Labels that hold marks may hide where one clause ends and the next begins. -/
example :
    let on (label : Text) : Sketch := .clause label ⟨.on, 1⟩ false
    (Sketch.both .seq (on "x") (on "y@1d & z")).bytes =
      (Sketch.both .seq (on "x@1d & y") (on "z")).bytes := by
  decide

end Scenario

end LayoutRules
