import LayoutRules.Proofs.WellBehaved

namespace LayoutRules

variable {σ φ : Type}

/-- Rules are cut down to what is active at a boundary, or to what a client wants to keep. -/
inductive Cut where
  | narrow (b : Boundary)
  | filter (keep : Profile → Bool)

namespace Cut

def keeps : Cut → Profile → Bool
  | .narrow b, x => x.mark.activeAt b
  | .filter keep, x => keep x

/-- It makes no difference to the cut whether what it sees blocks. -/
def IgnoresBlocking (k : Cut) : Prop := ∀ m, k.keeps ⟨m, true⟩ = k.keeps ⟨m, false⟩

variable [Recipe φ σ]

def run (r : Rule σ φ) : Cut → Run σ (Rule σ φ)
  | .narrow b => r.narrow b
  | .filter keep => r.filter (.keeping keep)

def runTrail (t : Trail σ φ) : Cut → Run σ (Trail σ φ)
  | .narrow b => t.narrow b
  | .filter keep => t.without (.keeping fun x => !keep x)

theorem runTrail_eq (t : Trail σ φ) (k : Cut) :
    k.runTrail t = (fun r => { t with rule := r }) <$> k.run t.rule := by
  cases k with
  | narrow b => rfl
  | filter keep =>
    have hkeep : Test.not (.keeping fun x => !keep x : Test σ φ) = .keeping keep := by
      funext c
      simp [Test.not, Test.keeping]
    simp only [runTrail, run, Trail.without, hkeep]
    rfl

end Cut

namespace Outline

def cutAll (o : Outline σ φ) (cuts : List Cut) : Outline σ φ :=
  cuts.foldl (fun o k => o.sift k.keeps) o

theorem sift_eq_prune {keep : Profile → Bool} (h : ∀ m, keep ⟨m, true⟩ = keep ⟨m, false⟩)
    (o : Outline σ φ) : o.sift keep = o.prune fun m => keep ⟨m, false⟩ := by
  have hk : keep = fun x => keep ⟨x.mark, false⟩ := by
    funext ⟨m, blocks⟩
    cases blocks with
    | true => exact h m
    | false => rfl
  rw [prune_eq_sift, ← hk]

theorem sift_sift {keep keep' : Profile → Bool} (h : ∀ m, keep' ⟨m, true⟩ = keep' ⟨m, false⟩)
    (o : Outline σ φ) : (o.sift keep).sift keep' = o.sift fun x => keep x && keep' x := by
  rw [sift_eq_prune h, prune_sift]
  congr 1
  funext ⟨m, blocks⟩
  cases blocks with
  | true => rw [h m]
  | false => rfl

theorem cutAll_sift {cuts : List Cut} (hc : ∀ k ∈ cuts, k.IgnoresBlocking) (keep : Profile → Bool)
    (o : Outline σ φ) :
    (o.sift keep).cutAll cuts = o.sift fun x => keep x && cuts.all fun k => k.keeps x := by
  induction cuts generalizing keep with
  | nil => simp [cutAll]
  | cons k ks ih =>
    rw [List.forall_mem_cons] at hc
    show ((o.sift keep).sift k.keeps).cutAll ks = _
    rw [sift_sift hc.1, ih hc.2]
    simp only [List.all_cons, Bool.and_assoc]

theorem Gathers.cutAll_subset {α : Type} {f : Outline σ φ → List α} (hf : Gathers f)
    (cuts : List Cut) (o : Outline σ φ) : f (o.cutAll cuts) ⊆ f o := by
  induction cuts generalizing o with
  | nil => exact List.Subset.refl _
  | cons k ks ih => exact List.Subset.trans (ih _) (hf.sift_subset k.keeps o)

end Outline

variable [Recipe φ σ] {G : φ → Prop} {make : φ → Outline σ φ → Override σ}
variable {w : Bench σ φ} {p : Rule σ φ}

namespace Rule

def cutAll (p : Rule σ φ) (cuts : List Cut) : Run σ (Rule σ φ) := cuts.foldlM Cut.run p

theorem sift_true {r : Rule σ φ} (hf : ∀ p ∈ r.parts, p.Founded) :
    r.outline.sift (fun _ => true) = r.outline := by
  induction r with
  | empty | clause => rfl
  | seq n body p q ihp ihq | alt n body p q ihp ihq =>
    simp only [parts, List.forall_mem_cons, List.forall_mem_append] at hf
    obtain ⟨⟨hp, hq, _⟩, hfp, hfq⟩ := hf
    simp only [outline, Outline.sift, ihp hfp, ihq hfq]
    exact Outline.join_of_ne (by simpa using hp) (by simpa using hq)
  | derived n source recipe body expiry label ih =>
    simp only [parts, List.forall_mem_cons] at hf
    obtain ⟨⟨hsource, _⟩, hfs⟩ := hf
    simp only [outline, Outline.sift, ↓reduceIte, ih hfs]
    exact Outline.derive_of_ne (by simpa using hsource) recipe expiry label

end Rule

namespace Bench.Reached

theorem comes_cut (hw : w.Reached) (hp : p ∈ w.rules) (k : Cut) :
    w.Comes (k.run p) (p.outline.sift k.keeps) p.outline := by
  cases k with
  | narrow b =>
    rw [Cut.run, Rule.narrow_eq_filter]
    exact hw.comes_filter (Rule.judges_reporting b) p hp
  | filter keep => exact hw.comes_filter (Rule.judges_keeping keep) p hp

theorem comes_cutAll (hw : w.Reached) (hp : p ∈ w.rules) (cuts : List Cut) :
    w.Comes (p.cutAll cuts) (p.outline.cutAll cuts) p.outline := by
  induction cuts generalizing w p with
  | nil => exact .pure hw hp
  | cons k ks ih =>
    rw [Rule.cutAll, List.foldlM_cons]
    refine (hw.comes_cut hp k).bind fun {v q} hv _ hq ho => ?_
    have hsub : q.outline.derivations ⊆ p.outline.derivations := by
      rw [ho]
      exact Outline.gathers_derivations.sift_subset _ _
    have hcut : q.outline.cutAll ks = p.outline.cutAll (k :: ks) := by
      rw [ho]
      rfl
    exact hcut ▸ (ih hv hq).mono hsub

end Bench.Reached

namespace Rule

theorem exec_cutAll (hG : WellBehaved G make) (hw : w.Reached) (hp : p ∈ w.rules)
    (hg : ∀ g ∈ p.outline.recipes, G g) (cuts : List Cut) :
    ∃ q, ∃ v : Bench σ φ, (p.cutAll cuts).exec w.session = (.ok q, v.session) ∧ v.Reached ∧
      q ∈ v.rules ∧ q.outline = p.outline.cutAll cuts ∧ ∀ g ∈ q.outline.recipes, G g := by
  obtain ⟨q, v, hq, hv, _, hmem, ho⟩ := (hw.comes_cutAll hp cuts).exists_made (hG.dependable hg)
  refine ⟨q, v, hq, hv, hmem, ho, fun g hm => hg g ?_⟩
  exact Outline.gathers_recipes.cutAll_subset cuts _ (ho ▸ hm)

theorem outline_cutAll (hw : w.Reached) (hp : p ∈ w.rules) {cuts : List Cut}
    (hc : ∀ k ∈ cuts, k.IgnoresBlocking) :
    p.outline.cutAll cuts = p.outline.sift fun x => cuts.all fun k => k.keeps x := by
  have h := Outline.cutAll_sift hc (fun _ => true) p.outline
  rw [sift_true (hw.founded_parts hp)] at h
  simpa only [Bool.true_and] using h

end Rule

def Trail.cutAll (t : Trail σ φ) (cuts : List Cut) : Run σ (Trail σ φ) :=
  cuts.foldlM Cut.runTrail t

theorem Trail.cutAll_eq (t : Trail σ φ) (cuts : List Cut) :
    t.cutAll cuts = (fun r => { t with rule := r }) <$> t.rule.cutAll cuts := by
  induction cuts generalizing t with
  | nil => rfl
  | cons k ks ih =>
    simp only [Trail.cutAll, Rule.cutAll, List.foldlM_cons, Cut.runTrail_eq, bind_map_left,
      map_bind] at ih ⊢
    simp only [ih]

/-- Cuts that do not see whether rules block come to the same as a single filtering that keeps what
all of them keep, in what tree is left and in how it answers. Neither their order nor how often each
of them is made matters. On a trail they do to its rule what they do to the rule alone. -/
theorem Rule.cutAll_eq_filter_all (hG : WellBehaved G make) (hw : w.Reached) (hp : p ∈ w.rules)
    (hg : ∀ g ∈ p.outline.recipes, G g) {cuts : List Cut} (hc : ∀ k ∈ cuts, k.IgnoresBlocking) :
    ∃ q s q' s', (p.cutAll cuts).exec w.session = (.ok q, s) ∧
      (p.filter (.keeping fun x => cuts.all fun k => k.keeps x)).exec w.session = (.ok q', s') ∧
      q.outline = q'.outline ∧ q.answer = q'.answer ∧
      (∀ cuts' : List Cut, (∀ k, k ∈ cuts' ↔ k ∈ cuts) →
        ∃ q₂ s₂, (p.cutAll cuts').exec w.session = (.ok q₂, s₂) ∧ q₂.outline = q.outline ∧
          q₂.answer = q.answer) ∧
      ∀ t : Trail σ φ, t.rule = p →
        ∃ s, (t.cutAll cuts).exec w.session = (.ok { t with rule := q }, s) := by
  obtain ⟨q, v, hq, hv, hqv, ho, hgq⟩ := exec_cutAll hG hw hp hg cuts
  obtain ⟨q', v', hq', hv', _, hqv', ho'⟩ :=
    (hw.comes_filter (judges_keeping _) p hp).exists_made (hG.dependable hg)
  have he : q'.outline = q.outline := by rw [ho', ho, outline_cutAll hw hp hc]
  refine ⟨q, v.session, q', v'.session, hq, hq', he.symm, ?_, fun cuts' hsame => ?_, fun t ht => ?_⟩
  · exact (answer_eq_of_outline_eq hG hv' hv hqv' hqv he hgq).symm
  · obtain ⟨q₂, v₂, hq₂, hv₂, hqv₂, ho₂, _⟩ := exec_cutAll hG hw hp hg cuts'
    have hc' : ∀ k ∈ cuts', k.IgnoresBlocking := fun k hk => hc k ((hsame k).1 hk)
    have hall : (fun x => cuts'.all fun k => k.keeps x) = fun x => cuts.all fun k => k.keeps x := by
      funext x
      rw [Bool.eq_iff_iff, List.all_eq_true, List.all_eq_true]
      simp only [hsame]
    have he₂ : q₂.outline = q.outline := by
      rw [ho₂, ho, outline_cutAll hw hp hc', outline_cutAll hw hp hc, hall]
    exact ⟨q₂, v₂.session, hq₂, he₂, answer_eq_of_outline_eq hG hv₂ hv hqv₂ hqv he₂ hgq⟩
  · subst ht
    exact ⟨v.session, by rw [Trail.cutAll_eq, Run.exec_map_eq_ok]; exact ⟨q, hq, rfl⟩⟩

namespace Scenario

def unbroken : Cut := .filter fun x => x.mark.label ≠ "broken"

theorem guarded_cutAll_eq_filter_all :
    workbench.Reached ∧ guarded ∈ workbench.rules ∧
      (∀ g ∈ guarded.outline.recipes, g = .answer) ∧
      (∀ k ∈ [unbroken, .narrow pastBrief, .narrow early, unbroken], k.IgnoresBlocking) ∧
      ∃ q s q₂ s₂ s₃,
        (guarded.cutAll [unbroken, .narrow pastBrief, .narrow early, unbroken]).exec
          workbench.session = (.ok q, s) ∧
        (guarded.cutAll [.narrow pastBrief, .narrow early, unbroken]).exec workbench.session =
          (.ok q₂, s₂) ∧
        q₂.outline = q.outline ∧ q₂.answer = q.answer ∧
        ((Trail.ofRule guarded).cutAll [unbroken, .narrow pastBrief, .narrow early, unbroken]).exec
          workbench.session = (.ok (.ofRule q), s₃) := by
  have hmem : guarded ∈ workbench.rules := by simp [workbench]
  have hg : ∀ g ∈ guarded.outline.recipes, g = .answer := by
    simp [guarded, mirror, whole, opening, brief, joined, broken, Rule.outline, Outline.recipes]
  have hc : ∀ k ∈ [unbroken, .narrow pastBrief, .narrow early, unbroken], k.IgnoresBlocking := by
    simp [Cut.IgnoresBlocking, Cut.keeps, unbroken]
  obtain ⟨q, s, _, _, hq, _, _, _, hsame, htrail⟩ :=
    Rule.cutAll_eq_filter_all wellBehaved_answer workbench_reached hmem hg hc
  obtain ⟨q₂, s₂, hq₂, ho₂, ha₂⟩ :=
    hsame [.narrow pastBrief, .narrow early, unbroken] (by simp)
  obtain ⟨s₃, ht⟩ := htrail (.ofRule guarded) rfl
  exact ⟨workbench_reached, hmem, hg, hc, q, s, q₂, s₂, s₃, hq, hq₂, ho₂, ha₂, ht⟩

/-- A condition on what blocks does depend on the order: without the clause that blocks, nothing is
left of a derived rule that has to block. -/
example :
    let blocking : Cut := .filter fun x => !x.mark.isDerived || x.blocks
    (mirror.outline.cutAll [blocking, unbroken]).isEmpty = false ∧
      (mirror.outline.cutAll [unbroken, blocking]).isEmpty = true := by
  decide

end Scenario

end LayoutRules
