import LayoutRules.Proofs.Coherence
import LayoutRules.Proofs.Pruning

namespace LayoutRules

variable {σ φ : Type}

inductive Connective where
  | seq
  | alt

namespace Connective

def join (k : Connective) (p q : Rule σ φ) : Run σ (Rule σ φ) :=
  match k with
  | .seq => p.followedBy q
  | .alt => p.otherwise q

def node (k : Connective) (p q : Outline σ φ) : Outline σ φ :=
  match k with
  | .seq => .seq p q
  | .alt => .alt p q

def override (k : Connective) (f g : Override σ) : Override σ :=
  match k with
  | .seq => f.followedBy g
  | .alt => f.otherwise g

theorem exec_join (k : Connective) (p q : Rule σ φ) (s : Session σ) :
    ∃ r t, (k.join p q).exec s = (.ok r, t) ∧ r.outline = Outline.join k.node p.outline q.outline := by
  have hjoin : ∀ mk : Rule σ φ → Rule σ φ → Nat → Rule σ φ,
      (∀ n, (mk p q n).outline = k.node p.outline q.outline) →
      ∃ r t, (Rule.join (mk p q) p q).exec s = (.ok r, t) ∧
        r.outline = Outline.join k.node p.outline q.outline := by
    intro mk hm
    obtain ⟨r, t, he, hcases⟩ := Rule.exec_join (mk p q) p q s
    refine ⟨r, t, he, ?_⟩
    obtain ⟨rfl, rfl, _⟩ | ⟨rfl, rfl, _⟩ | ⟨hp, hq, rfl, _⟩ := hcases
    · rfl
    · exact (Outline.empty_join _).symm
    · rw [hm, Outline.join_of_ne (by simpa using hp) (by simpa using hq)]
  cases k with
  | seq => exact hjoin (fun p q n => .seq n (p.answer.followedBy q.answer) p q) fun _ => rfl
  | alt => exact hjoin (fun p q n => .alt n (p.answer.otherwise q.answer) p q) fun _ => rfl

end Connective

theorem Outline.Gathers.node_subset {α : Type} {f : Outline σ φ → List α} (hf : Gathers f)
    (k : Connective) (p q : Outline σ φ) : f (Outline.join k.node p q) ⊆ f p ++ f q := by
  cases k with
  | seq => exact hf.followedBy_subset p q
  | alt => exact hf.otherwise_subset p q

def Test.keeping (keep : Profile → Bool) : Test σ φ := fun c => return keep c.profile

namespace Rule

def Judges (test : Test σ φ) (keep : Profile → Bool) : Prop :=
  ∀ c s, ∃ t, (test c).exec s = (.ok (keep c.profile), t)

/-- Of every clause of the rule the test finds what the condition says. It may look at all that there
is to a clause. It never fails. -/
def Finds (r : Rule σ φ) (test : Test σ φ) (cond : Clause σ φ → Bool) : Prop :=
  ∀ c ∈ r.clauses, ∀ s, ∃ t, (test c).exec s = (.ok (cond c), t)

theorem Judges.finds {test : Test σ φ} {keep : Profile → Bool} (h : Judges test keep)
    (r : Rule σ φ) : r.Finds test fun c => keep c.profile :=
  fun c _ s => h c s

/-- The tree of what is left of a rule without the clauses and derived rules that are not kept. They
are seen as they stand in the rule, whatever is left of their sources. -/
def remains (keep : Clause σ φ → Bool) : Rule σ φ → Outline σ φ
  | .empty => .empty
  | .clause n body expiry blocking label =>
    if keep ⟨.clause n body expiry blocking label, label, expiry, false⟩ then
      .clause n body expiry blocking label
    else
      .empty
  | .seq _ _ p q => (p.remains keep).followedBy (q.remains keep)
  | .alt _ _ p q => (p.remains keep).otherwise (q.remains keep)
  | .derived n source recipe body expiry label =>
    if keep ⟨.derived n source recipe body expiry label, label, expiry, true⟩ then
      (source.remains keep).derive recipe expiry label
    else
      .empty

theorem remains_profile (keep : Profile → Bool) (r : Rule σ φ) :
    r.remains (fun c => keep c.profile) = r.outline.sift keep := by
  induction r with
  | empty | clause => rfl
  | seq _ _ p q ihp ihq | alt _ _ p q ihp ihq =>
    simp only [remains, outline, Outline.sift, ihp, ihq]
  | derived _ source _ _ _ _ ih =>
    simp only [remains, outline, Outline.sift, ih, blocks_outline]
    rfl

theorem remnant_remains (keep : Clause σ φ → Bool) (r : Rule σ φ) :
    Outline.Remnant (r.remains keep) r.outline := by
  induction r with
  | empty => exact .none _
  | clause =>
    rw [remains]
    split
    · exact .clause ..
    · exact .none _
  | seq _ _ p q ihp ihq => exact .seq ihp ihq
  | alt _ _ p q ihp ihq => exact .alt ihp ihq
  | derived _ source recipe _ expiry label ih =>
    rw [remains]
    split
    · exact .derived recipe expiry label ih
    · exact .none _

theorem remains_congr {keep keep' : Clause σ φ → Bool} {r : Rule σ φ}
    (h : ∀ c ∈ r.clauses, keep c = keep' c) : r.remains keep = r.remains keep' := by
  induction r with
  | empty => rfl
  | clause => simp only [remains, h _ (List.mem_singleton_self _)]
  | seq _ _ p q ihp ihq | alt _ _ p q ihp ihq =>
    simp only [clauses, List.forall_mem_append] at h
    simp only [remains, ihp h.1, ihq h.2]
  | derived _ source _ _ _ _ ih =>
    simp only [clauses, List.forall_mem_cons] at h
    simp only [remains, h.1, ih h.2]

theorem judges_keeping (keep : Profile → Bool) : Judges (.keeping keep : Test σ φ) keep :=
  fun _ s => ⟨s, rfl⟩

theorem judges_reporting (b : Boundary) :
    Judges (.reporting b : Test σ φ) fun x => x.mark.activeAt b := by
  intro c s
  show ∃ t, (Test.reporting b c).exec s = (.ok (c.expiry.activeAt b), t)
  cases h : c.expiry.activeAt b with
  | true => exact ⟨s, Test.exec_reporting_of_active h s⟩
  | false => exact ⟨_, Test.exec_reporting_of_expired h s⟩

end Rule

variable [Recipe φ σ]

namespace Outline

/-- The faults for which a recipe of the tree is to blame, and the sessions in which they leave the
client. The recipe is called on a rule that has no recipes but those of the tree. Either it fails
with the fault, or it makes no override for a rule with the label that the fault names. -/
inductive Refuses (o : Outline σ φ) : Fault → Session σ → Prop
  | failed {d : φ × Text} {w : Bench σ φ} {p : Rule σ φ} {e : Fault} {s : Session σ}
      (hd : d ∈ o.derivations) (hw : w.Reached) (hp : p ∈ w.rules) (hne : p ≠ .empty)
      (hsub : p.outline.derivations ⊆ o.derivations)
      (he : (Recipe.derive d.1 p).exec w.session = (.error e, s)) : Refuses o e s
  | barren {d : φ × Text} {w : Bench σ φ} {p : Rule σ φ} {s : Session σ}
      (hd : d ∈ o.derivations) (hw : w.Reached) (hp : p ∈ w.rules) (hne : p ≠ .empty)
      (hsub : p.outline.derivations ⊆ o.derivations)
      (he : (Recipe.derive d.1 p).exec w.session = (.ok none, s)) :
      Refuses o (.recipeWithoutOverride d.2) s

theorem Refuses.mono {o o' : Outline σ φ} (h : o.derivations ⊆ o'.derivations) {e : Fault}
    {s : Session σ} (he : o.Refuses e s) : o'.Refuses e s := by
  cases he with
  | failed hd hw hp hne hsub he => exact .failed (h hd) hw hp hne (List.Subset.trans hsub h) he
  | barren hd hw hp hne hsub he => exact .barren (h hd) hw hp hne (List.Subset.trans hsub h) he

omit [Recipe φ σ] in
theorem recipes_subset {o o' : Outline σ φ} (h : o.derivations ⊆ o'.derivations) :
    o.recipes ⊆ o'.recipes := by
  rw [recipes_eq_map_derivations, recipes_eq_map_derivations]
  exact List.map_subset Prod.fst h

/-- The recipes of the tree make an override whenever they are called on a rule that has no recipes
but these. None is ever called on the empty rule. -/
def Dependable (o : Outline σ φ) : Prop :=
  ∀ g ∈ o.recipes, ∀ {w : Bench σ φ} {p : Rule σ φ}, w.Reached → p ∈ w.rules → p ≠ .empty →
    p.outline.recipes ⊆ o.recipes →
    ∃ f s, (Recipe.derive g p).exec w.session = (.ok (some f), s)

theorem Dependable.mono {o o' : Outline σ φ} (ho : o.Dependable) (h : o'.recipes ⊆ o.recipes) :
    o'.Dependable :=
  fun g hg {_ _} hw hp hne hsub => ho g (h hg) hw hp hne (List.Subset.trans hsub h)

theorem Dependable.not_refuses {o : Outline σ φ} (ho : o.Dependable) (e : Fault)
    (s : Session σ) : ¬ o.Refuses e s := by
  intro hr
  cases hr with
  | failed hd hw hp hne hsub he | barren hd hw hp hne hsub he =>
    have hg := recipes_eq_map_derivations o ▸ List.mem_map_of_mem hd
    obtain ⟨f, s, hf⟩ := ho _ hg hw hp hne (recipes_subset hsub)
    cases he.symm.trans hf

end Outline

namespace Bench

/-- On this bench the run makes a rule with the tree that is wanted, and puts it there, unless it
comes to a fault for which a recipe of the whole is to blame. -/
inductive Comes (w : Bench σ φ) (x : Run σ (Rule σ φ)) (want whole : Outline σ φ) : Prop
  | made {q : Rule σ φ} {v : Bench σ φ} (he : x.exec w.session = (.ok q, v.session))
      (hv : v.Reached) (hsub : w.rules ⊆ v.rules) (hq : q ∈ v.rules) (ho : q.outline = want)
  | refused {e : Fault} {s : Session σ} (he : x.exec w.session = (.error e, s))
      (hr : whole.Refuses e s)

variable {w v : Bench σ φ} {x : Run σ (Rule σ φ)} {want want' whole part : Outline σ φ}
  {p q : Rule σ φ}

namespace Comes

theorem pure (hw : w.Reached) (hp : p ∈ w.rules) : w.Comes (Pure.pure p) p.outline whole :=
  .made rfl hw (List.Subset.refl _) hp rfl

theorem of_subset (h : w.Comes x want whole) (hs : w.session = v.session) (hr : v.rules ⊆ w.rules) :
    v.Comes x want whole := by
  cases h with
  | made he hv hsub hq ho => exact .made (hs ▸ he) hv (List.Subset.trans hr hsub) hq ho
  | refused he hf => exact .refused (hs ▸ he) hf

theorem mono (h : w.Comes x want part) (hsub : part.derivations ⊆ whole.derivations) :
    w.Comes x want whole := by
  cases h with
  | made he hv hsub hq ho => exact .made he hv hsub hq ho
  | refused he hf => exact .refused he (hf.mono hsub)

theorem bind {f : Rule σ φ → Run σ (Rule σ φ)} (h : w.Comes x want' whole)
    (hf : ∀ {v : Bench σ φ} {q : Rule σ φ}, v.Reached → w.rules ⊆ v.rules → q ∈ v.rules →
      q.outline = want' → v.Comes (f q) want whole) : w.Comes (x >>= f) want whole := by
  cases h with
  | refused he hr => exact .refused (Run.exec_bind_error he) hr
  | made he hv hsub hq ho =>
    cases hf hv hsub hq ho with
    | made he' hv' hsub' hq' ho' =>
      exact .made ((Run.exec_bind_ok he).trans he') hv' (List.Subset.trans hsub hsub') hq' ho'
    | refused he' hr => exact .refused ((Run.exec_bind_ok he).trans he') hr

theorem after {α : Type} {y : Run σ α} {a : α} {t : Session σ} {f : α → Run σ (Rule σ φ)}
    (hy : y.exec w.session = (.ok a, t)) (h : (⟨t, w.rules⟩ : Bench σ φ).Comes (f a) want whole) :
    w.Comes (y >>= f) want whole := by
  cases h with
  | made he hv hsub hq ho => exact .made ((Run.exec_bind_ok hy).trans he) hv hsub hq ho
  | refused he hr => exact .refused ((Run.exec_bind_ok hy).trans he) hr

theorem exists_made (h : w.Comes x want whole) (hd : whole.Dependable) :
    ∃ q, ∃ v : Bench σ φ, x.exec w.session = (.ok q, v.session) ∧ v.Reached ∧
      w.rules ⊆ v.rules ∧ q ∈ v.rules ∧ q.outline = want := by
  cases h with
  | made he hv hsub hq ho => exact ⟨_, _, he, hv, hsub, hq, ho⟩
  | refused _ hr => exact absurd hr (hd.not_refuses _ _)

end Comes

namespace Reached

theorem exec_join (hw : w.Reached) (k : Connective) (hp : p ∈ w.rules) (hq : q ∈ w.rules) :
    ∃ r, ∃ v : Bench σ φ, (k.join p q).exec w.session = (.ok r, v.session) ∧ v.Reached ∧
      w.rules ⊆ v.rules ∧ r ∈ v.rules ∧ r.outline = Outline.join k.node p.outline q.outline := by
  obtain ⟨r, s, he, ho⟩ := k.exec_join p q w.session
  have hv : (⟨s, r :: w.rules⟩ : Bench σ φ).Reached := by
    cases k with
    | seq => exact hw.make (.seq p q) (by simp [hp, hq]) he
    | alt => exact hw.make (.alt p q) (by simp [hp, hq]) he
  exact ⟨r, ⟨s, r :: w.rules⟩, he, hv, List.subset_cons_self _ _, List.mem_cons_self, ho⟩

theorem comes_join (hw : w.Reached) (k : Connective) (hp : p ∈ w.rules) (hq : q ∈ w.rules) :
    w.Comes (k.join p q) (Outline.join k.node p.outline q.outline) whole := by
  obtain ⟨r, v, he, hv, hsub, hr, ho⟩ := hw.exec_join k hp hq
  exact .made he hv hsub hr ho

theorem comes_derive (hw : w.Reached) (hp : p ∈ w.rules) {recipe : φ} {label : Text}
    (hd : (recipe, label) ∈ whole.derivations) (hsub : p.outline.derivations ⊆ whole.derivations)
    (expiry : Expiry) :
    w.Comes (p.derive expiry recipe label) (p.outline.derive recipe expiry label) whole := by
  by_cases hne : p = .empty
  · subst hne
    exact .pure hw hp
  cases h : (Recipe.derive recipe p).exec w.session with
  | mk res t =>
    have hx := Rule.derive_of_ne hne expiry recipe label
    cases res with
    | error e =>
      refine .refused (s := t) ?_ (.failed hd hw hp hne hsub h)
      rw [hx, Run.exec_bind_error h]
    | ok f =>
      cases f with
      | none =>
        refine .refused (s := t) ?_ (.barren hd hw hp hne hsub h)
        rw [hx, Run.exec_bind_ok h]
        rfl
      | some f =>
        have he : (p.derive expiry recipe label).exec w.session = _ :=
          Rule.exec_derive_eq_ok.2 (.inr ⟨hne, f, t, h, rfl, rfl⟩)
        have hv := hw.make (.derived p expiry (some recipe) label) (by simp [hp]) he
        refine .made (v := ⟨_, _ :: w.rules⟩) he hv (List.subset_cons_self _ _) List.mem_cons_self ?_
        rw [Outline.derive_of_ne (by simpa using hne)]
        rfl

def SiftedBy (keep : Clause σ φ → Bool) (r : Rule σ φ) (x : Run σ (Rule σ φ)) : Prop :=
  ∀ {w : Bench σ φ}, w.Reached → r ∈ w.rules → w.Comes x (r.remains keep) r.outline

def Sifts (test : Test σ φ) (keep : Clause σ φ → Bool) (r : Rule σ φ) : Prop :=
  ∀ {w : Bench σ φ}, w.Reached → r ∈ w.rules →
    w.Comes (r.filter test) (r.remains keep) r.outline

theorem comes_both {keep : Clause σ φ → Bool} {r : Rule σ φ} {x y : Run σ (Rule σ φ)}
    {f : Rule σ φ → Rule σ φ → Run σ (Rule σ φ)} (ihp : SiftedBy keep p x)
    (ihq : SiftedBy keep q y) (hparts : p ∈ r.parts ∧ q ∈ r.parts)
    (hsub : p.outline.derivations ++ q.outline.derivations ⊆ r.outline.derivations)
    (hf : ∀ {u : Bench σ φ} {p' q' : Rule σ φ}, u.Reached → p ∈ u.rules → q ∈ u.rules →
      r ∈ u.rules → p' ∈ u.rules → q' ∈ u.rules → p'.outline = p.remains keep →
      q'.outline = q.remains keep → u.Comes (f p' q') want r.outline)
    (hw : w.Reached) (hr : r ∈ w.rules) :
    w.Comes (do
        let p' ← x
        let q' ← y
        f p' q')
      want r.outline := by
  rw [List.append_subset] at hsub
  have hw₀ := hw.takeBoth hr hparts.1 hparts.2
  refine .of_subset (w := ⟨w.session, q :: p :: w.rules⟩) ?_ rfl
    fun x hx => List.mem_cons_of_mem _ (List.mem_cons_of_mem _ hx)
  refine ((ihp hw₀ (by simp)).mono hsub.1).bind fun {v p'} hv hsv hp' hop => ?_
  refine ((ihq hv (hsv (by simp))).mono hsub.2).bind fun {u q'} hu hsu hq' hoq => ?_
  exact hf hu (hsu (hsv (by simp))) (hsu (hsv (by simp))) (hsu (hsv (by simp [hr]))) (hsu hp') hq'
    hop hoq

theorem comes_rejoin {test : Test σ φ} {keep : Clause σ φ → Bool} (k : Connective) {r : Rule σ φ}
    (ihp : Sifts test keep p) (ihq : Sifts test keep q) (hparts : p ∈ r.parts ∧ q ∈ r.parts)
    (ho : r.outline = k.node p.outline q.outline)
    (hsub : p.outline.derivations ++ q.outline.derivations ⊆ r.outline.derivations)
    (hne : p ≠ .empty ∧ q ≠ .empty) (hw : w.Reached) (hr : r ∈ w.rules) :
    w.Comes (do
        let p' ← p.filter test
        let q' ← q.filter test
        Rule.rejoin r p q p' q' (k.join p' q'))
      (Outline.join k.node (p.remains keep) (q.remains keep)) r.outline := by
  refine comes_both ihp ihq hparts hsub (fun {u p' q'} hu hp hq hr hp' hq' hop hoq => ?_) hw hr
  obtain ⟨hsp, hsq, hj⟩ | ⟨_, hj⟩ := Rule.rejoin_cases r p q p' q' (k.join p' q')
  · -- What is left of a part and is the same as the part has the same tree too.
    have hep : p' = p := hu.eq_of_same hp' hp hsp
    have heq : q' = q := hu.eq_of_same hq' hq hsq
    rw [hj, ← hop, ← hoq, hep, heq,
      Outline.join_of_ne (by simpa using hne.1) (by simpa using hne.2), ← ho]
    exact .pure hu hr
  · rw [hj, ← hop, ← hoq]
    exact hu.comes_join k hp' hq'

theorem comes_rederive {test : Test σ φ} {keep : Clause σ φ → Bool} {source : Rule σ φ}
    {x : Run σ (Rule σ φ)} {n : Nat} {recipe : φ} {body : Override σ} {expiry : Expiry} {label : Text}
    (ih : SiftedBy keep source x)
    (ht : ∀ s, ∃ t, (test ⟨.derived n source recipe body expiry label, label, expiry, true⟩).exec s =
      (.ok (keep ⟨.derived n source recipe body expiry label, label, expiry, true⟩), t))
    (hw : w.Reached) (hr : .derived n source recipe body expiry label ∈ w.rules) :
    w.Comes (do
        if ← test ⟨.derived n source recipe body expiry label, label, expiry, true⟩ then
          let source' ← x
          source'.derive expiry recipe label
        else
          return .empty)
      ((Rule.derived n source recipe body expiry label).remains keep)
      (Rule.derived n source recipe body expiry label).outline := by
  obtain ⟨t, he⟩ := ht w.session
  have hwt := hw.pass_exec he
  refine .after he ?_
  cases h : keep ⟨.derived n source recipe body expiry label, label, expiry, true⟩ with
  | false =>
    simp only [Rule.remains, h, Bool.false_eq_true, ↓reduceIte]
    exact .pure hwt hwt.empty_mem
  | true =>
    simp only [Rule.remains, h, ↓reduceIte]
    have hsub : source.outline.derivations ⊆
        (Outline.derived source.outline recipe expiry label).derivations :=
      List.subset_cons_self _ _
    have hw₀ := hwt.takeSource hr
    refine .of_subset (w := ⟨t, source :: w.rules⟩) ?_ rfl (List.subset_cons_self _ _)
    refine ((ih hw₀ (by simp)).mono hsub).bind fun hv _ hs ho => ?_
    rw [← ho]
    refine hv.comes_derive hs List.mem_cons_self ?_ expiry
    rw [ho]
    exact List.Subset.trans
      (Outline.gathers_derivations.remnant_subset (source.remnant_remains keep)) hsub

theorem sifts_of_finds {test : Test σ φ} {keep : Clause σ φ → Bool} {r : Rule σ φ}
    (ht : r.Finds test keep) : Sifts test keep r := by
  induction r with
  | empty => exact fun hw hr => .pure hw hr
  | clause n body expiry blocking label =>
    intro w hw hr
    obtain ⟨t, ht⟩ := ht _ (List.mem_singleton_self _) w.session
    have hwt := hw.pass_exec ht
    refine .after ht ?_
    cases h : keep ⟨.clause n body expiry blocking label, label, expiry, false⟩ with
    | true =>
      simp only [Rule.remains, h, ↓reduceIte]
      exact .pure hwt hr
    | false =>
      simp only [Rule.remains, h, Bool.false_eq_true, ↓reduceIte]
      exact .pure hwt hwt.empty_mem
  | seq n body p q ihp ihq =>
    intro w hw hr
    have hf := hw.founded_parts hr _ (Rule.self_mem_parts _)
    simp only [Rule.Finds, Rule.clauses, List.forall_mem_append] at ht
    exact comes_rejoin .seq (ihp ht.1) (ihq ht.2) (by simp [Rule.parts, Rule.self_mem_parts]) rfl
      (List.Subset.refl _) ⟨hf.1, hf.2.1⟩ hw hr
  | alt n body p q ihp ihq =>
    intro w hw hr
    have hf := hw.founded_parts hr _ (Rule.self_mem_parts _)
    simp only [Rule.Finds, Rule.clauses, List.forall_mem_append] at ht
    exact comes_rejoin .alt (ihp ht.1) (ihq ht.2) (by simp [Rule.parts, Rule.self_mem_parts]) rfl
      (List.Subset.refl _) ⟨hf.1, hf.2.1⟩ hw hr
  | derived n source recipe body expiry label ih =>
    simp only [Rule.Finds, Rule.clauses, List.forall_mem_cons] at ht
    exact comes_rederive (ih ht.2) ht.1

theorem comes_filter {test : Test σ φ} {keep : Profile → Bool} (hw : w.Reached)
    (ht : Rule.Judges test keep) (r : Rule σ φ) (hr : r ∈ w.rules) :
    w.Comes (r.filter test) (r.outline.sift keep) r.outline := by
  rw [← Rule.remains_profile]
  exact sifts_of_finds (ht.finds r) hw hr

end Reached

end Bench

end LayoutRules
