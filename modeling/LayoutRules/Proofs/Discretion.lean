import LayoutRules.Proofs.Bench
import LayoutRules.Proofs.Narrowing

namespace LayoutRules

variable {σ φ α β : Type}

namespace Run

/-- A run that does nothing with the journal but write entries. It neither sets the threshold nor
asks for it. -/
inductive Discreet : {α : Type} → Run σ α → Prop
  | untouched {α : Type} {x : Run σ α}
      (h : ∀ s j, x.exec { s with journal := j } =
        ((x.exec s).1, { (x.exec s).2 with journal := j })) : Discreet x
  | write (level : Level) (text : Unit → Text) : Discreet (Run.write level text)
  | bind {α β : Type} {x : Run σ α} {f : α → Run σ β} (hx : Discreet x)
      (hf : ∀ s a t, x.exec s = (.ok a, t) → Discreet (f a)) : Discreet (x >>= f)

structure DiscreetTo (P : α → Prop) (x : Run σ α) : Prop where
  discreet : x.Discreet
  meets : ∀ s a t, x.exec s = (.ok a, t) → P a

variable {P : α → Prop} {Q : β → Prop} {x : Run σ α} {f : α → Run σ β}

theorem Discreet.discreetTo (h : x.Discreet) : x.DiscreetTo fun _ => True :=
  ⟨h, fun _ _ _ _ => trivial⟩

theorem discreetTo_pure {a : α} (h : P a) : (pure a : Run σ α).DiscreetTo P where
  discreet := .untouched fun _ _ => rfl
  meets := by
    rintro s _ t he
    cases he
    exact h

theorem discreetTo_fail (e : Fault) : (fail e : Run σ α).DiscreetTo P where
  discreet := .untouched fun _ _ => rfl
  meets := by
    rintro s a t he
    cases he

theorem discreetTo_fresh : (fresh : Run σ Nat).DiscreetTo fun _ => True :=
  Discreet.discreetTo (.untouched fun _ _ => rfl)

theorem discreetTo_onClient (f : σ → α × σ) : (onClient f).DiscreetTo fun _ => True :=
  Discreet.discreetTo (.untouched fun _ _ => rfl)

theorem discreetTo_write (level : Level) (text : Unit → Text) :
    (write level text : Run σ Unit).DiscreetTo fun _ => True :=
  Discreet.discreetTo (.write level text)

namespace DiscreetTo

theorem bind (hx : x.DiscreetTo P) (hf : ∀ a, P a → (f a).DiscreetTo Q) :
    (x >>= f).DiscreetTo Q where
  discreet := .bind hx.discreet fun s a t h => (hf a (hx.meets s a t h)).discreet
  meets := by
    intro s b t h
    obtain ⟨a, u, ha, hb⟩ := exec_bind_eq_ok.1 h
    exact (hf a (hx.meets s a u ha)).meets u b t hb

theorem map {g : α → β} (hx : x.DiscreetTo P) (hg : ∀ a, P a → Q (g a)) :
    (g <$> x).DiscreetTo Q :=
  hx.bind fun a ha => discreetTo_pure (hg a ha)

end DiscreetTo

end Run

namespace Override

def Discreet (f : Override σ) : Prop := ∀ c, (f c).Discreet

theorem Discreet.followedBy {f g : Override σ} (hf : f.Discreet) (hg : g.Discreet) :
    (f.followedBy g).Discreet := fun c =>
  ((hf c).discreetTo.bind fun _ _ =>
    (hg _).discreetTo.bind fun _ _ => Run.discreetTo_pure (P := fun _ => True) trivial).discreet

theorem Discreet.otherwise {f g : Override σ} (hf : f.Discreet) (hg : g.Discreet) :
    (f.otherwise g).Discreet := by
  intro c
  refine ((hf c).discreetTo.bind (Q := fun _ => True) fun a _ => ?_).discreet
  cases a with
  | none => exact (hg c).discreetTo
  | some cs => exact Run.discreetTo_pure trivial

end Override

namespace Rule

/-- All overrides that a rule has at any depth are discreet, and its recipes are of one kind. -/
def Discreet (G : φ → Prop) : Rule σ φ → Prop
  | .empty => True
  | .clause _ body _ _ _ => body.Discreet
  | .seq _ body p q => body.Discreet ∧ p.Discreet G ∧ q.Discreet G
  | .alt _ body p q => body.Discreet ∧ p.Discreet G ∧ q.Discreet G
  | .derived _ source recipe body _ _ => body.Discreet ∧ G recipe ∧ source.Discreet G

variable {G : φ → Prop} {p q r : Rule σ φ}

theorem Discreet.answer (h : r.Discreet G) : r.answer.Discreet := by
  cases r with
  | empty => exact fun _ => .untouched fun _ _ => rfl
  | clause => exact h
  | seq | alt | derived => exact h.1

end Rule

/-- Tests that are discreet about discreet rules. -/
def Test.Discreet (G : φ → Prop) (test : Test σ φ) : Prop :=
  ∀ c, c.rule.Discreet G → (test c).Discreet

theorem Test.discreet_reporting (G : φ → Prop) (b : Boundary) :
    (Test.reporting b : Test σ φ).Discreet G := by
  intro c _
  unfold Test.reporting
  split
  · exact .untouched fun _ _ => rfl
  · exact ((Run.discreetTo_write _ _).bind fun _ _ =>
      Run.discreetTo_pure (P := fun _ => True) trivial).discreet

theorem Test.Discreet.not {G : φ → Prop} {test : Test σ φ} (h : test.Discreet G) :
    test.not.Discreet G := fun c hc =>
  ((h c hc).discreetTo.bind fun _ _ => Run.discreetTo_pure (P := fun _ => True) trivial).discreet

/-- Recipes that are discreet when they are called on discreet rules, and make discreet overrides of
them. -/
def DiscreetRecipes [Recipe φ σ] (G : φ → Prop) : Prop :=
  ∀ g, G g → ∀ p : Rule σ φ, p.Discreet G →
    (Recipe.derive g p).DiscreetTo fun made => ∀ f ∈ made, f.Discreet

namespace Rule

variable {G : φ → Prop} {p q r : Rule σ φ}

theorem discreetTo_join {make : Nat → Rule σ φ} (hp : p.Discreet G) (hq : q.Discreet G)
    (hm : ∀ n, (make n).Discreet G) : (join make p q).DiscreetTo (Discreet G) := by
  unfold join
  split
  · exact Run.discreetTo_pure hp
  · split
    · exact Run.discreetTo_pure hq
    · exact Run.discreetTo_fresh.bind fun n _ => Run.discreetTo_pure (hm n)

theorem discreetTo_followedBy (hp : p.Discreet G) (hq : q.Discreet G) :
    (p.followedBy q).DiscreetTo (Discreet G) :=
  discreetTo_join hp hq fun _ => ⟨hp.answer.followedBy hq.answer, hp, hq⟩

theorem discreetTo_otherwise (hp : p.Discreet G) (hq : q.Discreet G) :
    (p.otherwise q).DiscreetTo (Discreet G) :=
  discreetTo_join hp hq fun _ => ⟨hp.answer.otherwise hq.answer, hp, hq⟩

theorem discreetTo_rejoin {again : Run σ (Rule σ φ)} {whole p' q' : Rule σ φ}
    (hw : whole.Discreet G) (h : again.DiscreetTo (Discreet G)) :
    (rejoin whole p q p' q' again).DiscreetTo (Discreet G) := by
  unfold rejoin
  split
  · exact Run.discreetTo_pure hw
  · exact h

theorem discreetTo_clauseOf {expiry : Expiry} {body : Option (Override σ)} {label : Text}
    {blocking : Bool} (hb : ∀ f ∈ body, f.Discreet) :
    (clauseOf expiry body label blocking : Run σ (Rule σ φ)).DiscreetTo (Discreet G) := by
  cases body with
  | none => exact Run.discreetTo_fail _
  | some f => exact Run.discreetTo_fresh.bind fun n _ => Run.discreetTo_pure (hb f rfl)

theorem discreetTo_any {test : Test σ φ} (ht : test.Discreet G) (hr : r.Discreet G) :
    (r.any test).DiscreetTo fun _ => True := by
  induction r with
  | empty => exact Run.discreetTo_pure trivial
  | clause n body expiry blocking label => exact (ht _ hr).discreetTo
  | seq n body p q ihp ihq | alt n body p q ihp ihq =>
    refine (ihp hr.2.1).bind fun found _ => ?_
    cases found with
    | true => exact Run.discreetTo_pure trivial
    | false => exact ihq hr.2.2
  | derived n source recipe body expiry label ih =>
    refine (ht ⟨.derived n source recipe body expiry label, label, expiry, true⟩ hr).discreetTo.bind
      fun found _ => ?_
    cases found with
    | true => exact Run.discreetTo_pure trivial
    | false => exact ih hr.2.2

theorem discreetTo_resolve (hr : r.Discreet G) (c : Choice) :
    (r.resolve c).DiscreetTo fun _ => True :=
  (hr.answer c).discreetTo.bind fun _ _ => Run.discreetTo_pure trivial

variable [Recipe φ σ]

theorem discreetTo_derive (hG : DiscreetRecipes (σ := σ) G) {recipe : φ} (hg : G recipe)
    (hp : p.Discreet G) (expiry : Expiry) (label : Text) :
    (p.derive expiry recipe label).DiscreetTo (Discreet G) := by
  by_cases hne : p = .empty
  · subst hne
    exact Run.discreetTo_pure trivial
  · rw [derive_of_ne hne]
    refine (hG recipe hg p hp).bind fun made hmade => ?_
    cases made with
    | none => exact Run.discreetTo_fail _
    | some f => exact Run.discreetTo_fresh.bind fun n _ => Run.discreetTo_pure ⟨hmade f rfl, hg, hp⟩

theorem discreetTo_derivedBy (hG : DiscreetRecipes (σ := σ) G) {recipe : Option φ}
    (hg : ∀ g ∈ recipe, G g) (hp : p.Discreet G) (expiry : Expiry) (label : Text) :
    (p.derivedBy expiry recipe label).DiscreetTo (Discreet G) := by
  cases recipe with
  | none => exact Run.discreetTo_fail _
  | some g => exact discreetTo_derive hG (hg g rfl) hp expiry label

theorem discreetTo_filter (hG : DiscreetRecipes (σ := σ) G) {test : Test σ φ}
    (ht : test.Discreet G) (hr : r.Discreet G) : (r.filter test).DiscreetTo (Discreet G) := by
  induction r with
  | empty => exact Run.discreetTo_pure trivial
  | clause n body expiry blocking label =>
    refine (ht ⟨.clause n body expiry blocking label, label, expiry, false⟩ hr).discreetTo.bind
      fun passed _ => ?_
    cases passed with
    | true => exact Run.discreetTo_pure hr
    | false => exact Run.discreetTo_pure trivial
  | seq n body p q ihp ihq =>
    exact (ihp hr.2.1).bind fun p' hp' => (ihq hr.2.2).bind fun q' hq' =>
      discreetTo_rejoin hr (discreetTo_followedBy hp' hq')
  | alt n body p q ihp ihq =>
    exact (ihp hr.2.1).bind fun p' hp' => (ihq hr.2.2).bind fun q' hq' =>
      discreetTo_rejoin hr (discreetTo_otherwise hp' hq')
  | derived n source recipe body expiry label ih =>
    refine (ht ⟨.derived n source recipe body expiry label, label, expiry, true⟩ hr).discreetTo.bind
      fun passed _ => ?_
    cases passed with
    | false => exact Run.discreetTo_pure trivial
    | true =>
      exact (ih hr.2.2).bind fun source' hs => discreetTo_derive hG hr.2.1 hs expiry label

theorem discreetTo_narrow (hG : DiscreetRecipes (σ := σ) G) (hr : r.Discreet G) (b : Boundary) :
    (r.narrow b).DiscreetTo (Discreet G) := by
  rw [narrow_eq_filter]
  exact discreetTo_filter hG (Test.discreet_reporting G b) hr

end Rule

namespace Trail

variable {G : φ → Prop} {t : Trail σ φ} {r : Rule σ φ}

def Discreet (G : φ → Prop) (t : Trail σ φ) : Prop := t.rule.Discreet G

theorem discreetTo_noteAttached (sign : Text) (r : Rule σ φ) :
    (noteAttached sign r).DiscreetTo fun _ => True := by
  unfold noteAttached
  split
  · exact Run.discreetTo_pure trivial
  · exact Run.discreetTo_write _ _

theorem discreetTo_attach (ht : t.Discreet G) (hr : r.Discreet G) :
    (t.attach r).DiscreetTo (Discreet G) :=
  (Rule.discreetTo_followedBy ht hr).bind fun _ hq =>
    (discreetTo_noteAttached _ r).bind fun _ _ => Run.discreetTo_pure hq

theorem discreetTo_attachFallback (ht : t.Discreet G) (hr : r.Discreet G) :
    (t.attachFallback r).DiscreetTo (Discreet G) :=
  (Rule.discreetTo_otherwise ht hr).bind fun _ hq =>
    (discreetTo_noteAttached _ r).bind fun _ _ => Run.discreetTo_pure hq

variable [Recipe φ σ]

theorem discreetTo_narrow (hG : DiscreetRecipes (σ := σ) G) (ht : t.Discreet G) (b : Boundary) :
    (t.narrow b).DiscreetTo (Discreet G) :=
  (Rule.discreetTo_narrow hG ht b).bind fun _ hq => Run.discreetTo_pure hq

theorem discreetTo_without (hG : DiscreetRecipes (σ := σ) G) (ht : t.Discreet G) {test : Test σ φ}
    (hd : test.Discreet G) : (t.without test).DiscreetTo (Discreet G) :=
  (Rule.discreetTo_filter hG hd.not ht).bind fun _ hq => Run.discreetTo_pure hq

theorem discreetTo_advance (hG : DiscreetRecipes (σ := σ) G) (ht : t.Discreet G)
    (hr : r.Discreet G) (c : Choice) (taken : Candidate) :
    (t.advance c taken r).DiscreetTo (Discreet G) := by
  refine (discreetTo_narrow hG ht c.boundary).bind fun narrowed hn =>
    (discreetTo_attach hn hr).bind fun attached ha => ?_
  dsimp only
  split
  · exact (Run.discreetTo_write _ _).bind fun _ _ => Run.discreetTo_pure ha
  · exact Run.discreetTo_pure ha

theorem discreetTo_candidates (hG : DiscreetRecipes (σ := σ) G) (ht : t.Discreet G) (c : Choice) :
    (t.candidates c).DiscreetTo fun _ => True :=
  (Rule.discreetTo_narrow hG ht c.boundary).bind fun _ hq => Rule.discreetTo_resolve hq c

end Trail

end LayoutRules
