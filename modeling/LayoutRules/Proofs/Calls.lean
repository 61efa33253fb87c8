import LayoutRules.Proofs.Dependability

namespace LayoutRules

variable {σ φ α β : Type}

/-- Nothing has happened to the client in between. Serial numbers may have been used up, and entries
written. -/
structure Session.Idle (s t : Session σ) : Prop where
  client : t.client = s.client
  nextSerial_le : s.nextSerial ≤ t.nextSerial

namespace Session.Idle

variable {s t u : Session σ}

theorem refl (s : Session σ) : s.Idle s := ⟨rfl, Nat.le_refl _⟩

theorem trans (h : s.Idle t) (k : t.Idle u) : s.Idle u :=
  ⟨k.client.trans h.client, Nat.le_trans h.nextSerial_le k.nextSerial_le⟩

end Session.Idle

/-- From one session to another by these calls, one after the other, and by nothing else that the
client could tell. -/
inductive InTurn {κ : Type} (leads : κ → Session σ → Session σ → Prop) :
    Session σ → List κ → Session σ → Prop
  | idle {s t : Session σ} (h : s.Idle t) : InTurn leads s [] t
  | next {s t u v : Session σ} {x : κ} {xs : List κ} (h : s.Idle u) (hx : leads x u v)
      (hr : InTurn leads v xs t) : InTurn leads s (x :: xs) t

namespace InTurn

variable {κ : Type} {leads : κ → Session σ → Session σ → Prop} {s t u : Session σ} {xs ys : List κ}

theorem before (h : s.Idle t) (hr : InTurn leads t xs u) : InTurn leads s xs u := by
  cases hr with
  | idle h' => exact .idle (h.trans h')
  | next h' hx hr => exact .next (h.trans h') hx hr

theorem append (h : InTurn leads s xs t) (k : InTurn leads t ys u) :
    InTurn leads s (xs ++ ys) u := by
  induction h with
  | idle h => exact k.before h
  | next h hx _ ih => exact .next h hx (ih k)

theorem after (h : InTurn leads s xs t) (k : t.Idle u) : InTurn leads s xs u := by
  have := h.append (.idle k)
  rwa [List.append_nil] at this

end InTurn

namespace Rule

/-- The fault to which it comes if the call of a recipe has had this result. -/
def refusal? (label : Text) : Except Fault (Option (Override σ)) → Option Fault
  | .error e => some e
  | .ok none => some (.recipeWithoutOverride label)
  | .ok (some _) => none

theorem refusal?_eq_none_iff {label : Text} {a : Except Fault (Option (Override σ))} :
    refusal? label a = none ↔ ∃ f, a = .ok (some f) := by
  rcases a with e | _ | f <;> simp [refusal?]

theorem exec_derive_of_refusal [Recipe φ σ] {p : Rule σ φ} {expiry : Expiry} {recipe : φ}
    {label : Text} {a : Except Fault (Option (Override σ))} {e : Fault} {s t : Session σ}
    (hp : p ≠ .empty) (he : (Recipe.derive recipe p).exec s = (a, t))
    (hr : refusal? label a = some e) : (p.derive expiry recipe label).exec s = (.error e, t) := by
  rw [derive_of_ne hp]
  match a with
  | .error _ =>
    obtain rfl := Option.some.inj hr
    exact Run.exec_bind_error he
  | .ok none =>
    obtain rfl := Option.some.inj hr
    exact Run.exec_bind_ok he

theorem exec_join_idle (make : Nat → Rule σ φ) (p q : Rule σ φ) (s : Session σ) :
    ∃ r t, (join make p q).exec s = (.ok r, t) ∧ s.Idle t := by
  obtain ⟨r, t, he, hcases⟩ := exec_join make p q s
  refine ⟨r, t, he, ?_⟩
  obtain ⟨-, -, rfl⟩ | ⟨-, -, rfl⟩ | ⟨-, -, -, rfl⟩ := hcases
  · exact .refl _
  · exact .refl _
  · exact ⟨rfl, Nat.le_succ _⟩

theorem exec_rejoin_idle (whole p q p' q' : Rule σ φ) (make : Nat → Rule σ φ) (s : Session σ) :
    ∃ r t, (rejoin whole p q p' q' (join make p' q')).exec s = (.ok r, t) ∧ s.Idle t := by
  obtain ⟨-, -, hj⟩ | ⟨-, hj⟩ := rejoin_cases whole p q p' q' (join make p' q')
  · exact ⟨whole, s, by rw [hj]; rfl, .refl s⟩
  · rw [hj]
    exact exec_join_idle make p' q' s

end Rule

/-- A call of a recipe for a derived rule that is to have this label, with the session in which it
is made. -/
structure Call (σ φ : Type) where
  recipe : φ
  source : Rule σ φ
  label : Text
  session : Session σ

namespace Call

def onward (res : Except Fault α × Session σ) (next : α → Session σ → List (Call σ φ)) :
    List (Call σ φ) :=
  match res with
  | (.ok a, t) => next a t
  | (.error _, _) => []

theorem mem_onward {res : Except Fault α × Session σ}
    {next : α → Session σ → List (Call σ φ)} {x : Call σ φ} :
    x ∈ onward res next ↔ ∃ a t, res = (.ok a, t) ∧ x ∈ next a t := by
  rcases res with ⟨e | a, t⟩
  · simp [onward]
  · simp only [onward, Prod.mk.injEq, Except.ok.injEq]
    constructor
    · exact fun h => ⟨a, t, ⟨rfl, rfl⟩, h⟩
    · rintro ⟨_, _, ⟨rfl, rfl⟩, h⟩
      exact h

variable [Recipe φ σ]

def outcome (x : Call σ φ) : Except Fault (Option (Override σ)) × Session σ :=
  (Recipe.derive x.recipe x.source).exec x.session

def fault? (x : Call σ φ) : Option Fault := Rule.refusal? x.label x.outcome.1

def Leads (x : Call σ φ) (s t : Session σ) : Prop := s = x.session ∧ t = x.outcome.2

/-- At a boundary a derived rule is derived anew by the call, which is on what is left of the source
there, unless that is nothing. -/
def Renews (x : Call σ φ) (r : Rule σ φ) (b : Boundary) : Prop :=
  ∃ n source body expiry s, .derived n source x.recipe body expiry x.label ∈ r.parts ∧
    (source.narrow b).exec s = (.ok x.source, x.session) ∧ x.source ≠ .empty

theorem Renews.mono {x : Call σ φ} {p r : Rule σ φ} {b : Boundary} (h : x.Renews p b)
    (hp : p.parts ⊆ r.parts) : x.Renews r b := by
  obtain ⟨n, source, body, expiry, s, hmem, hs, hne⟩ := h
  exact ⟨n, source, body, expiry, s, hp hmem, hs, hne⟩

/-- What has come of a run is owed to these calls and to nothing else. If each of them has made an
override, there is a result. The first one that has not was the last one, and the run has failed
with what this call came to. -/
inductive Owed (s : Session σ) : List (Call σ φ) → Except Fault α × Session σ → Prop
  | made {xs : List (Call σ φ)} {a : α} {t : Session σ} (h : ∀ x ∈ xs, x.fault? = none)
      (hr : InTurn Leads s xs t) : Owed s xs (.ok a, t)
  | refused {xs : List (Call σ φ)} {x : Call σ φ} {e : Fault} (h : ∀ y ∈ xs, y.fault? = none)
      (hr : InTurn Leads s xs x.session) (hx : x.fault? = some e) :
      Owed s (xs ++ [x]) (.error e, x.outcome.2)

namespace Owed

variable {s t : Session σ} {xs ys : List (Call σ φ)} {res : Except Fault α × Session σ}

theorem idle {a : α} (h : s.Idle t) : Owed (φ := φ) s [] (.ok a, t) :=
  .made (List.forall_mem_nil _) (.idle h)

theorem exists_ok (h : Owed s xs res) (hx : ∀ x ∈ xs, x.fault? = none) :
    ∃ a t, res = (.ok a, t) := by
  cases h with
  | made => exact ⟨_, _, rfl⟩
  | @refused _ x _ _ _ he =>
    have hnone := hx x (by simp)
    cases hnone.symm.trans he

theorem append (hx : ∀ x ∈ xs, x.fault? = none) (hr : InTurn Leads s xs t) (h : Owed t ys res) :
    Owed s (xs ++ ys) res := by
  cases h with
  | made hy hr' =>
    exact .made (List.forall_mem_append.2 ⟨hx, hy⟩) (hr.append hr')
  | refused hy hr' he =>
    rw [← List.append_assoc]
    exact .refused (List.forall_mem_append.2 ⟨hx, hy⟩) (hr.append hr') he

theorem bind {x : Run σ α} {f : α → Run σ β} {g : α → Session σ → List (Call σ φ)}
    (hx : Owed s xs (x.exec s))
    (hf : ∀ a t, x.exec s = (.ok a, t) → Owed t (g a t) ((f a).exec t)) :
    Owed s (xs ++ onward (x.exec s) g) ((x >>= f).exec s) := by
  generalize he : x.exec s = res at hx
  cases hx with
  | made h hr =>
    rw [Run.exec_bind_ok he]
    exact .append h hr (hf _ _ he)
  | refused h hr hx =>
    rw [Run.exec_bind_error he, onward, List.append_nil]
    exact .refused h hr hx

theorem thenIdle {x : Run σ α} {f : α → Run σ β} (hx : Owed s xs (x.exec s))
    (hf : ∀ a t, ∃ b u, (f a).exec t = (.ok b, u) ∧ t.Idle u) : Owed s xs ((x >>= f).exec s) := by
  have h := hx.bind (f := f) (g := fun _ _ => []) fun a t _ => by
    obtain ⟨b, u, hb, hidle⟩ := hf a t
    rw [hb]
    exact .idle hidle
  have hnil : onward (φ := φ) (x.exec s) (fun _ _ => []) = [] := by
    rcases x.exec s with ⟨_ | _, _⟩ <;> rfl
  rwa [hnil, List.append_nil] at h

end Owed

end Call

open Call

variable [Recipe φ σ]

namespace Rule

/-- The calls that are made when a rule is narrowed in a session: for a derived rule that remains,
one on what is left of its source, after those in the source. -/
def recipeCalls (b : Boundary) : Rule σ φ → Session σ → List (Call σ φ)
  | .empty, _ | .clause .., _ => []
  | .seq _ _ p q, s | .alt _ _ p q, s =>
    p.recipeCalls b s ++ onward ((p.narrow b).exec s) fun _ t => q.recipeCalls b t
  | .derived _ source recipe _ expiry label, s =>
    if expiry.activeAt b then
      source.recipeCalls b s ++ onward ((source.narrow b).exec s) fun source' t =>
        if source'.isEmpty then [] else [⟨recipe, source', label, t⟩]
    else
      []

/-- The calls that are made when a rule is narrowed to several boundaries in turn. -/
def carryCalls : List Boundary → Rule σ φ → Session σ → List (Call σ φ)
  | [], _, _ => []
  | b :: bs, r, s => r.recipeCalls b s ++ onward ((r.narrow b).exec s) (carryCalls bs)

theorem owed_derive (p : Rule σ φ) (expiry : Expiry) (recipe : φ) (label : Text) (s : Session σ) :
    Owed s (if p.isEmpty then [] else [⟨recipe, p, label, s⟩])
      ((p.derive expiry recipe label).exec s) := by
  by_cases hp : p = .empty
  · subst hp
    exact .idle (.refl s)
  rw [if_neg (mt isEmpty_iff.1 hp)]
  cases hcall : (Recipe.derive recipe p).exec s with
  | mk a t =>
    let x : Call σ φ := ⟨recipe, p, label, s⟩
    have hx : x.outcome = (a, t) := hcall
    cases hr : refusal? label a with
    | some e =>
      rw [exec_derive_of_refusal hp hcall hr]
      have h : Owed (α := Rule σ φ) s ([] ++ [x]) (.error e, x.outcome.2) :=
        .refused (List.forall_mem_nil _) (.idle (.refl s)) (by rw [fault?, hx, hr])
      rwa [hx] at h
    | none =>
      obtain ⟨f, rfl⟩ := refusal?_eq_none_iff.1 hr
      have hmade : (p.derive expiry recipe label).exec s = _ :=
        exec_derive_eq_ok.2 (.inr ⟨hp, f, t, hcall, rfl, rfl⟩)
      rw [hmade]
      refine .made (List.forall_mem_singleton.2 (by rw [fault?, hx, hr])) ?_
      exact .next (.refl s) ⟨rfl, rfl⟩ (.idle ⟨by rw [hx], by rw [hx]; exact Nat.le_succ _⟩)

theorem owed_narrow (b : Boundary) (r : Rule σ φ) (s : Session σ) :
    Owed s (r.recipeCalls b s) ((r.narrow b).exec s) := by
  induction r generalizing s with
  | empty => exact .idle (.refl s)
  | clause n body expiry blocking label =>
    simp only [narrow, recipeCalls]
    split
    · exact .idle (.refl s)
    · rw [Run.exec_bind_ok (Run.exec_write _ _ s)]
      exact .idle ⟨rfl, Nat.le_refl _⟩
  | seq n body p q ihp ihq | alt n body p q ihp ihq =>
    -- To put together what is left of the parts takes no recipe.
    exact (ihp s).bind fun p' t _ => (ihq t).thenIdle fun q' u => exec_rejoin_idle ..
  | derived n source recipe body expiry label ih =>
    simp only [narrow, recipeCalls]
    split
    · exact (ih s).bind fun source' t _ => owed_derive source' expiry recipe label t
    · rw [Run.exec_bind_ok (Run.exec_write _ _ s)]
      exact .idle ⟨rfl, Nat.le_refl _⟩

theorem owed_carry (bs : List Boundary) (p : Rule σ φ) (s : Session σ) :
    Owed s (p.carryCalls bs s) ((p.carry bs).exec s) := by
  induction bs generalizing p s with
  | nil => exact .idle (.refl s)
  | cons b bs ih =>
    rw [carry_cons, carryCalls]
    exact (owed_narrow b p s).bind fun q t _ => ih q t

theorem renews_of_mem_recipeCalls {b : Boundary} {r : Rule σ φ} {s : Session σ} {x : Call σ φ}
    (hx : x ∈ r.recipeCalls b s) : x.Renews r b := by
  induction r generalizing s with
  | empty | clause => cases hx
  | seq n body p q ihp ihq | alt n body p q ihp ihq =>
    obtain hx | hx := List.mem_append.1 hx
    · exact (ihp hx).mono (List.subset_cons_of_subset _ (List.subset_append_left _ _))
    · obtain ⟨_, t, -, hx⟩ := mem_onward.1 hx
      exact (ihq hx).mono (List.subset_cons_of_subset _ (List.subset_append_right _ _))
  | derived n source recipe body expiry label ih =>
    rw [recipeCalls] at hx
    split at hx
    · obtain hx | hx := List.mem_append.1 hx
      · exact (ih hx).mono (List.subset_cons_self _ _)
      · obtain ⟨source', t, hs, hx⟩ := mem_onward.1 hx
        split at hx
        · cases hx
        · obtain rfl := List.mem_singleton.1 hx
          exact ⟨n, source, body, expiry, s, self_mem_parts _, hs, mt isEmpty_iff.2 ‹_›⟩
    · cases hx

theorem renews_of_mem_carryCalls {bs : List Boundary} {p : Rule σ φ} {s : Session σ}
    {x : Call σ φ} (hx : x ∈ p.carryCalls bs s) :
    ∃ as b q t, as ++ [b] <+: bs ∧ (p.carry as).exec s = (.ok q, t) ∧ x.Renews q b := by
  induction bs generalizing p s with
  | nil => cases hx
  | cons b bs ih =>
    obtain hx | hx := List.mem_append.1 hx
    · exact ⟨[], b, p, s, by simp, rfl, renews_of_mem_recipeCalls hx⟩
    · obtain ⟨p', t, hp', hx⟩ := mem_onward.1 hx
      obtain ⟨as, a, q, u, has, hq, hr⟩ := ih hx
      refine ⟨b :: as, a, q, u, (List.prefix_cons_inj b).2 has, ?_, hr⟩
      rw [carry_cons, Run.exec_bind_ok hp', hq]

end Rule

namespace Trail

variable {w : Bench σ φ} {t : Trail σ φ}

theorem owed_narrow (t : Trail σ φ) (b : Boundary) (s : Session σ) :
    Owed s (t.rule.recipeCalls b s) ((t.narrow b).exec s) :=
  (t.rule.owed_narrow b s).thenIdle fun _ u => ⟨_, u, rfl, .refl u⟩

theorem owed_advance (t : Trail σ φ) (c : Choice) (taken : Candidate) (r : Rule σ φ)
    (s : Session σ) : Owed s (t.rule.recipeCalls c.boundary s) ((t.advance c taken r).exec s) := by
  refine (t.owed_narrow c.boundary s).thenIdle fun t' u => ?_
  obtain ⟨q, v, hq, hidle⟩ := Rule.exec_join_idle _ t'.rule r u
  obtain ⟨j, hj⟩ := exec_attach (t := t') hq
  rw [Run.exec_bind_ok hj]
  cases hb : q.blocks with
  | true =>
    simp only [blocks, hb, ↓reduceIte]
    exact ⟨_, _, Run.exec_bind_ok (Run.exec_write _ _ _), hidle.client, hidle.nextSerial_le⟩
  | false =>
    simp only [blocks, hb, Bool.false_eq_true, ↓reduceIte]
    exact ⟨_, _, rfl, hidle.client, hidle.nextSerial_le⟩

theorem exec_candidates_of_made (hw : w.Reached) (ht : t.rule ∈ w.rules) {c : Choice}
    (hx : ∀ x ∈ t.rule.recipeCalls c.boundary w.session, x.fault? = none) :
    ∃ q s, (t.rule.narrow c.boundary).exec w.session = (.ok q, s) ∧
      ((∀ f ∈ q.overrides, f.Safe) → ∃ cs u, (t.candidates c).exec w.session = (.ok cs, u)) := by
  obtain ⟨q, s, hq⟩ := (t.rule.owed_narrow c.boundary w.session).exists_ok hx
  have hv := hw.make (.narrow t.rule c.boundary) (by simpa using ht) hq
  refine ⟨q, s, hq, fun hsafe => ?_⟩
  obtain ⟨a, u, ha⟩ := Rule.safe_answer (hv.founded_parts List.mem_cons_self) hsafe c s
  refine ⟨a.getD c.candidates, u, ?_⟩
  rw [candidates, Run.exec_bind_ok hq, Rule.resolve, Run.exec_bind_ok ha]
  rfl

end Trail

/-- Narrowing to boundaries in turn calls recipes only to derive anew what is derived in the rule, as
it has then become, and fails for no other reason than that one of these calls fails or makes no
override, and then at once and with just that. If all of them make overrides, there is a result.
From then on the same holds of a trail with this rule, which has candidates unless an override of a
client fails. -/
theorem Rule.carry_ok_or_refuses {w : Bench σ φ} {p : Rule σ φ} (hw : w.Reached)
    (hp : p ∈ w.rules) (bs : List Boundary) :
    (∀ x ∈ p.carryCalls bs w.session, ∃ as b q t, as ++ [b] <+: bs ∧
      (p.carry as).exec w.session = (.ok q, t) ∧ x.Renews q b) ∧
    Owed w.session (p.carryCalls bs w.session) ((p.carry bs).exec w.session) ∧
    ((∀ x ∈ p.carryCalls bs w.session, x.fault? = none) →
      ∃ q s, (p.carry bs).exec w.session = (.ok q, s) ∧
        ∀ (t : Trail σ φ) (c : Choice), t.rule = q →
          (∀ x ∈ q.recipeCalls c.boundary s, x.fault? = none) →
            (∃ t' u, (t.narrow c.boundary).exec s = (.ok t', u)) ∧
            (∀ taken r, ∃ t' u, (t.advance c taken r).exec s = (.ok t', u)) ∧
            ∃ q' u, (q.narrow c.boundary).exec s = (.ok q', u) ∧
              ((∀ f ∈ q'.overrides, f.Safe) →
                ∃ cs u', (t.candidates c).exec s = (.ok cs, u'))) := by
  refine ⟨fun x => renews_of_mem_carryCalls, owed_carry bs p w.session, fun hmade => ?_⟩
  obtain ⟨q, s, hq⟩ := (owed_carry bs p w.session).exists_ok hmade
  -- The rule that has come of it is at hand again, and so its override is made of what it has.
  cases comes_carry hw hp bs with
  | refused he => cases he.symm.trans hq
  | @made q' v he hv hsub hmem ho =>
    cases he.symm.trans hq
    refine ⟨q, v.session, hq, ?_⟩
    rintro t c rfl hx
    exact ⟨(t.owed_narrow c.boundary v.session).exists_ok hx,
      fun taken r => (t.owed_advance c taken r v.session).exists_ok hx,
      Trail.exec_candidates_of_made hv hmem hx⟩

namespace Scenario

def enduring : Rule Tally Method :=
  .derived 10 opening (.ifLabelled "joined" .answer) opening.answer ⟨.on, 80⟩ "enduring"

def enduringBench : Bench Tally Method := ⟨⟨11, {}, {}⟩, enduring :: workbench.rules⟩

theorem enduringBench_reached : enduringBench.Reached :=
  workbench_reached.make
    (.derived opening ⟨.on, 80⟩ (some (.ifLabelled "joined" .answer)) "enduring")
    (by simp [workbench]) rfl

theorem enduring_carry_ok :
    enduringBench.Reached ∧ enduring ∈ enduringBench.rules ∧
      (∀ x ∈ enduring.carryCalls [early, pastBrief] enduringBench.session, x.fault? = none) ∧
      (Recipe.derive (Method.ifLabelled "joined" .answer) broken).exec enduringBench.session =
        (.ok none, enduringBench.session) ∧
      ∃ q s, (enduring.carry [early, pastBrief]).exec enduringBench.session = (.ok q, s) ∧
        (∀ x ∈ q.recipeCalls pastBrief s, x.fault? = none) ∧
        (∃ t u, ((Trail.ofRule q).narrow pastBrief).exec s = (.ok t, u)) ∧
        (∃ t u, ((Trail.ofRule q).advance ⟨pastBrief, []⟩ { gap := .space } broken).exec s =
          (.ok t, u)) ∧
        ∃ cs u, ((Trail.ofRule q).candidates ⟨pastBrief, finale.candidates⟩).exec s =
          (.ok cs, u) := by
  have hmem : enduring ∈ enduringBench.rules := by simp [enduringBench]
  have hcalls : ∀ x ∈ enduring.carryCalls [early, pastBrief] enduringBench.session,
      x.fault? = none :=
    List.forall_mem_cons.2 ⟨rfl, List.forall_mem_singleton.2 rfl⟩
  obtain ⟨-, -, h⟩ := Rule.carry_ok_or_refuses enduringBench_reached hmem [early, pastBrief]
  obtain ⟨q, s, hq, htrail⟩ := h hcalls
  have hmade : ∀ x ∈ q.recipeCalls pastBrief s, x.fault? = none := by
    cases hq
    exact List.forall_mem_singleton.2 rfl
  have hsteps := fun cs => htrail (.ofRule q) ⟨pastBrief, cs⟩ rfl hmade
  obtain ⟨hnarrow, hadvance, -⟩ := hsteps []
  obtain ⟨-, -, q', u, hq', hsafe⟩ := hsteps finale.candidates
  refine ⟨enduringBench_reached, hmem, hcalls, rfl, q, s, hq, hmade, hnarrow, hadvance _ broken,
    hsafe ?_⟩
  cases hq
  cases hq'
  intro f hf
  obtain rfl := List.mem_singleton.1 hf
  exact fun c s => ⟨some c.nonNewlines, s, rfl⟩

def lapsing : Rule Tally Method :=
  .derived 10 opening (.ifLabelled "brief" .answer) opening.answer ⟨.on, 80⟩ "lapsing"

def lapsingBench : Bench Tally Method := ⟨⟨11, {}, {}⟩, lapsing :: workbench.rules⟩

theorem lapsingBench_reached : lapsingBench.Reached :=
  workbench_reached.make
    (.derived opening ⟨.on, 80⟩ (some (.ifLabelled "brief" .answer)) "lapsing")
    (by simp [workbench]) rfl

theorem exec_derive_ifLabelled (label : Text) (p : Rule Tally Method) (s : Session Tally) :
    ∃ f, (Recipe.derive (Method.ifLabelled label .answer) p).exec s = (.ok f, s) := by
  show ∃ f, ((p.any fun c => return c.label = label) >>= _).exec s = _
  rw [Rule.any_pure, pure_bind]
  split
  · exact ⟨_, rfl⟩
  · exact ⟨_, rfl⟩

/-- Although its recipe never fails of itself, the copy cannot be narrowed past the first clause of
the opening. -/
theorem lapsing_carry_refused :
    lapsingBench.Reached ∧ lapsing ∈ lapsingBench.rules ∧
      (∀ g ∈ lapsing.outline.recipes, ∀ (p : Rule Tally Method) (s : Session Tally),
        ∃ f, (Recipe.derive g p).exec s = (.ok f, s)) ∧
      (lapsing.carry [pastBrief]).exec lapsingBench.session =
        (.error (.recipeWithoutOverride "lapsing"), lapsingBench.session) := by
  refine ⟨lapsingBench_reached, by simp [lapsingBench], ?_, rfl⟩
  simp [lapsing, opening, brief, joined, Rule.outline, Outline.recipes, exec_derive_ifLabelled]

end Scenario

end LayoutRules
