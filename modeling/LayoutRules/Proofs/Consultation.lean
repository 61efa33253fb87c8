import LayoutRules.Proofs.Rederivation

namespace LayoutRules

variable {σ φ : Type}

inductive Way where
  | first
  | second
  | source
deriving DecidableEq

namespace Way

/-- The first part of a whole comes before the second. A list of ways comes before those that go on
from where it ends. -/
instance : LT Way := ⟨fun v w => v = .first ∧ w = .second⟩

/-- Whether a test with these rulings comes to where the ways lead. It does not go on to the source
of a derived rule that it has turned down. -/
def admitted (ruling : List Way → Bool) : List Way → Bool
  | [] => true
  | .source :: ws => ruling [] && admitted (fun vs => ruling (.source :: vs)) ws
  | w :: ws => admitted (fun vs => ruling (w :: vs)) ws

theorem admitted_iff {ruling : List Way → Bool} {ws : List Way} :
    admitted ruling ws = true ↔ ∀ vs, vs ++ [.source] <+: ws → ruling vs = true := by
  induction ws generalizing ruling with
  | nil => simp [admitted]
  | cons w ws ih =>
    have hcons : (∀ vs, vs ++ [.source] <+: w :: ws → ruling vs = true) ↔
        (w = .source → ruling [] = true) ∧
          ∀ vs, vs ++ [.source] <+: ws → ruling (w :: vs) = true := by
      refine ⟨fun h => ⟨fun hw => h [] ?_, fun vs hvs => h (w :: vs) ?_⟩, fun h vs hvs => ?_⟩
      · exact ⟨ws, by rw [hw]; rfl⟩
      · exact List.cons_prefix_cons.2 ⟨rfl, hvs⟩
      · cases vs with
        | nil => exact h.1 (List.cons_prefix_cons.1 hvs).1.symm
        | cons v vs =>
          obtain ⟨rfl, hrest⟩ := List.cons_prefix_cons.1 hvs
          exact h.2 vs hrest
    rw [hcons, ← ih]
    cases w <;> simp [admitted]

def parting (first second : List Way → Bool) : List Way → Bool
  | .first :: ws => first ws
  | .second :: ws => second ws
  | _ => true

def entering (b : Bool) (source : List Way → Bool) : List Way → Bool
  | .source :: ws => source ws
  | _ => b

end Way

/-- A clause or derived rule where it stands in a rule, with the ways that lead to it. One and the
same clause may stand at several sites. -/
structure Site (σ φ : Type) where
  ways : List Way
  clause : Clause σ φ

namespace Site

def via (w : Way) (x : Site σ φ) : Site σ φ := { x with ways := w :: x.ways }

def heard (ruling : List Way → Bool) (xs : List (Site σ φ)) : List (Clause σ φ × Bool) :=
  (xs.filter fun x => Way.admitted ruling x.ways).map fun x => (x.clause, ruling x.ways)

variable {ruling : List Way → Bool}

theorem heard_append (xs ys : List (Site σ φ)) :
    heard ruling (xs ++ ys) = heard ruling xs ++ heard ruling ys := by
  simp only [heard, List.filter_append, List.map_append]

theorem heard_via {w : Way} (h : w = .source → ruling [] = true) (xs : List (Site σ φ)) :
    heard ruling (xs.map (via w)) = heard (fun vs => ruling (w :: vs)) xs := by
  have hadmitted : (fun x : Site σ φ => Way.admitted ruling x.ways) ∘ via w =
      fun x => Way.admitted (fun vs => ruling (w :: vs)) x.ways := by
    funext x
    cases w with
    | first | second => rfl
    | source => exact congrArg (· && _) (h rfl)
  rw [heard, heard, List.filter_map, hadmitted, List.map_map]
  rfl

theorem heard_via_source_of_not (h : ruling [] = false) (xs : List (Site σ φ)) :
    heard ruling (xs.map (via .source)) = [] := by
  simp [heard, List.filter_map, Function.comp_def, via, Way.admitted, h]

theorem heard_cons (c : Clause σ φ) (xs : List (Site σ φ)) :
    heard ruling (⟨[], c⟩ :: xs) = (c, ruling []) :: heard ruling xs := rfl

theorem heard_parting (first second : List Way → Bool) (xs ys : List (Site σ φ)) :
    heard (Way.parting first second) (xs.map (via .first) ++ ys.map (via .second)) =
      heard first xs ++ heard second ys := by
  have hfirst : heard (Way.parting first second) (xs.map (via .first)) = heard first xs :=
    heard_via (by simp) xs
  have hsecond : heard (Way.parting first second) (ys.map (via .second)) = heard second ys :=
    heard_via (by simp) ys
  rw [heard_append, hfirst, hsecond]

theorem heard_entering_of_true (source : List Way → Bool) (c : Clause σ φ)
    (xs : List (Site σ φ)) :
    heard (Way.entering true source) (⟨[], c⟩ :: xs.map (via .source)) =
      (c, true) :: heard source xs := by
  have hsource : heard (Way.entering true source) (xs.map (via .source)) = heard source xs :=
    heard_via (fun _ => rfl) xs
  rw [heard_cons, hsource]
  rfl

theorem heard_entering_of_false (source : List Way → Bool) (c : Clause σ φ)
    (xs : List (Site σ φ)) :
    heard (Way.entering false source) (⟨[], c⟩ :: xs.map (via .source)) = [(c, false)] := by
  rw [heard_cons, heard_via_source_of_not rfl]
  rfl

end Site

namespace Rule

/-- Where the ways lead from a rule, if they lead anywhere. -/
def follow : Rule σ φ → List Way → Option (Rule σ φ)
  | r, [] => some r
  | .seq _ _ p _, .first :: ws => p.follow ws
  | .seq _ _ _ q, .second :: ws => q.follow ws
  | .alt _ _ p _, .first :: ws => p.follow ws
  | .alt _ _ _ q, .second :: ws => q.follow ws
  | .derived _ source _ _ _ _, .source :: ws => source.follow ws
  | _, _ :: _ => none

/-- What a test is shown of a clause or a derived rule. It is shown nothing of other rules. -/
def view? : Rule σ φ → Option (Clause σ φ)
  | .clause n body expiry blocking label =>
    some ⟨.clause n body expiry blocking label, label, expiry, false⟩
  | .derived n source recipe body expiry label =>
    some ⟨.derived n source recipe body expiry label, label, expiry, true⟩
  | _ => none

def sites : Rule σ φ → List (Site σ φ)
  | .empty => []
  | .clause n body expiry blocking label =>
    [⟨[], ⟨.clause n body expiry blocking label, label, expiry, false⟩⟩]
  | .seq _ _ p q => p.sites.map (.via .first) ++ q.sites.map (.via .second)
  | .alt _ _ p q => p.sites.map (.via .first) ++ q.sites.map (.via .second)
  | .derived n source recipe body expiry label =>
    ⟨[], ⟨.derived n source recipe body expiry label, label, expiry, true⟩⟩ ::
      source.sites.map (.via .source)

theorem map_clause_sites (r : Rule σ φ) : r.sites.map Site.clause = r.clauses := by
  have hvia : ∀ w, (Site.clause : Site σ φ → _) ∘ Site.via w = Site.clause := fun _ => rfl
  induction r with
  | empty | clause => rfl
  | seq _ _ p q ihp ihq | alt _ _ p q ihp ihq =>
    simp only [sites, clauses, List.map_append, List.map_map, hvia, ihp, ihq]
  | derived _ source _ _ _ _ ih =>
    simp only [sites, clauses, List.map_cons, List.map_map, hvia, ih]

theorem mem_map_via {w : Way} {xs : List (Site σ φ)} {x : Site σ φ} :
    x ∈ xs.map (.via w) ↔ ∃ ws, x.ways = w :: ws ∧ ⟨ws, x.clause⟩ ∈ xs := by
  constructor
  · intro h
    obtain ⟨y, hy, rfl⟩ := List.mem_map.1 h
    exact ⟨y.ways, rfl, hy⟩
  · rintro ⟨ws, hws, hy⟩
    refine List.mem_map.2 ⟨_, hy, ?_⟩
    obtain ⟨ways, c⟩ := x
    obtain rfl : ways = w :: ws := hws
    rfl

theorem mem_sites_iff {r : Rule σ φ} {x : Site σ φ} :
    x ∈ r.sites ↔ (r.follow x.ways).bind view? = some x.clause := by
  induction r generalizing x with
  | empty =>
    obtain ⟨ways, c⟩ := x
    cases ways <;> simp [sites, follow, view?]
  | clause n body expiry blocking label =>
    obtain ⟨ways, c⟩ := x
    cases ways <;> simp [sites, follow, view?, eq_comm]
  | seq n body p q ihp ihq | alt n body p q ihp ihq =>
    rw [sites, List.mem_append, mem_map_via, mem_map_via]
    simp only [ihp, ihq]
    obtain ⟨ways, c⟩ := x
    rcases ways with _ | ⟨_ | _ | _, ways⟩ <;> simp [follow, view?]
  | derived n source recipe body expiry label ih =>
    rw [sites, List.mem_cons, mem_map_via]
    simp only [ih]
    obtain ⟨ways, c⟩ := x
    rcases ways with _ | ⟨_ | _ | _, ways⟩ <;> simp [follow, view?, eq_comm]

theorem pairwise_via {w : Way} {xs : List (Site σ φ)} (h : xs.Pairwise fun x y => x.ways < y.ways) :
    (xs.map (Site.via w)).Pairwise fun x y => x.ways < y.ways :=
  List.pairwise_map.2 (h.imp fun hlt => List.Lex.cons hlt)

theorem pairwise_sites (r : Rule σ φ) : r.sites.Pairwise fun x y => x.ways < y.ways := by
  induction r with
  | empty => exact List.Pairwise.nil
  | clause => exact List.pairwise_singleton _ _
  | seq _ _ p q ihp ihq | alt _ _ p q ihp ihq =>
    refine List.pairwise_append.2 ⟨pairwise_via ihp, pairwise_via ihq, fun x hx y hy => ?_⟩
    obtain ⟨vs, hvs, -⟩ := mem_map_via.1 hx
    obtain ⟨ws, hws, -⟩ := mem_map_via.1 hy
    rw [hvs, hws]
    exact List.Lex.rel ⟨rfl, rfl⟩
  | derived _ source _ _ _ _ ih =>
    refine List.pairwise_cons.2 ⟨fun x hx => ?_, pairwise_via ih⟩
    obtain ⟨ws, hws, -⟩ := mem_map_via.1 hx
    rw [hws]
    exact List.Lex.nil

end Rule

section

variable [Recipe φ σ]

/-- What may happen between two calls of a test: one of these recipes makes an override, or a serial
number is given out. -/
inductive Making (gs : List φ) : Session σ → Session σ → Prop
  | derived {s t : Session σ} {g : φ} {source : Rule σ φ} {f : Override σ} (hg : g ∈ gs)
      (h : (Recipe.derive g source).exec s = (.ok (some f), t)) : Making gs s t
  | numbered (s : Session σ) : Making gs s { s with nextSerial := s.nextSerial + 1 }

theorem Making.mono {gs gs' : List φ} (hsub : gs ⊆ gs') {s t : Session σ} (h : Making gs s t) :
    Making gs' s t := by
  cases h with
  | derived hg h => exact .derived (hsub hg) h
  | numbered => exact .numbered s

end

/-- From one session to another by calls of a test, one after the other, each with its answer, and
by nothing else but what may happen in between. -/
inductive Consulted (test : Test σ φ) (between : Session σ → Session σ → Prop) :
    Session σ → List (Clause σ φ × Bool) → Session σ → Prop
  | done (s : Session σ) : Consulted test between s [] s
  | told {s t u : Session σ} {c : Clause σ φ} {b : Bool} {calls : List (Clause σ φ × Bool)}
      (h : (test c).exec s = (.ok b, u)) (hr : Consulted test between u calls t) :
      Consulted test between s ((c, b) :: calls) t
  | meanwhile {s t u : Session σ} {calls : List (Clause σ φ × Bool)} (h : between s u)
      (hr : Consulted test between u calls t) : Consulted test between s calls t

namespace Consulted

variable {test : Test σ φ} {between between' : Session σ → Session σ → Prop} {s t u : Session σ}
  {xs ys : List (Clause σ φ × Bool)}

theorem append (h : Consulted test between s xs u) (k : Consulted test between u ys t) :
    Consulted test between s (xs ++ ys) t := by
  induction h with
  | done => exact k
  | told h _ ih => exact .told h (ih k)
  | meanwhile h _ ih => exact .meanwhile h (ih k)

theorem mono (hm : ∀ {s t}, between s t → between' s t) (h : Consulted test between s xs t) :
    Consulted test between' s xs t := by
  induction h with
  | done => exact .done _
  | told h _ ih => exact .told h ih
  | meanwhile h _ ih => exact .meanwhile (hm h) ih

theorem after (h : Consulted test between s xs u) (k : between u t) :
    Consulted test between s xs t := by
  have := h.append (.meanwhile k (.done t))
  rwa [List.append_nil] at this

end Consulted

namespace Rule

/-- What comes of a search among clauses. The test is called on them in turn, on none after one that
passes, and on none after a call that fails. Nothing happens in between. -/
inductive Searched (test : Test σ φ) (cs : List (Clause σ φ)) (s : Session σ) :
    Except Fault Bool → Session σ → Prop
  | nowhere {t : Session σ}
      (h : Consulted test (fun _ _ => False) s (cs.map fun c => (c, false)) t) :
      Searched test cs s (.ok false) t
  | found {before after : List (Clause σ φ)} {c : Clause σ φ} {t : Session σ}
      (hc : cs = before ++ c :: after)
      (h : Consulted test (fun _ _ => False) s
        ((before.map fun c => (c, false)) ++ [(c, true)]) t) : Searched test cs s (.ok true) t
  | failed {before after : List (Clause σ φ)} {c : Clause σ φ} {e : Fault} {t u : Session σ}
      (hc : cs = before ++ c :: after)
      (h : Consulted test (fun _ _ => False) s (before.map fun c => (c, false)) u)
      (he : (test c).exec u = (.error e, t)) : Searched test cs s (.error e) t

theorem Searched.cons {test : Test σ φ} {c : Clause σ φ} {cs : List (Clause σ φ)}
    {s t u : Session σ} {res : Except Fault Bool} (h : (test c).exec s = (.ok false, u))
    (hs : Searched test cs u res t) : Searched test (c :: cs) s res t := by
  cases hs with
  | nowhere hr => exact .nowhere (.told h hr)
  | @found before after d _ hc hr =>
    have hcons : c :: cs = (c :: before) ++ d :: after := congrArg (c :: ·) hc
    exact .found hcons (.told h hr)
  | @failed before after d _ _ _ hc hr he =>
    have hcons : c :: cs = (c :: before) ++ d :: after := congrArg (c :: ·) hc
    exact .failed hcons (.told h hr) he

theorem searched_of_anyOf {test : Test σ φ} {cs : List (Clause σ φ)} {s t : Session σ}
    {res : Except Fault Bool} (he : (anyOf test cs).exec s = (res, t)) :
    Searched test cs s res t := by
  induction cs generalizing s with
  | nil =>
    cases he
    exact .nowhere (.done _)
  | cons c cs ih =>
    have hfirst : c :: cs = [] ++ c :: cs := rfl
    cases hc : (test c).exec s with
    | mk a u =>
      cases a with
      | error e =>
        cases (Run.exec_bind_error hc).symm.trans he
        exact .failed hfirst (.done s) hc
      | ok b =>
        rw [anyOf, Run.exec_bind_ok hc] at he
        cases b with
        | true =>
          cases he
          exact .found hfirst (.told hc (.done _))
        | false => exact (ih he).cons hc

end Rule

variable [Recipe φ σ]

/-- How the calls of a test may come to an end while some are still to come: the first of these
fails, or else the call of a recipe of the tree fails or makes no override. -/
inductive Stopped (test : Test σ φ) (o : Outline σ φ) (s : Session σ) :
    List (Clause σ φ × Bool) → Fault → Session σ → Prop
  | failed {c : Clause σ φ} {b : Bool} {rest : List (Clause σ φ × Bool)} {e : Fault} {t : Session σ}
      (h : (test c).exec s = (.error e, t)) : Stopped test o s ((c, b) :: rest) e t
  | refused {rest : List (Clause σ φ × Bool)} {source : Rule σ φ} {recipe : φ} {label : Text}
      {a : Except Fault (Option (Override σ))} {e : Fault} {t : Session σ}
      (hd : (recipe, label) ∈ o.derivations) (h : (Recipe.derive recipe source).exec s = (a, t))
      (hr : Rule.refusal? label a = some e) : Stopped test o s rest e t

theorem Stopped.mono {test : Test σ φ} {o o' : Outline σ φ} {s t : Session σ} {e : Fault}
    {rest : List (Clause σ φ × Bool)} (h : Stopped test o s rest e t)
    (hsub : o.derivations ⊆ o'.derivations) (more : List (Clause σ φ × Bool)) :
    Stopped test o' s (rest ++ more) e t := by
  cases h with
  | failed h => exact .failed h
  | refused hd h hr => exact .refused (hsub hd) h hr

namespace Rule

/-- What comes of filtering a rule, as far as its test goes. The test is called on the clauses and
derived rules in turn, but on none in the source of a derived rule that it has turned down. In
between nothing happens but that recipes of the rule make overrides and serial numbers are given
out. With a call that fails it is over. -/
inductive Combed (test : Test σ φ) (p : Rule σ φ) (s : Session σ) :
    Except Fault (Rule σ φ) → Session σ → Prop
  | through {ruling : List Way → Bool} {q : Rule σ φ} {t : Session σ}
      (h : Consulted test (Making p.outline.recipes) s (Site.heard ruling p.sites) t) :
      Combed test p s (.ok q) t
  | stopped {ruling : List Way → Bool} {calls rest : List (Clause σ φ × Bool)} {e : Fault}
      {t u : Session σ} (hc : Site.heard ruling p.sites = calls ++ rest)
      (h : Consulted test (Making p.outline.recipes) s calls u)
      (hs : Stopped test p.outline u rest e t) : Combed test p s (.error e) t

variable {test : Test σ φ} {p q r : Rule σ φ} {s t u : Session σ} {e : Fault}

theorem Consulted.of_part {calls : List (Clause σ φ × Bool)}
    (h : Consulted test (Making p.outline.recipes) s calls t)
    (hsub : p.outline.derivations ⊆ r.outline.derivations) :
    Consulted test (Making r.outline.recipes) s calls t :=
  h.mono fun hm => hm.mono (Outline.recipes_subset hsub)

section

variable (hr : r.sites = p.sites.map (.via .first) ++ q.sites.map (.via .second))
  (hp : p.outline.derivations ⊆ r.outline.derivations)
  (hq : q.outline.derivations ⊆ r.outline.derivations)

include hr hp

theorem Combed.first (h : Combed test p s (.error e) t) : Combed test r s (.error e) t := by
  cases h with
  | @stopped ruling calls rest _ _ _ hc h hs =>
    have hcr : Site.heard (Way.parting ruling fun _ => true) r.sites =
        calls ++ (rest ++ Site.heard (fun _ => true) q.sites) := by
      rw [hr, Site.heard_parting, hc, List.append_assoc]
    exact .stopped hcr (Consulted.of_part h hp) (hs.mono hp _)

include hq

theorem Combed.second {p' : Rule σ φ} (h : Combed test p s (.ok p') u)
    (k : Combed test q u (.error e) t) : Combed test r s (.error e) t := by
  cases h with
  | @through ruling _ _ h =>
    cases k with
    | @stopped ruling' calls rest _ _ _ hc k hs =>
      have hcr : Site.heard (Way.parting ruling ruling') r.sites =
          (Site.heard ruling p.sites ++ calls) ++ rest := by
        rw [hr, Site.heard_parting, hc, List.append_assoc]
      have hrest := hs.mono hq []
      rw [List.append_nil] at hrest
      exact .stopped hcr ((Consulted.of_part h hp).append (Consulted.of_part k hq)) hrest

theorem Combed.both {p' q' r' : Rule σ φ} {v : Session σ} (h : Combed test p s (.ok p') u)
    (k : Combed test q u (.ok q') v) (hv : t = v ∨ Making r.outline.recipes v t) :
    Combed test r s (.ok r') t := by
  cases h with
  | @through ruling _ _ h =>
    cases k with
    | @through ruling' _ _ k =>
      have hboth := (Consulted.of_part h hp).append (Consulted.of_part k hq)
      rw [← Site.heard_parting, ← hr] at hboth
      obtain rfl | hv := hv
      · exact .through hboth
      · exact .through (hboth.after hv)

end

theorem exec_rejoin_making (gs : List φ) (make : Nat → Rule σ φ) (whole p q p' q' : Rule σ φ)
    (s : Session σ) :
    ∃ r t, (rejoin whole p q p' q' (join make p' q')).exec s = (.ok r, t) ∧
      (t = s ∨ Making gs s t) := by
  obtain ⟨-, -, hj⟩ | ⟨-, hj⟩ := rejoin_cases whole p q p' q' (join make p' q')
  · exact ⟨whole, s, by rw [hj, Run.exec_pure], .inl rfl⟩
  · obtain ⟨r, t, hr, hcases⟩ := exec_join make p' q' s
    refine ⟨r, t, by rw [hj, hr], ?_⟩
    obtain ⟨-, -, rfl⟩ | ⟨-, -, rfl⟩ | ⟨-, -, -, rfl⟩ := hcases
    · exact .inl rfl
    · exact .inl rfl
    · exact .inr (.numbered s)

def CombedBy (test : Test σ φ) (p : Rule σ φ) : Prop :=
  ∀ {s t : Session σ} {res : Except Fault (Rule σ φ)}, (p.filter test).exec s = (res, t) →
    Combed test p s res t

theorem combed_of_parts {make : Rule σ φ → Rule σ φ → Nat → Rule σ φ} {whole : Rule σ φ}
    (hsites : whole.sites = p.sites.map (.via .first) ++ q.sites.map (.via .second))
    (hsub : p.outline.derivations ++ q.outline.derivations ⊆ whole.outline.derivations)
    (ihp : CombedBy test p) (ihq : CombedBy test q) {res : Except Fault (Rule σ φ)}
    (he : (do
      let p' ← p.filter test
      let q' ← q.filter test
      rejoin whole p q p' q' (join (make p' q') p' q')).exec s = (res, t)) :
    Combed test whole s res t := by
  rw [List.append_subset] at hsub
  cases hp : (p.filter test).exec s with
  | mk resp u =>
    have hcp := ihp hp
    cases resp with
    | error e =>
      cases (Run.exec_bind_error hp).symm.trans he
      exact hcp.first hsites hsub.1
    | ok p' =>
      rw [Run.exec_bind_ok hp] at he
      cases hq : (q.filter test).exec u with
      | mk resq v =>
        have hcq := ihq hq
        cases resq with
        | error e =>
          cases (Run.exec_bind_error hq).symm.trans he
          exact hcp.second hsites hsub.1 hsub.2 hcq
        | ok q' =>
          rw [Run.exec_bind_ok hq] at he
          obtain ⟨r, x, hx, hv⟩ :=
            exec_rejoin_making whole.outline.recipes (make p' q') whole p q p' q' v
          cases hx.symm.trans he
          exact hcp.both hsites hsub.1 hsub.2 hcq hv

section

variable {n : Nat} {source source' : Rule σ φ} {recipe : φ} {body : Override σ} {expiry : Expiry}
  {label : Text}

theorem combed_of_derive {v : Session σ} {res : Except Fault (Rule σ φ)}
    (hk : (test ⟨.derived n source recipe body expiry label, label, expiry, true⟩).exec s =
      (.ok true, u))
    (h : Combed test source u (.ok source') v)
    (he : (source'.derive expiry recipe label).exec v = (res, t)) :
    Combed test (.derived n source recipe body expiry label) s res t := by
  have hsub : source.outline.derivations ⊆
      (derived n source recipe body expiry label).outline.derivations := List.subset_cons_self _ _
  cases h with
  | @through ruling _ _ h =>
    have hall := Consulted.told hk (Consulted.of_part h hsub)
    rw [← Site.heard_entering_of_true] at hall
    by_cases hne : source' = .empty
    · subst hne
      cases he
      exact .through hall
    · cases hcall : (Recipe.derive recipe source').exec v with
      | mk a w =>
        cases hr : refusal? label a with
        | some e =>
          cases (exec_derive_of_refusal hne hcall hr).symm.trans he
          exact .stopped (List.append_nil _).symm hall (.refused List.mem_cons_self hcall hr)
        | none =>
          obtain ⟨f, rfl⟩ := refusal?_eq_none_iff.1 hr
          have hmade : (source'.derive expiry recipe label).exec v = _ :=
            exec_derive_eq_ok.2 (.inr ⟨hne, f, w, hcall, rfl, rfl⟩)
          cases hmade.symm.trans he
          exact .through ((hall.after (.derived List.mem_cons_self hcall)).after (.numbered w))

theorem Combed.below
    (hk : (test ⟨.derived n source recipe body expiry label, label, expiry, true⟩).exec s =
      (.ok true, u))
    (h : Combed test source u (.error e) t) :
    Combed test (.derived n source recipe body expiry label) s (.error e) t := by
  have hsub : source.outline.derivations ⊆
      (derived n source recipe body expiry label).outline.derivations := List.subset_cons_self _ _
  cases h with
  | @stopped ruling calls rest _ _ _ hc h hs =>
    have hall := Consulted.told hk (Consulted.of_part h hsub)
    have hcr : Site.heard (Way.entering true ruling)
        (derived n source recipe body expiry label).sites = (_ :: calls) ++ rest :=
      (Site.heard_entering_of_true _ _ _).trans (congrArg (List.cons _) hc)
    have hrest := hs.mono hsub []
    rw [List.append_nil] at hrest
    exact .stopped hcr hall hrest

end

theorem Combed.failed {c : Clause σ φ} {xs : List (Site σ φ)} (hr : r.sites = ⟨[], c⟩ :: xs)
    (h : (test c).exec s = (.error e, t)) : Combed test r s (.error e) t := by
  have hc : Site.heard (fun _ => true) r.sites = [] ++ (c, true) :: Site.heard (fun _ => true) xs :=
    hr ▸ rfl
  exact .stopped hc (.done s) (.failed h)

theorem combed_of_filter (r : Rule σ φ) : CombedBy test r := by
  induction r with
  | empty =>
    intro s t res he
    cases he
    have h : Consulted test (Making ([] : List φ)) s
        (Site.heard (fun _ => true) (empty : Rule σ φ).sites) s := .done s
    exact .through h
  | clause n body expiry blocking label =>
    intro s t res he
    cases hc : (test ⟨.clause n body expiry blocking label, label, expiry, false⟩).exec s with
    | mk a u =>
      cases a with
      | error e =>
        cases (Run.exec_bind_error hc).symm.trans he
        exact .failed rfl hc
      | ok b =>
        rw [filter, Run.exec_bind_ok hc] at he
        cases he
        have h : Consulted test (Making ([] : List φ)) s (Site.heard (fun _ => b)
            (clause n body expiry blocking label : Rule σ φ).sites) t := .told hc (.done t)
        exact .through h
  | seq n body a b iha ihb =>
    intro s t res he
    exact combed_of_parts rfl (List.Subset.refl _) iha ihb he
  | alt n body a b iha ihb =>
    intro s t res he
    exact combed_of_parts rfl (List.Subset.refl _) iha ihb he
  | derived n source recipe body expiry label ih =>
    -- The one case in which a ruling decides where the test goes: a derived rule that is turned down
    -- has no part in it but itself.
    intro s t res he
    cases hc : (test ⟨.derived n source recipe body expiry label, label, expiry, true⟩).exec s with
    | mk a u =>
      cases a with
      | error e =>
        cases (Run.exec_bind_error hc).symm.trans he
        exact .failed rfl hc
      | ok b =>
        rw [filter, Run.exec_bind_ok hc] at he
        cases b with
        | false =>
          cases he
          have h : Consulted test (Making (recipe :: source.outline.recipes)) s
              (Site.heard (Way.entering false fun _ => true)
                (derived n source recipe body expiry label).sites) t := by
            rw [sites, Site.heard_entering_of_false]
            exact .told hc (.done t)
          exact .through h
        | true =>
          cases hs : (source.filter test).exec u with
          | mk ress v =>
            cases ress with
            | error e =>
              cases (Run.exec_bind_error hs).symm.trans he
              exact (ih hs).below hc
            | ok source' =>
              exact combed_of_derive hc (ih hs) ((Run.exec_bind_ok hs).symm.trans he)

/-- Whatever a test does, it is called on one site after the other: on a derived rule before what is
in its source, and on the first part of a whole before the second. What it is shown is what stands
there in the rule itself. A search is over once the test passes something. A filter leaves out what
is in the source of a derived rule that the test has turned down, and nothing else. -/
theorem consults_in_turn (p : Rule σ φ) (test : Test σ φ) (s : Session σ) :
    Searched test p.clauses s ((p.any test).exec s).1 ((p.any test).exec s).2 ∧
      Combed test p s ((p.filter test).exec s).1 ((p.filter test).exec s).2 ∧
      p.sites.map Site.clause = p.clauses ∧
      p.sites.Pairwise (fun x y => x.ways < y.ways) ∧
      (∀ x, x ∈ p.sites ↔ (p.follow x.ways).bind view? = some x.clause) ∧
      ∀ ruling, ∀ x ∈ p.sites, Way.admitted ruling x.ways = true ↔
        ∀ ws, ws ++ [.source] <+: x.ways → ruling ws = true := by
  refine ⟨?_, combed_of_filter p rfl, map_clause_sites p, pairwise_sites p, fun _ => mem_sites_iff,
    fun _ _ _ => Way.admitted_iff⟩
  rw [any_eq_anyOf_clauses]
  exact searched_of_anyOf rfl

end Rule

namespace Scenario

def patient : Test Tally Method :=
  recordedTest fun _ => Run.onClient fun t => (t.events.size ≤ 3, t)

example :
    ∃ q t, (guarded.filter patient).exec workbench.session = (.ok q, t) ∧
      q.render = "mirror*((brief>10d & joined@90d))@80d" ∧
      t.client.events = #[.test "mirror" ⟨.on, 80⟩ true true,
        .test "brief" ⟨.after, 10⟩ false false, .test "joined" ⟨.on, 90⟩ false false,
        .test "broken" ⟨.before, 90⟩ true false, .test "joined" ⟨.on, 90⟩ false false] :=
  ⟨_, _, rfl, by decide +kernel, rfl⟩

end Scenario

end LayoutRules
