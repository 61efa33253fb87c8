import LayoutRules.Proofs.WellBehaved

namespace LayoutRules

variable {σ φ : Type}

theorem Connective.pure_override (k : Connective) {f g : Override σ} (hf : f.Pure) (hg : g.Pure) :
    (k.override f g).Pure := by
  cases k with
  | seq => exact hf.followedBy hg
  | alt => exact hf.otherwise hg

def Connective.merge (k : Connective) : Option (Override σ) → Option (Override σ) →
    Option (Override σ) :=
  Option.merge k.override

namespace Rule

def override? : Rule σ φ → Option (Override σ)
  | .empty => none
  | r => some r.answer

theorem override?_eq_none_iff {r : Rule σ φ} : r.override? = none ↔ r = .empty := by
  cases r <;> simp [override?]

theorem override?_of_ne {r : Rule σ φ} (h : r ≠ .empty) : r.override? = some r.answer := by
  cases r with
  | empty => exact absurd rfl h
  | clause | seq | alt | derived => rfl

theorem answer_eq_getD (r : Rule σ φ) : r.answer = r.override?.getD Override.undefined := by
  cases r <;> rfl

end Rule

variable [Recipe φ σ]

namespace Rule

/-- A rule that is put together from two others and narrowed by way of them. -/
structure Joins (k : Connective) (p q r : Rule σ φ) : Prop where
  first : p ≠ .empty ∧ p ∈ r.parts
  second : q ≠ .empty ∧ q ∈ r.parts
  override : r.override? = some (k.override p.answer q.answer)
  narrow : ∀ b, r.narrow b = do
    let p' ← p.narrow b
    let q' ← q.narrow b
    rejoin r p q p' q' (k.join p' q')

theorem joins_of_founded_seq {n : Nat} {body : Override σ} {p q : Rule σ φ}
    (h : (seq n body p q).Founded) : Joins .seq p q (.seq n body p q) := by
  obtain ⟨hp, hq, rfl⟩ := h
  exact ⟨⟨hp, by simp [parts, self_mem_parts]⟩, ⟨hq, by simp [parts, self_mem_parts]⟩, rfl,
    fun _ => rfl⟩

theorem joins_of_founded_alt {n : Nat} {body : Override σ} {p q : Rule σ φ}
    (h : (alt n body p q).Founded) : Joins .alt p q (.alt n body p q) := by
  obtain ⟨hp, hq, rfl⟩ := h
  exact ⟨⟨hp, by simp [parts, self_mem_parts]⟩, ⟨hq, by simp [parts, self_mem_parts]⟩, rfl,
    fun _ => rfl⟩

theorem exec_connective_join (k : Connective) (p q : Rule σ φ) (s : Session σ) :
    ∃ r n, (k.join p q).exec s = (.ok r, { s with nextSerial := n }) ∧
      ((q = .empty ∧ r = p) ∨ (p = .empty ∧ r = q) ∨ Joins k p q r) := by
  cases k with
  | seq =>
    obtain ⟨r, t, he, ⟨hq, hr, rfl⟩ | ⟨hp, hr, rfl⟩ | ⟨hp, hq, rfl, rfl⟩⟩ := exec_join _ p q s
    · exact ⟨r, t.nextSerial, he, .inl ⟨hq, hr⟩⟩
    · exact ⟨r, t.nextSerial, he, .inr (.inl ⟨hp, hr⟩)⟩
    · exact ⟨_, _, he, .inr (.inr (joins_of_founded_seq ⟨hp, hq, rfl⟩))⟩
  | alt =>
    obtain ⟨r, t, he, ⟨hq, hr, rfl⟩ | ⟨hp, hr, rfl⟩ | ⟨hp, hq, rfl, rfl⟩⟩ := exec_join _ p q s
    · exact ⟨r, t.nextSerial, he, .inl ⟨hq, hr⟩⟩
    · exact ⟨r, t.nextSerial, he, .inr (.inl ⟨hp, hr⟩)⟩
    · exact ⟨_, _, he, .inr (.inr (joins_of_founded_alt ⟨hp, hq, rfl⟩))⟩

theorem exec_join_override? (k : Connective) (p q : Rule σ φ) (s : Session σ) :
    ∃ r n, (k.join p q).exec s = (.ok r, { s with nextSerial := n }) ∧
      r.override? = k.merge p.override? q.override? := by
  obtain ⟨r, n, he, hcases⟩ := exec_connective_join k p q s
  refine ⟨r, n, he, ?_⟩
  obtain ⟨rfl, rfl⟩ | ⟨rfl, rfl⟩ | hj := hcases
  · cases hr : r.override? <;> rfl
  · cases hr : r.override? <;> rfl
  · rw [hj.override, override?_of_ne hj.first.1, override?_of_ne hj.second.1]
    rfl

/-- Once serial numbers have come so far, narrowing the rule comes to narrowing two others and
putting together what is left of them. -/
structure NarrowedBy (k : Connective) (p q r : Rule σ φ) (n : Nat) : Prop where
  ok : ∀ {b s p' t q' u}, n ≤ s.nextSerial → (p.narrow b).exec s = (.ok p', t) →
    (q.narrow b).exec t = (.ok q', u) →
    ∃ r' m, (r.narrow b).exec s = (.ok r', { u with nextSerial := m }) ∧
      r'.override? = k.merge p'.override? q'.override?
  error : ∀ {b s p' t e u}, n ≤ s.nextSerial → (p.narrow b).exec s = (.ok p', t) →
    (q.narrow b).exec t = (.error e, u) → (r.narrow b).exec s = (.error e, u)

/-- In any session in which serial numbers have come so far, narrowing leaves a rule with this
override, or nothing. -/
def Leaves (r : Rule σ φ) (n : Nat) (b : Boundary) (x : Option (Override σ)) : Prop :=
  ∀ s, n ≤ s.nextSerial → ∃ q t, (r.narrow b).exec s = (.ok q, t) ∧ q.override? = x

/-- Of what is left of the source at a boundary the recipe makes the same pure override whenever the
source is narrowed to it. It never fails, and has no effect but that it may use up serial numbers.
The override may go by all that there is to the source, but not by which serial numbers are given
out while it is narrowed. -/
def Rederives (source : Rule σ φ) (recipe : φ) (n : Nat) : Prop :=
  ∀ b, ∃ f : Override σ, f.Pure ∧
    ∀ {s p t}, n ≤ s.nextSerial → (source.narrow b).exec s = (.ok p, t) → p ≠ .empty →
      ∃ k, (Recipe.derive recipe p).exec t = (.ok (some f), { t with nextSerial := k })

/-- Clauses are pure, and derived rules are as good as ever when they are derived anew. -/
def Steady (n : Nat) : Rule σ φ → Prop
  | .empty => True
  | .clause _ body _ _ _ => body.Pure
  | .seq _ _ p q => p.Steady n ∧ q.Steady n
  | .alt _ _ p q => p.Steady n ∧ q.Steady n
  | .derived _ source recipe _ _ _ => source.Steady n ∧ source.Rederives recipe n

variable {p q r : Rule σ φ} {n m : Nat} {b : Boundary} {x y : Option (Override σ)}

theorem Leaves.mono (h : r.Leaves n b x) (hm : n ≤ m) : r.Leaves m b x :=
  fun s hs => h s (Nat.le_trans hm hs)

variable {w : Bench σ φ}

theorem Joins.narrowedBy {k : Connective} (h : Joins k p q r) (hw : w.Reached) (hr : r ∈ w.rules) :
    NarrowedBy k p q r w.session.nextSerial where
  error _ hp hq := by rw [h.narrow, Run.exec_bind_ok hp, Run.exec_bind_error hq]
  ok := by
    intro b s p' t q' u hs hp hq
    have hw₀ := (hw.pass hs).takeBoth hr h.first.2 h.second.2
    have hw₁ := hw₀.make (.narrow p b) (by simp) hp
    have hw₂ := hw₁.make (.narrow q b) (by simp) hq
    rw [h.narrow, Run.exec_bind_ok hp, Run.exec_bind_ok hq]
    obtain ⟨hsp, hsq, hj⟩ | ⟨_, hj⟩ := rejoin_cases r p q p' q' (k.join p' q')
    · have hep : p' = p := hw₂.eq_of_same (by simp) (by simp) hsp
      have heq : q' = q := hw₂.eq_of_same (by simp) (by simp) hsq
      refine ⟨r, u.nextSerial, by rw [hj]; rfl, ?_⟩
      rw [h.override, hep, heq, override?_of_ne h.first.1, override?_of_ne h.second.1]
      rfl
    · rw [hj]
      exact exec_join_override? k p' q' u

theorem exec_join_narrowedBy (k : Connective) (hw : w.Reached) (hp : p ∈ w.rules)
    (hq : q ∈ w.rules) :
    ∃ r, ∃ v : Bench σ φ, (k.join p q).exec w.session = (.ok r, v.session) ∧ v.Reached ∧
      w.rules ⊆ v.rules ∧ r ∈ v.rules ∧ w.session.nextSerial ≤ v.session.nextSerial ∧
      NarrowedBy k p q r v.session.nextSerial := by
  obtain ⟨r, v, he, hv, hsub, hr, _⟩ := hw.exec_join k hp hq
  refine ⟨r, v, he, hv, hsub, hr, Run.nextSerial_le_of_exec he, ?_⟩
  obtain ⟨r', n, he', hcases⟩ := exec_connective_join k p q w.session
  cases (congrArg Prod.fst he').symm.trans (congrArg Prod.fst he)
  obtain ⟨rfl, rfl⟩ | ⟨rfl, rfl⟩ | hj := hcases
  · refine ⟨fun {b s p' t q' u} _ hp' hq' => ?_, fun _ _ hq' => by cases hq'⟩
    cases hq'
    exact ⟨p', t.nextSerial, hp', by cases p'.override? <;> rfl⟩
  · refine ⟨fun {b s p' t q' u} _ hp' hq' => ?_, fun _ hp' hq' => by cases hp'; exact hq'⟩
    cases hp'
    exact ⟨q', u.nextSerial, hq', by cases q'.override? <;> rfl⟩
  · exact hj.narrowedBy hv hr

theorem NarrowedBy.leaves {k : Connective} (h : NarrowedBy k p q r n) (hp : p.Leaves n b x)
    (hq : q.Leaves n b y) : r.Leaves n b (k.merge x y) := by
  intro s hs
  obtain ⟨p', t, hp', rfl⟩ := hp s hs
  obtain ⟨q', u, hq', rfl⟩ := hq t (Nat.le_trans hs (Run.nextSerial_le_of_exec hp'))
  obtain ⟨r', m, hr', ho⟩ := h.ok hs hp' hq'
  exact ⟨r', _, hr', ho⟩

omit [Recipe φ σ] in
theorem pure_of_mem_merge (k : Connective) (hx : ∀ f ∈ x, f.Pure) (hy : ∀ f ∈ y, f.Pure) :
    ∀ f ∈ k.merge x y, f.Pure := by
  cases x with
  | none => cases y <;> exact hy
  | some f =>
    cases y with
    | none => exact hx
    | some g =>
      intro h hm
      obtain rfl := Option.mem_some.1 hm
      exact k.pure_override (hx f rfl) (hy g rfl)

theorem leaves_none_of_expired (label : Text) (expiry : Expiry)
    (h : r.narrow b = do
      Run.write .trace fun _ => expiredText label expiry b
      return .empty) : r.Leaves n b none :=
  fun s _ => ⟨.empty, _, by rw [h, Run.exec_bind_ok (Run.exec_write _ _ s)]; rfl, rfl⟩

theorem Rederives.leaves {source : Rule σ φ} {recipe : φ} {body : Override σ} {expiry : Expiry}
    {label : Text} (h : source.Rederives recipe n) (hx : source.Leaves n b x)
    (hb : expiry.activeAt b = true) :
    ∃ y, (derived m source recipe body expiry label).Leaves n b y ∧ ∀ f ∈ y, f.Pure := by
  have hn : (derived m source recipe body expiry label).narrow b =
      source.narrow b >>= fun source' => source'.derive expiry recipe label := by
    simp only [narrow, hb, ↓reduceIte]
  obtain ⟨f, hf, he⟩ := h b
  -- Whether anything is left of the source is the same in every session, too.
  cases x with
  | none =>
    refine ⟨none, fun s hle => ?_, by simp⟩
    obtain ⟨p, t, hp, hpe⟩ := hx s hle
    obtain rfl := override?_eq_none_iff.1 hpe
    exact ⟨.empty, t, by rw [hn, Run.exec_bind_ok hp]; rfl, rfl⟩
  | some g =>
    refine ⟨some f, fun s hle => ?_, fun f' hm => Option.mem_some.1 hm ▸ hf⟩
    obtain ⟨p, t, hp, hpg⟩ := hx s hle
    have hne : p ≠ .empty := by
      rintro rfl
      cases hpg
    obtain ⟨k, hk⟩ := he hle hp hne
    have hmade : (p.derive expiry recipe label).exec t = _ :=
      exec_derive_eq_ok.2 (.inr ⟨hne, f, _, hk, rfl, rfl⟩)
    exact ⟨_, _, by rw [hn, Run.exec_bind_ok hp, hmade], rfl⟩

theorem exists_leaves (hw : w.Reached) (hr : r ∈ w.rules) (hs : r.Steady w.session.nextSerial)
    (b : Boundary) : ∃ x, r.Leaves w.session.nextSerial b x ∧ ∀ f ∈ x, f.Pure := by
  induction r generalizing w with
  | empty => exact ⟨none, fun s _ => ⟨.empty, s, rfl, rfl⟩, by simp⟩
  | clause n body expiry blocking label =>
    cases h : expiry.activeAt b with
    | true =>
      refine ⟨some body, fun s _ => ⟨.clause n body expiry blocking label, s, ?_, rfl⟩, ?_⟩
      · simp [narrow, h]
      · exact fun f hf => Option.mem_some.1 hf ▸ hs
    | false => exact ⟨none, leaves_none_of_expired label expiry (by simp [narrow, h]), by simp⟩
  | seq n body p q ihp ihq =>
    have hj := joins_of_founded_seq (hw.founded_parts hr _ (self_mem_parts _))
    obtain ⟨x, hx, hpx⟩ := ihp (hw.take hr hj.first.2) List.mem_cons_self hs.1
    obtain ⟨y, hy, hpy⟩ := ihq (hw.take hr hj.second.2) List.mem_cons_self hs.2
    exact ⟨_, (hj.narrowedBy hw hr).leaves hx hy, pure_of_mem_merge _ hpx hpy⟩
  | alt n body p q ihp ihq =>
    have hj := joins_of_founded_alt (hw.founded_parts hr _ (self_mem_parts _))
    obtain ⟨x, hx, hpx⟩ := ihp (hw.take hr hj.first.2) List.mem_cons_self hs.1
    obtain ⟨y, hy, hpy⟩ := ihq (hw.take hr hj.second.2) List.mem_cons_self hs.2
    exact ⟨_, (hj.narrowedBy hw hr).leaves hx hy, pure_of_mem_merge _ hpx hpy⟩
  | derived n source recipe body expiry label ih =>
    cases h : expiry.activeAt b with
    | false => exact ⟨none, leaves_none_of_expired label expiry (by simp [narrow, h]), by simp⟩
    | true =>
      have hw' := hw.takeSource hr
      obtain ⟨x, hx, _⟩ := ih hw' List.mem_cons_self hs.1
      exact hs.2.leaves hx h

section

variable {G : φ → Prop} {make : φ → Outline σ φ → Override σ}

theorem rederives_of_wellBehaved (hG : WellBehaved G make) (hK : KeepsPure G make) (hw : w.Reached)
    (hr : r ∈ w.rules) {recipe : φ} (hrecipe : G recipe) (hg : ∀ g ∈ r.outline.recipes, G g)
    (hb : ∀ f ∈ r.outline.bodies, f.Pure) : r.Rederives recipe w.session.nextSerial := by
  intro b
  have hgn : ∀ g ∈ (r.outline.narrow b).recipes, G g := fun g hm =>
    hg g (Outline.gathers_recipes.prune_subset _ _ hm)
  have hbn : ∀ f ∈ (r.outline.narrow b).bodies, f.Pure := fun f hm =>
    hb f (Outline.gathers_bodies.prune_subset _ _ hm)
  refine ⟨make recipe (r.outline.narrow b), hK hrecipe hgn hbn, fun {s p t} hle hp hne => ?_⟩
  have hws := hw.pass (s := s) hle
  obtain ⟨p', t', hp', ho⟩ := exec_narrow hG hws hr hg b
  cases hp'.symm.trans hp
  have hwp := hws.make (.narrow r b) (by simpa using hr) hp
  obtain ⟨k, hk⟩ := hG hwp List.mem_cons_self hne (by rwa [ho]) hrecipe
  exact ⟨k, by rw [hk, ho]⟩

/-- Rules are steady if their recipes go by nothing but the tree of what they are called on. -/
theorem steady_of_wellBehaved (hG : WellBehaved G make) (hK : KeepsPure G make) (hw : w.Reached)
    (hr : r ∈ w.rules) (hg : ∀ g ∈ r.outline.recipes, G g) (hb : ∀ f ∈ r.outline.bodies, f.Pure) :
    r.Steady w.session.nextSerial := by
  induction r generalizing w with
  | empty => trivial
  | clause n body => exact hb body (List.mem_singleton_self _)
  | seq n body p q ihp ihq | alt n body p q ihp ihq =>
    simp only [outline, Outline.recipes, Outline.bodies, List.forall_mem_append] at hg hb
    have hp := hw.take (p := p) hr (by simp [parts, self_mem_parts])
    have hq := hw.take (p := q) hr (by simp [parts, self_mem_parts])
    have hsp := ihp hp List.mem_cons_self hg.1 hb.1
    have hsq := ihq hq List.mem_cons_self hg.2 hb.2
    exact ⟨hsp, hsq⟩
  | derived n source recipe body expiry label ih =>
    simp only [outline, Outline.recipes, Outline.bodies, List.forall_mem_cons] at hg hb
    have hw' := hw.takeSource hr
    have hsource := ih hw' List.mem_cons_self hg.2 hb
    have hagain := rederives_of_wellBehaved hG hK hw' List.mem_cons_self hg.1 hg.2 hb
    exact ⟨hsource, hagain⟩

end

end Rule

end LayoutRules
