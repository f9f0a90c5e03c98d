import RakuTree.Build

/-!
# RakuTree.Proofs.PlanLogic

Reasoning about plans without running them.

A rule answers with a plan, and a plan can do four things only. `Plan.Meets G Q`
says of a plan, by recursion on it, that its result satisfies `Q` as long as all
inner matches come to elements that satisfy `G`, and that it never stops for the
sake of a gap. `Plan.asked` lists the inner matches it comes to ask for in a run.

The two are tied to building in `produce_yields`: what every rule that runs hands on,
the whole build hands on. A fact about all elements that can be built is therefore shown
rule by rule, with no run in sight.
-/

namespace RakuTree

/-- Is it a fault about a gap between elements, a `Fault.gap`? -/
def Fault.isGap : Fault → Bool
  | gap _ => true
  | _ => false

/-! ### Outcomes of building -/

namespace Build

variable {α β : Type} {s : BuildState}

/-- Started in state `s`, `x` comes to a result that satisfies `Q`, or stops, but not
because of a gap. -/
def Yields (x : Build α) (s : BuildState) (Q : α → Prop) : Prop :=
  match x.run s with
  | .ok a _ => Q a
  | .error e _ => e.isGap = false

theorem run_bind (x : Build α) (k : α → Build β) (s : BuildState) :
    (x >>= k).run s =
      match x.run s with
      | .ok a t => (k a).run t
      | .error e t => .error e t := by
  change EStateM.bind x k s = _
  unfold EStateM.bind EStateM.run
  cases x s <;> rfl

theorem run_within (p : Production) (x : Build α) (s : BuildState) :
    (within p x).run s = left (x.run (s.enter p)) := rfl

theorem run_bind_of_ok {x : Build α} {t : BuildState} {a : α} (h : x.run s = .ok a t)
    (k : α → Build β) : (x >>= k).run s = (k a).run t := by
  rw [run_bind, h]

/-- A run of `x >>= k` that returns is a run of `x` and then one of `k`. -/
theorem bind_ok {x : Build α} {k : α → Build β} {u : BuildState} {b : β}
    (h : (x >>= k).run s = .ok b u) : ∃ a t, x.run s = .ok a t ∧ (k a).run t = .ok b u := by
  rw [run_bind] at h
  split at h
  · rename_i a t hx
    exact ⟨a, t, hx, h⟩
  · exact nomatch h

theorem Yields.bind {x : Build α} {k : α → Build β} {R : α → Prop} {Q : β → Prop}
    (hx : x.Yields s R) (hk : ∀ a t, x.run s = .ok a t → R a → (k a).Yields t Q) :
    (x >>= k).Yields s Q := by
  unfold Yields at hx ⊢
  rw [run_bind]
  cases h : x.run s with
  | ok a t =>
      rw [h] at hx
      exact hk a t h hx
  | error e t =>
      rw [h] at hx
      exact hx

theorem Yields.mono {x : Build α} {R Q : α → Prop} (hx : x.Yields s R) (h : ∀ a, R a → Q a) :
    x.Yields s Q := by
  unfold Yields at hx ⊢
  cases hr : x.run s with
  | ok a t =>
      rw [hr] at hx
      exact h a hx
  | error e t =>
      rw [hr] at hx
      exact hx

/-- Being through with some work (`Build.left`) does not change what came of it. -/
theorem Yields.left {x y : Build α} {Q : α → Prop} {t : BuildState} (hx : x.Yields t Q)
    (h : y.run s = Build.left (x.run t)) : y.Yields s Q := by
  unfold Yields at hx ⊢
  rw [h]
  cases hr : x.run t with
  | ok a u =>
      rw [hr] at hx
      exact hx
  | error e u =>
      rw [hr] at hx
      exact hx

theorem refuse_yields {Q : α → Prop} (r : Refusal) : (refuse r : Build α).Yields s Q := rfl

/-- A result that `x` returned satisfies `Q`. -/
theorem Yields.of_ok {x : Build α} {Q : α → Prop} (h : x.Yields s Q) {t : BuildState} {a : α}
    (hx : x.run s = .ok a t) : Q a := by
  rw [Yields, hx] at h
  exact h

/-- A fault that stopped `x` is not about a gap. -/
theorem Yields.of_error {x : Build α} {Q : α → Prop} (h : x.Yields s Q) {t : BuildState}
    {e : Fault} (hx : x.run s = .error e t) : e.isGap = false := by
  rw [Yields, hx] at h
  exact h

end Build

/-! ### Plans -/

namespace Plan

variable {f : Frame} {α β : Type} {G : List Element → Prop}

/-- As long as the elements of inner matches satisfy `G`, the plan comes to a result
that satisfies `Q` or stops, but not because of a gap. -/
def Meets (G : List Element → Prop) (Q : α → Prop) : Plan f α → Prop
  | done a => Q a
  | fail e => e.isGap = false
  | refuse _ => True
  | hereDoc _ next => ∀ lines, (next lines).Meets G Q
  | build _ _ next => ∀ es, G es → (next es).Meets G Q

theorem Meets.bind {x : Plan f α} {k : α → Plan f β} {R : α → Prop} {Q : β → Prop}
    (hx : x.Meets G R) (hk : ∀ a, R a → (k a).Meets G Q) : (x >>= k).Meets G Q := by
  rw [bind_eq_bind]
  induction x with
  | done a => exact hk a hx
  | fail e => exact hx
  | refuse r => trivial
  | hereDoc terminator next ih => exact fun lines => ih lines (hx lines)
  | build p c next ih => exact fun es hes => ih es (hx es hes)

theorem Meets.pure {Q : α → Prop} {a : α} (h : Q a) : (Pure.pure a : Plan f α).Meets G Q := h

theorem Meets.mono {x : Plan f α} {R Q : α → Prop} (hx : x.Meets G R) (h : ∀ a, R a → Q a) :
    x.Meets G Q := by
  rw [← bind_done x, ← bind_eq_bind]
  exact hx.bind fun a ha => h a ha

/-- A choice meets `Q` if both of its branches do. -/
theorem Meets.ite {c : Prop} [Decidable c] {x y : Plan f α} {Q : α → Prop} (hx : x.Meets G Q)
    (hy : y.Meets G Q) : (if c then x else y).Meets G Q := by
  split
  · exact hx
  · exact hy

theorem ofElement_meets {x : Except ElementError α} {Q : α → Prop} (h : ∀ a, x = .ok a → Q a) :
    (ofElement x : Plan f α).Meets G Q := by
  cases x with
  | ok a => exact h a rfl
  | error e => exact rfl

/-- The inner matches that following a plan from state `s` comes to build, missing ones included,
with the production for each and the state it starts in. -/
def asked (inner : Production → Option f.self.Inner → Build (List Element)) :
    Plan f α → BuildState → List (Production × Option f.self.Inner × BuildState)
  | done _, _ => []
  | fail _, _ => []
  | refuse _, _ => []
  | hereDoc terminator next, s =>
    match (claimHereDoc f terminator).run s with
    | .ok lines t => (next lines).asked inner t
    | .error _ _ => []
  | build p c next, s =>
    (p, c, s) ::
      match (inner p c).run s with
      | .ok es t => (next es).asked inner t
      | .error _ _ => []

theorem claimHereDoc_yields (f : Frame) (terminator : Text) (s : BuildState) :
    (claimHereDoc f terminator).Yields s fun _ => True := by
  simp only [claimHereDoc, Build.Yields, Build.run_bind, EStateM.run_get]
  cases s.ledger.claim f.src f.self.stop terminator with
  | ok found => trivial
  | error e => exact rfl

theorem run_bind (inner : Production → Option f.self.Inner → Build (List Element)) (x : Plan f α)
    (k : α → Plan f β) :
    (x >>= k).run inner = x.run inner >>= fun a => (k a).run inner := by
  rw [bind_eq_bind]
  induction x with
  | done a => rfl
  | fail e => rfl
  | refuse r => rfl
  | hereDoc terminator next ih =>
      rw [Plan.bind, run, run, LawfulMonad.bind_assoc]
      exact congrArg _ (funext ih)
  | build p c next ih =>
      rw [Plan.bind, run, run, LawfulMonad.bind_assoc]
      exact congrArg _ (funext ih)

/-- Following a plan yields what the plan meets, if every inner match it asks for yields `G`. -/
theorem Meets.run {x : Plan f α} {Q : α → Prop} (h : x.Meets G Q)
    {inner : Production → Option f.self.Inner → Build (List Element)} {s : BuildState}
    (hin : ∀ p c t, (p, c, t) ∈ x.asked inner s → (inner p c).Yields t G) :
    (x.run inner).Yields s Q := by
  induction x generalizing s with
  | done a => exact h
  | fail e => exact h
  | refuse r => exact Build.refuse_yields r
  | hereDoc terminator next ih =>
      refine (claimHereDoc_yields f terminator s).bind fun lines t hlines _ => ?_
      refine ih lines (h lines) fun p c u hc => hin p c u ?_
      rw [asked, hlines]
      exact hc
  | build p c next ih =>
      rw [asked] at hin
      refine (hin p c s List.mem_cons_self).bind fun es t hes hG => ?_
      rw [hes] at hin
      exact ih es (h es hG) fun q d u hd => hin q d u (List.mem_cons_of_mem _ hd)

end Plan

/-! ### Building -/

/-- The state in which the rule of `p` starts: `p` is at work and, with `Options.trace` on, logged.
-/
def BuildState.entered (s : BuildState) (options : Options) (p : Production) (m : Match) :
    BuildState :=
  if options.trace then
    { s.enter p with log := s.log ++ [.producing p.key m.start m.stop (Shape.of m)] }
  else s.enter p

theorem BuildState.entered_ledger (s : BuildState) (options : Options) (p : Production)
    (m : Match) : (s.entered options p m).ledger = s.ledger := by
  rw [entered]
  split
  · rfl
  · rfl

/-- How `produce` builds the inner matches that a rule asks for. -/
def produceInner (src : Text) (options : Options) {m : Match} (q : Production)
    (c? : Option m.Inner) : Build (List Element) :=
  produceAny src options q (c?.map Match.Inner.val)

theorem produce_eq (src : Text) (options : Options) (p : Production) (m : Match) :
    produce src options p m = Build.within p (do
      if options.trace then Build.log [.producing p.key m.start m.stop (Shape.of m)]
      (p.rule ⟨src, p, m⟩).run (produceInner src options)) := by
  have hinner : (fun q (c? : Option m.Inner) =>
      c?.elim (produceAbsent options q) fun c => produce src options q c.val) =
      produceInner src options := by
    funext q c?
    cases c? with
    | none => rfl
    | some c => rfl
  rw [produce, hinner]

theorem produce_run (src : Text) (options : Options) (p : Production) (m : Match)
    (s : BuildState) :
    (produce src options p m).run s =
      Build.left (((p.rule ⟨src, p, m⟩).run (produceInner src options)).run
        (s.entered options p m)) := by
  rw [produce_eq, Build.run_within, BuildState.entered]
  split
  · rfl
  · rfl

/-- The productions that run when `m` is built by `p` from state `s`, each with its
match. -/
def runs (src : Text) (options : Options) (p : Production) (m : Match) (s : BuildState) :
    List (Production × Match) :=
  (p, m) ::
    ((p.rule ⟨src, p, m⟩).asked (produceInner src options)
      (s.entered options p m)).flatMap fun a =>
        match a.2.1 with
        | some c => runs src options a.1 c.val a.2.2
        | none => []
termination_by sizeOf m
decreasing_by exact c.inside.sizeOf_lt

variable {src : Text} {options : Options}

/-- What `runs` lists for an inner match that is asked for, it lists for the outer match. -/
theorem runs_of_asked {p q r : Production} {m d : Match} {c : m.Inner} {s t : BuildState}
    (hc : (q, some c, t) ∈ (p.rule ⟨src, p, m⟩).asked (produceInner src options)
      (s.entered options p m))
    (h : (r, d) ∈ runs src options q c.val t) : (r, d) ∈ runs src options p m s := by
  rw [runs]
  exact List.mem_cons_of_mem _ (List.mem_flatMap.mpr ⟨(q, some c, t), hc, h⟩)

/-- All matches in `runs` belong to the tree of the match `m` that it starts with. -/
theorem runs_within {p q : Production} {m d : Match} {s : BuildState}
    (h : (q, d) ∈ runs src options p m s) : d = m ∨ d.Inside m := by
  induction m using Match.inner_induction generalizing p s with
  | step m ih =>
      rw [runs, List.mem_cons] at h
      rcases h with h | h
      · exact .inl (Prod.mk.inj h).2
      · obtain ⟨⟨p', c?, t⟩, -, hc⟩ := List.mem_flatMap.mp h
        cases c? with
        | none => exact absurd hc List.not_mem_nil
        | some c =>
            rcases ih c hc with rfl | hd
            · exact .inr c.inside
            · exact .inr (.trans hd c.inside)

/-- If every rule that runs hands `G` on from inner matches to its own, the whole build
yields `G`. -/
theorem produce_yields {G : List Element → Prop} {p : Production} {m : Match} {s : BuildState}
    (hrule : ∀ q d, (q, d) ∈ runs src options p m s → (q.rule ⟨src, q, d⟩).Meets G G) :
    (produce src options p m).Yields s G := by
  induction m using Match.inner_induction generalizing p s with
  | step m ih =>
      have hself : (p.rule ⟨src, p, m⟩).Meets G G := by
        refine hrule p m ?_
        rw [runs]
        exact List.mem_cons_self
      have hinner : ∀ q c? t, (q, c?, t) ∈ (p.rule ⟨src, p, m⟩).asked (produceInner src options)
          (s.entered options p m) → (produceInner src options q c?).Yields t G := by
        intro q c? t hc
        cases c? with
        | none => rfl
        | some c =>
            exact ih c fun r d hd => hrule r d (runs_of_asked hc hd)
      exact (hself.run hinner).left (produce_run src options p m s)

end RakuTree
