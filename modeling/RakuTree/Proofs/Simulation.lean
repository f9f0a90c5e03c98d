import RakuTree.Proofs.PlanLogic

/-!
# RakuTree.Proofs.Simulation

Building from two states side by side.

Of its state, a build reads the ledger of here-docs only; it writes to the log and notes what is at
work, but looks at neither. So what two states have in common beyond their ledgers makes no
difference to what is built, and stays in common. `BuildState.Kept` says which relations of states
this covers. The one induction over plans and matches is done for all of them
(`produce_related`).

The options make a difference to one fault only: of a match that is missing, tracing asks something
else first than a rule does (`Options.firstAsked`). `Fault.Alike` says which faults two builds with
different options may stop with.
-/

namespace RakuTree

/-- A build with `options` may stop with `e` where one with `options'` stops with `e'`: they are the
same fault, or both stopped at the first thing that was asked of a missing match. -/
def Fault.Alike (options options' : Options) (e e' : Fault) : Prop :=
  e = e' ∨ e = .absentCapture options.firstAsked ∧ e' = .absentCapture options'.firstAsked

theorem Fault.Alike.refl {options options' : Options} (e : Fault) : Alike options options' e e :=
  .inl rfl

/-- Building keeps the relation `R`: related states have the same ledger, and stay related when the
same happens to both. -/
structure BuildState.Kept (R : BuildState → BuildState → Prop) : Prop where
  /-- Related states have the same ledger, which is all that a build reads. -/
  ledger : ∀ {s t}, R s t → s.ledger = t.ledger
  /-- Two states stay related by `R` when the same `events` are logged. -/
  log : ∀ {s t} (events : List Event), R s t →
    R { s with log := s.log ++ events } { t with log := t.log ++ events }
  /-- Two states stay related when a here-doc is claimed, which leaves them the ledger `l`. -/
  claim : ∀ {s t} (l : Ledger), R s t → R { s with ledger := l } { t with ledger := l }
  /-- Two states stay related when `p` begins to work. -/
  enter : ∀ {s t} (p : Production), R s t → R (s.enter p) (t.enter p)
  /-- Two states stay related when `p` begins to work on `m`, even if only one of them is traced. -/
  entered : ∀ {s t} (options options' : Options) (p : Production) (m : Match), R s t →
    R (s.entered options p m) (t.entered options' p m)
  /-- Two states stay related when a production is through, by `BuildState.leave`. -/
  leave : ∀ {s t}, R s t → R s.leave t.leave

namespace Build

variable {α β : Type} {options options' : Options} {R : BuildState → BuildState → Prop}

/-- Two builds ended alike: with the same value or with faults that are `Fault.Alike`, in states
related by `R`. -/
inductive EndAlike (options options' : Options) (R : BuildState → BuildState → Prop) :
    EStateM.Result Fault BuildState α → EStateM.Result Fault BuildState α → Prop
  /-- Both returned the same value `a`. -/
  | ok {a : α} {s t : BuildState} (h : R s t) : EndAlike options options' R (.ok a s) (.ok a t)
  /-- Both stopped, with faults that are `Alike`. -/
  | error {e e' : Fault} {s t : BuildState} (he : e.Alike options options' e') (h : R s t) :
      EndAlike options options' R (.error e s) (.error e' t)

/-- From states related by `R`, a build `x` with `options` and a build `y` with `options'` are
`EndAlike`. -/
def Related (options options' : Options) (R : BuildState → BuildState → Prop) (x y : Build α) :
    Prop :=
  ∀ s t, R s t → EndAlike options options' R (x.run s) (y.run t)

namespace Related

theorem pure (a : α) : Related options options' R (Pure.pure a) (Pure.pure a) :=
  fun _ _ h => .ok h

theorem throw (e : Fault) :
    Related options options' R (MonadExcept.throw e : Build α) (MonadExcept.throw e) :=
  fun _ _ h => .error (.refl e) h

theorem bind {x y : Build α} {k l : α → Build β} (hx : Related options options' R x y)
    (hk : ∀ a, Related options options' R (k a) (l a)) :
    Related options options' R (x >>= k) (y >>= l) := by
  intro s t h
  have hrun := hx s t h
  rw [run_bind, run_bind]
  generalize x.run s = r, y.run t = r' at hrun
  cases hrun with
  | ok h' => exact hk _ _ _ h'
  | error he h' => exact .error he h'

theorem log (hR : BuildState.Kept R) (events : List Event) :
    Related options options' R (log events) (log events) := fun _ _ h => .ok (hR.log events h)

theorem refuse (hR : BuildState.Kept R) (r : Refusal) :
    Related options options' R (refuse r : Build α) (refuse r) :=
  (log hR _).bind fun _ => throw _

/-- What `x` returns, `y` returns, in a related state. -/
theorem ok {x y : Build α} (h : Related options options' R x y) {s t u : BuildState} {a : α}
    (hst : R s t) (hx : x.run s = .ok a u) : ∃ v, y.run t = .ok a v ∧ R u v := by
  have hrun := h s t hst
  rw [hx] at hrun
  generalize y.run t = r at hrun
  cases hrun with
  | ok h' => exact ⟨_, rfl, h'⟩

end Related

theorem EndAlike.left (hR : BuildState.Kept R) {x y : EStateM.Result Fault BuildState α}
    (h : EndAlike options options' R x y) : EndAlike options options' R (left x) (left y) := by
  cases h with
  | ok h => exact .ok (hR.leave h)
  | error he h => exact .error he (hR.leave h)

end Build

variable {options options' : Options} {R : BuildState → BuildState → Prop}

namespace Plan

theorem claimHereDoc_related (hR : BuildState.Kept R) (f : Frame) (terminator : Text) :
    Build.Related options options' R (claimHereDoc f terminator) (claimHereDoc f terminator) := by
  intro s t h
  simp only [claimHereDoc, Build.run_bind, EStateM.run_get]
  rw [← hR.ledger h]
  cases s.ledger.claim f.src f.self.stop terminator with
  | error e => exact Build.Related.refuse hR _ s t h
  | ok found => exact .ok (hR.claim found.2 h)

theorem run_related (hR : BuildState.Kept R) {f : Frame} {α : Type} (x : Plan f α)
    {inner inner' : Production → Option f.self.Inner → Build (List Element)}
    (h : ∀ p c?, Build.Related options options' R (inner p c?) (inner' p c?)) :
    Build.Related options options' R (x.run inner) (x.run inner') := by
  induction x with
  | done a => exact .pure a
  | fail e => exact .throw e
  | refuse r => exact .refuse hR r
  | hereDoc terminator next ih => exact (claimHereDoc_related hR f terminator).bind ih
  | build p c? next ih => exact (h p c?).bind ih

end Plan

theorem produceAbsent_related (hR : BuildState.Kept R) (options options' : Options)
    (p : Production) :
    Build.Related options options' R (produceAbsent options p) (produceAbsent options' p) := by
  intro s t h
  have hstopped : Build.EndAlike options options' R
      ((throw (.absentCapture options.firstAsked) : Build (List Element)).run (s.enter p))
      ((throw (.absentCapture options'.firstAsked) : Build (List Element)).run (t.enter p)) :=
    .error (.inr ⟨rfl, rfl⟩) (hR.enter p h)
  exact hstopped.left hR

/-- A match is built alike from related states, whatever the options. This is the one induction over
plans and matches (`Plan.run_related`). -/
theorem produce_related (hR : BuildState.Kept R) (src : Text) (options options' : Options)
    (p : Production) (m : Match) :
    Build.Related options options' R (produce src options p m) (produce src options' p m) := by
  induction m using Match.inner_induction generalizing p with
  | step m ih =>
      intro s t h
      rw [produce_run, produce_run]
      have hentered := hR.entered options options' p m h
      refine (Plan.run_related hR _ (fun q c? => ?_) _ _ hentered).left hR
      cases c? with
      | none => exact produceAbsent_related hR options options' q
      | some c => exact ih c q

/-- A match that may be missing is built alike from related states: `produce_related` and
`produceAbsent_related` in one. -/
theorem produceAny_related (hR : BuildState.Kept R) (src : Text) (options options' : Options)
    (p : Production) (m? : Option Match) :
    Build.Related options options' R (produceAny src options p m?)
      (produceAny src options' p m?) := by
  cases m? with
  | none => exact produceAbsent_related hR options options' p
  | some m => exact produce_related hR src options options' p m

/-! ### States with the same ledger -/

/-- The states have the same ledger, and may differ in all the rest. -/
def BuildState.SameLedger (s t : BuildState) : Prop := s.ledger = t.ledger

theorem BuildState.sameLedger_kept : Kept SameLedger where
  ledger h := h
  log _ h := h
  claim _ _ := rfl
  enter _ h := h
  entered options options' p m h :=
    (entered_ledger _ options p m).trans (h.trans (entered_ledger _ options' p m).symm)
  leave h := h

theorem Build.left_ok {α : Type} {r : EStateM.Result Fault BuildState α} {a : α} {t : BuildState}
    (h : left r = .ok a t) : ∃ u, r = .ok a u ∧ u.SameLedger t := by
  cases r with
  | ok b u =>
      cases h
      exact ⟨u, rfl, rfl⟩
  | error e u => cases h

/-! ### Builds that claim no here-doc -/

namespace Build

variable {α β : Type}

/-- From state `s`, the build comes to what `o` says, or stops if it says nothing; where it returns,
no here-doc was claimed. -/
structure Gives (x : Build α) (s : BuildState) (o : Option α) : Prop where
  /-- The build `x` returns what `o` says. -/
  ok : ∀ a, o = some a → ∃ t, x.run s = .ok a t ∧ s.SameLedger t
  /-- The build `x` stops where `o` is `none`. -/
  error : o = none → ∃ e t, x.run s = .error e t

namespace Gives

variable {x : Build α} {s : BuildState} {o : Option α}

theorem of_ok {a : α} {t : BuildState} (h : x.run s = .ok a t) (hledger : s.SameLedger t) :
    x.Gives s (some a) := by
  refine ⟨fun b hb => ?_, fun hnone => ?_⟩
  · cases hb
    exact ⟨t, h, hledger⟩
  · cases hnone

theorem of_error {e : Fault} {t : BuildState} (h : x.run s = .error e t) : x.Gives s none := by
  refine ⟨fun a ha => ?_, fun _ => ⟨e, t, h⟩⟩
  cases ha

/-- What was returned is what `o` says. -/
theorem eq_some {a : α} {t : BuildState} (h : x.Gives s o) (hx : x.run s = .ok a t) :
    o = some a ∧ s.SameLedger t := by
  cases o with
  | none =>
      obtain ⟨e, u, hu⟩ := h.error rfl
      rw [hx] at hu
      cases hu
  | some b =>
      obtain ⟨u, hu, hledger⟩ := h.ok b rfl
      rw [hx] at hu
      cases hu
      exact ⟨rfl, hledger⟩

theorem bind {k : α → Build β} {l : α → Option β} (hx : x.Gives s o)
    (hk : ∀ a t, o = some a → (k a).Gives t (l a)) : (x >>= k).Gives s (o.bind l) := by
  cases o with
  | none =>
      obtain ⟨e, t, ht⟩ := hx.error rfl
      exact of_error (by rw [run_bind, ht])
  | some a =>
      obtain ⟨t, ht, hledger⟩ := hx.ok a rfl
      refine ⟨fun b hb => ?_, fun hnone => ?_⟩
      · obtain ⟨u, hu, hledger'⟩ := (hk a t rfl).ok b hb
        exact ⟨u, by rw [run_bind_of_ok ht, hu], hledger.trans hledger'⟩
      · obtain ⟨e, u, hu⟩ := (hk a t rfl).error hnone
        exact ⟨e, u, by rw [run_bind_of_ok ht, hu]⟩

end Gives

end Build

variable {f : Frame} {α : Type} {inner : Production → Option f.self.Inner → Build (List Element)}
  {s : BuildState}

theorem Plan.done_gives (a : α) : ((done a : Plan f α).run inner).Gives s (some a) := .of_ok rfl rfl

theorem Plan.fail_gives (e : Fault) : ((fail e : Plan f α).run inner).Gives s none := .of_error rfl

theorem Plan.refuse_gives (r : Refusal) : ((refuse r : Plan f α).run inner).Gives s none :=
  .of_error rfl

theorem Plan.ofElement_gives (x : Except ElementError α) :
    ((ofElement x : Plan f α).run inner).Gives s x.toOption := by
  cases x with
  | ok a => exact done_gives a
  | error e => exact fail_gives _

theorem Frame.trimmed_gives (f : Frame)
    {inner : Production → Option f.self.Inner → Build (List Element)} (cls : LeafClass) (c : Match)
    (s : BuildState) :
    ((f.trimmed cls c).run inner).Gives s
      ((Leaf.trimmed cls f.src c.start c.stop f.origin {}).toOption.map fun l => [.leaf l]) := by
  rw [Frame.trimmed, Plan.run_bind, Option.map_eq_bind]
  exact (Plan.ofElement_gives _).bind fun l _ _ => Plan.done_gives _

/-- A production gives what its rule gives (`produce_run`). -/
theorem produce_gives {src : Text} {options : Options} {p : Production} {m : Match}
    {o : Option (List Element)}
    (h : ((p.rule ⟨src, p, m⟩).run (produceInner src options)).Gives
      (s.entered options p m) o) : (produce src options p m).Gives s o := by
  refine ⟨fun es hes => ?_, fun hnone => ?_⟩
  · obtain ⟨t, ht, hledger⟩ := h.ok es hes
    refine ⟨t.leave, by rw [produce_run, ht]; rfl, ?_⟩
    exact (s.entered_ledger options p m).symm.trans hledger
  · obtain ⟨e, t, ht⟩ := h.error hnone
    exact ⟨e, t.leave, by rw [produce_run, ht]; rfl⟩

end RakuTree
