import RakuTree.Proofs.Made.Build
import RakuTree.Proofs.Simulation
import RakuTree.Document
import RakuTree.Match.Sketch

/-!
# RakuTree.Proofs.Options

Options do not change what is built. Both halves compare two runs.

*Tracing* adds records to the log, and nothing reads the log: building keeps the relation
`BuildState.SameUntraced`, so that `produce_related` covers it. The one other thing that tracing
does is to ask a match where it starts before the rule of a production asks it anything. Where there
is no match, the build stops in either case, for the same class of errors (`Fault.Alike`).

*Strictness* turns the first skipped gap into a fault. `Degrades` relates a strict and a
lenient filling: either the lenient one skipped a gap and the strict one stopped for the
sake of a gap, or both are the same and there is nothing about gaps in them. In the first
case the two no longer have anything to do with each other, so the relation says no more
than that, and passes through `andThen` and `bind` for that very reason.
-/

namespace RakuTree

namespace Event

/-- Is it a warning about a gap that was left as it is, `gapSkipped`? -/
def isSkip : Event → Bool
  | gapSkipped _ => true
  | _ => false

end Event

/-! ### Tracing -/

variable {R : BuildState → BuildState → Prop} {options options' : Options}

/-- A build that reads the state and uses nothing of it but the ledger is `Related`. -/
theorem Build.Related.get {β : Type} (hR : BuildState.Kept R) {k l : BuildState → Build β}
    (hk : ∀ s t, s.ledger = t.ledger → Related options options' R (k s) (l t)) :
    Related options options' R (MonadState.get >>= k) (MonadState.get >>= l) := by
  intro s t h
  rw [run_bind, run_bind]
  exact hk s t (hR.ledger h) s t h

namespace Document

end Document

/-! ### Strict and lenient readings -/

/-- How a strict reading or filling `x` relates to the lenient one `y`: where `y` skipped a
gap, `x` stopped for the sake of a gap; otherwise they are the same and did not stop for
the sake of a gap. -/
def Degrades {β : Type} (events : β → List Event) (fault? : β → Option Fault) (x y : β) : Prop :=
  ((events y).any Event.isSkip = true ∧ ∃ e, fault? x = some (.gap e)) ∨
  ((events y).any Event.isSkip = false ∧ x = y ∧ ∀ e ∈ fault? y, e.isGap = false)

/-- A strict and a lenient value stay related by `Degrades` when they are looked at through `f`, as
long as faults and skipped gaps stay. -/
theorem Degrades.image {β γ : Type} {events : β → List Event} {fault? : β → Option Fault}
    {events' : γ → List Event} {fault?' : γ → Option Fault} {x y : β}
    (h : Degrades events fault? x y) (f : β → γ)
    (hskip : ∀ z, (events' (f z)).any Event.isSkip = (events z).any Event.isSkip)
    (hfault : ∀ z, fault?' (f z) = fault? z) : Degrades events' fault?' (f x) (f y) := by
  rcases h with ⟨hskipped, e, he⟩ | ⟨hclean, rfl, hgap⟩
  · exact .inl ⟨(hskip y).trans hskipped, e, (hfault x).trans he⟩
  · refine .inr ⟨(hskip x).trans hclean, rfl, fun e he => hgap e ?_⟩
    rw [← hfault]
    exact he

/-- A strict reading `x` next to a lenient one `y`. -/
abbrev Layout.Reading.Degrades (x y : Layout.Reading) : Prop :=
  RakuTree.Degrades Layout.Reading.events Layout.Reading.fault? x y

/-- A strict filling `x` next to a lenient one `y`. -/
abbrev Filling.Degrades {α : Type} (x y : Filling α) : Prop :=
  RakuTree.Degrades Filling.events Filling.fault? x y

theorem Layout.read_degrades (ps : List Piece) : (read true ps).Degrades (read false ps) := by
  induction ps with
  | nil => exact .inr ⟨rfl, rfl, fun e he => nomatch he⟩
  | cons p ps ih =>
      cases p with
      | token cls offset text =>
          rw [read, read]
          split
          · rename_i l _
            exact ih.image (Reading.cons l) (fun _ => rfl) fun _ => rfl
          · refine .inr ⟨rfl, rfl, fun e he => ?_⟩
            cases he
            rfl
      | unclassified offset text =>
          rw [read, read]
          exact .inl ⟨rfl, _, rfl⟩
      | backwardHereDoc offset stop =>
          rw [read, read]
          refine ih.image (fun r => { r with events := .backwardHereDoc offset stop :: r.events })
            ?_ ?_
          · exact fun _ => rfl
          · exact fun _ => rfl

theorem Layout.scan_degrades (docs : HereDocs) (offset : Int) (atLine : Bool) (text : Text) :
    (scan docs true offset atLine text).Degrades (scan docs false offset atLine text) :=
  read_degrades _

theorem GapSource.read_degrades (src : Text) (docs : HereDocs) (a b : Int) :
    (read ⟨src, docs, true⟩ a b).Degrades (read ⟨src, docs, false⟩ a b) := by
  rw [read, read]
  split
  · exact .inr ⟨rfl, rfl, fun e he => nomatch he⟩
  · split
    · exact .inl ⟨rfl, _, rfl⟩
    · simp only
      split
      · exact Layout.scan_degrades _ _ _ _
      · split
        · refine .inr ⟨rfl, rfl, fun e he => ?_⟩
          cases he
          rfl
        · exact Layout.scan_degrades _ _ _ _

/-! ### Strict and lenient fillings -/

namespace Filling.Degrades

variable {α β : Type} {x y : Filling α}

theorem done (a : α) : (Filling.done a).Degrades (Filling.done a) :=
  .inr ⟨rfl, rfl, fun _ he => nomatch he⟩

theorem map (f : α → β) (h : x.Degrades y) : (x.map f).Degrades (y.map f) :=
  h.image (Filling.map f) (fun _ => rfl) fun _ => rfl

theorem andThen {f g : α → Filling α} (h : x.Degrades y) (hf : ∀ a, (f a).Degrades (g a)) :
    (x.andThen f).Degrades (y.andThen g) := by
  rw [Filling.andThen, Filling.andThen]
  rcases h with ⟨hskip, e, he⟩ | ⟨hclean, rfl, hfault⟩
  · -- the strict one stops here; whatever the lenient one still does, the warning stays
    rw [he, if_pos (by rfl)]
    refine .inl ⟨?_, e, he⟩
    split
    · exact hskip
    · simp [hskip]
  · split
    · exact .inr ⟨hclean, rfl, hfault⟩
    · rcases hf x.value with ⟨hskip, e, he⟩ | ⟨hclean', heq, hfault'⟩
      · exact .inl ⟨by simp [hskip], e, he⟩
      · rw [heq]
        exact .inr ⟨by simp [hclean, hclean'], rfl, hfault'⟩

end Filling.Degrades

namespace GapSource

variable {α : Type} (src : Text) (docs : HereDocs) (ofLeaf : Leaf → α) (startOf endOf : α → Int)

theorem fillBefore_degrades (a b : Int) (ks : List α) :
    (fillBefore ⟨src, docs, true⟩ ofLeaf a b ks).Degrades
      (fillBefore ⟨src, docs, false⟩ ofLeaf a b ks) :=
  (read_degrades src docs a b).image
    (fun r => (⟨r.tokens.map ofLeaf ++ ks, r.events, r.fault?⟩ : Filling (List α)))
    (fun _ => rfl) fun _ => rfl

theorem fillBetween_degrades (ks : List α) :
    (fillBetween ⟨src, docs, true⟩ ofLeaf startOf endOf ks).Degrades
      (fillBetween ⟨src, docs, false⟩ ofLeaf startOf endOf ks) := by
  induction ks with
  | nil => exact .done _
  | cons k ks ih =>
      cases ks with
      | nil => exact .done _
      | cons l ks =>
          rw [fillBetween, fillBetween]
          exact (ih.andThen fun ls => fillBefore_degrades src docs ofLeaf _ _ ls).map _

theorem fillList_degrades (outer : Option (Int × Int)) (k : α) (ks : List α) :
    (fillList ⟨src, docs, true⟩ ofLeaf startOf endOf outer k ks).Degrades
      (fillList ⟨src, docs, false⟩ ofLeaf startOf endOf outer k ks) := by
  have hinner := fillBetween_degrades src docs ofLeaf startOf endOf (k :: ks)
  cases outer with
  | none => exact hinner
  | some range =>
      refine Filling.Degrades.andThen ?_ fun ls => fillBefore_degrades src docs ofLeaf _ _ ls
      exact hinner.andThen fun all => (fillBefore_degrades src docs ofLeaf _ _ []).map _

end GapSource

namespace Element

variable (src : Text) (docs : HereDocs)

theorem fillSiblings_degrades (outer : Option (Int × Int)) (ks : List Element) :
    (fillSiblings ⟨src, docs, true⟩ outer ks).Degrades
      (fillSiblings ⟨src, docs, false⟩ outer ks) := by
  cases ks with
  | nil => exact .done _
  | cons k ks => exact GapSource.fillList_degrades src docs leaf start outerEnd outer k ks

mutual

/-- Strict and lenient filling of the tree `e` are related by `Degrades`. -/
theorem fill_degrades (e : Element) :
    (e.fill ⟨src, docs, true⟩).Degrades (e.fill ⟨src, docs, false⟩) := by
  cases e with
  | leaf l =>
      rw [fill, fill]
      exact .done _
  | bare s o =>
      rw [fill, fill]
      exact .done _
  | branch c s o ks =>
      rw [fill, fill]
      exact ((fillEach_degrades ks).andThen fun ls => fillSiblings_degrades src docs _ ls).map _
  | contextualizer i s t o ks =>
      rw [fill, fill]
      exact ((fillEach_degrades ks).andThen fun ls => fillSiblings_degrades src docs _ ls).map _

theorem fillEach_degrades (ks : List Element) :
    (fillEach ⟨src, docs, true⟩ ks).Degrades (fillEach ⟨src, docs, false⟩ ks) := by
  cases ks with
  | nil =>
      rw [fillEach, fillEach]
      exact .done _
  | cons k ks =>
      rw [fillEach, fillEach]
      rcases fill_degrades k with ⟨hskip, e, he⟩ | ⟨hclean, heq, hfault⟩
      · simp only [he]
        refine .inl ⟨?_, e, ?_⟩
        · split
          · exact hskip
          · simp [hskip]
        · exact he
      · simp only [heq]
        split
        · exact .inr ⟨hclean, rfl, hfault⟩
        · rcases fillEach_degrades ks with ⟨hskip, e, he⟩ | ⟨hclean', heq', hfault'⟩
          · exact .inl ⟨by simp [hskip], e, he⟩
          · rw [heq']
            exact .inr ⟨by simp [hclean, hclean'], rfl, hfault'⟩

end

end Element

/-! ### Strict and lenient builds -/

namespace Build

variable {α β : Type}

/-- The log that a build leaves, whether it is `ok` or an `error`. -/
def logOf : EStateM.Result Fault BuildState α → List Event
  | .ok _ s => s.log
  | .error _ s => s.log

/-- The build `x` only adds to the log, and nothing about skipped gaps. -/
def Quiet (x : Build α) : Prop :=
  ∀ s, ∃ new, logOf (x.run s) = s.log ++ new ∧ new.any Event.isSkip = false

theorem Quiet.pure (a : α) : Quiet (Pure.pure a : Build α) :=
  fun s => ⟨[], (List.append_nil s.log).symm, rfl⟩

theorem Quiet.throw (e : Fault) : Quiet (MonadExcept.throw e : Build α) :=
  fun s => ⟨[], (List.append_nil s.log).symm, rfl⟩

theorem Quiet.log {events : List Event} (h : events.any Event.isSkip = false) : Quiet (log events) :=
  fun _ => ⟨events, rfl, h⟩

theorem Quiet.bind {x : Build α} {k : α → Build β} (hx : Quiet x) (hk : ∀ a, Quiet (k a)) :
    Quiet (x >>= k) := by
  intro s
  obtain ⟨new, hlog, hnew⟩ := hx s
  rw [run_bind]
  cases hxs : x.run s with
  | error e t =>
      rw [hxs] at hlog
      exact ⟨new, hlog, hnew⟩
  | ok a t =>
      rw [hxs] at hlog
      have hlog : t.log = s.log ++ new := hlog
      obtain ⟨new', hlog', hnew'⟩ := hk a t
      refine ⟨new ++ new', ?_, by simp [hnew, hnew']⟩
      rw [hlog', hlog, List.append_assoc]

theorem Quiet.within {x : Build α} (hx : Quiet x) (p : Production) : Quiet (within p x) := by
  intro s
  obtain ⟨new, hlog, hnew⟩ := hx (s.enter p)
  refine ⟨new, ?_, hnew⟩
  rw [run_within]
  cases hxs : x.run (s.enter p) with
  | ok a t =>
      rw [hxs] at hlog
      exact hlog
  | error e t =>
      rw [hxs] at hlog
      exact hlog

/-- How a strict build `x` relates to the lenient one `y`: where `y` logs a skipped gap, `x`
stops for the sake of a gap; otherwise they come to the same and do not stop for the sake
of a gap. -/
def Degrades (x y : Build α) : Prop :=
  ∀ s, ∃ new, logOf (y.run s) = s.log ++ new ∧
    ((new.any Event.isSkip = true ∧ ∃ e t, x.run s = .error (.gap e) t) ∨
     (new.any Event.isSkip = false ∧ x.run s = y.run s ∧ y.Yields s fun _ => True))

theorem Degrades.bind {x y : Build α} {k l : α → Build β} (hx : Degrades x y)
    (hk : ∀ a, Degrades (k a) (l a)) : Degrades (x >>= k) (y >>= l) := by
  intro s
  obtain ⟨new, hlog, hxy⟩ := hx s
  rw [Yields] at hxy
  rw [Yields, run_bind, run_bind]
  cases hys : y.run s with
  | error e t =>
      rw [hys] at hlog hxy
      refine ⟨new, hlog, ?_⟩
      rcases hxy with ⟨hskip, e', t', hxs⟩ | ⟨hclean, hxs, hgap⟩
      · rw [hxs]
        exact .inl ⟨hskip, e', t', rfl⟩
      · rw [hxs]
        exact .inr ⟨hclean, rfl, hgap⟩
  | ok a t =>
      rw [hys] at hlog hxy
      have hlog : t.log = s.log ++ new := hlog
      obtain ⟨new', hlog', hkl⟩ := hk a t
      refine ⟨new ++ new', ?_, ?_⟩
      · rw [← List.append_assoc, ← hlog]
        exact hlog'
      · -- a strict build that stopped in its first part never comes to the second
        rcases hxy with ⟨hskip, e', t', hxs⟩ | ⟨hclean, hxs, -⟩
        · rw [hxs]
          exact .inl ⟨by simp [hskip], e', t', rfl⟩
        · rw [hxs]
          rcases hkl with ⟨hskip, e', t', hks⟩ | ⟨hclean', hks, hgap⟩
          · exact .inl ⟨by simp [hskip], e', t', hks⟩
          · exact .inr ⟨by simp [hclean, hclean'], hks, hgap⟩

end Build

namespace Document

/-- The fault that a build stopped with, if it is an `error`. -/
def fault? {α : Type} : EStateM.Result Fault BuildState α → Option Fault
  | .ok _ _ => none
  | .error e _ => some e

end Document

end RakuTree
