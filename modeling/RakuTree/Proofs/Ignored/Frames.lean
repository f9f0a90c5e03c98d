import RakuTree.Build
import RakuTree.Proofs.Ignored.Matches

/-!
# RakuTree.Proofs.Ignored.Frames

What rules are written with does not tell a match from its canonical form.

`Plan.follow` runs a plan with a builder that is shown inner matches as such, so that plans
for different frames can be compared. A rule is blind to what a canonical form leaves out if
following it for the canonical form of a match comes to what following it for the match itself
comes to, with a builder that is only shown canonical forms. This is shown here, as equations for
`simp`, of everything that `Frame` has to offer. Rules have no other way to look at a match.
-/

namespace RakuTree

/-- What builds inner matches, such as `produceAny src options`. The match may be missing. -/
abbrev Builder := Production → Option Match → Build (List Element)

/-- The builder that is only shown canonical forms, `Match.canonical`. -/
def Builder.canonically (build : Builder) : Builder := fun p m? => build p (m?.map Match.canonical)

@[simp] theorem Builder.canonically_apply (build : Builder) (p : Production) (m? : Option Match) :
    build.canonically p m? = build p (m?.map Match.canonical) := rfl

/-! ### Following plans -/

namespace Plan

variable {f : Frame} {α β : Type} (build : Builder)

/-- `Plan.run` with a `Builder`. -/
def follow (x : Plan f α) : Build α := x.run fun p c? => build p (c?.map Match.Inner.val)

@[simp] theorem follow_done (a : α) : (done a : Plan f α).follow build = pure a := rfl

@[simp] theorem follow_fail (e : Fault) : (fail e : Plan f α).follow build = throw e := rfl

@[simp] theorem follow_refuse (r : Refusal) :
    (refuse r : Plan f α).follow build = Build.refuse r := rfl

@[simp] theorem follow_hereDoc (terminator : Text) (next : Text → Plan f α) :
    (hereDoc terminator next).follow build =
      claimHereDoc f terminator >>= fun lines => (next lines).follow build := rfl

@[simp] theorem follow_build (p : Production) (c? : Option f.self.Inner)
    (next : List Element → Plan f α) :
    (Plan.build p c? next).follow build =
      build p (c?.map Match.Inner.val) >>= fun es => (next es).follow build := rfl

@[simp] theorem follow_bind (x : Plan f α) (k : α → Plan f β) :
    (x.bind k).follow build = x.follow build >>= fun a => (k a).follow build := by
  induction x with
  | done a => simp [bind]
  | fail e => rfl
  | refuse r => rfl
  | hereDoc terminator next ih => simp [bind, ih]
  | build p c next ih => simp [bind, ih]

@[simp] theorem follow_ite {c : Prop} [Decidable c] (x y : Plan f α) :
    (if c then x else y).follow build = if c then x.follow build else y.follow build := by
  split
  · rfl
  · rfl

/-- Two plans that begin alike, with `x` and `x'`, and go on alike are alike. -/
theorem follow_bind_congr {g : Frame} {build build' : Builder} {x' : Plan g α} {x : Plan f α}
    {k' : α → Plan g β} {k : α → Plan f β} (hx : x'.follow build = x.follow build')
    (hk : ∀ a, (k' a).follow build = (k a).follow build') :
    (x' >>= k').follow build = (x >>= k).follow build' := by
  rw [bind_eq_bind, bind_eq_bind, follow_bind, follow_bind, hx]
  exact bind_congr hk

/-- What `ofElement` makes of an element does not depend on the frame. -/
theorem follow_ofElement {g : Frame} {build build' : Builder} (x : Except ElementError α) :
    (ofElement x : Plan f α).follow build = (ofElement x : Plan g α).follow build' := by
  cases x with
  | ok a => rfl
  | error e => rfl

end Plan

/-! ### Names that rules ask for -/

@[simp] theorem Shape.mem_ignored {key : String} : key ∈ Shape.ignored ↔ key = "O" :=
  List.mem_singleton

@[simp] theorem Production.key_ne (p : Production) : p.key ≠ "O" := by
  cases p <;> decide

@[simp] theorem Part.key_inner (p : Production) : (Part.inner p).key = p.key := rfl

@[simp] theorem Part.key_named (key : String) : (Part.named key).key = key := rfl

theorem Production.key_notMem_ignored (p : Production) : p.key ∉ Shape.ignored := by
  simp

/-! ### Frames -/

namespace Frame

variable (f : Frame)

/-- The frame `f` with the canonical form of its match. -/
def canonical : Frame := { f with self := f.self.canonical }

@[simp] theorem src_canonical : f.canonical.src = f.src := rfl

@[simp] theorem production_canonical : f.canonical.production = f.production := rfl

@[simp] theorem start_self_canonical : f.canonical.self.start = f.self.start :=
  f.self.start_canonical

@[simp] theorem stop_self_canonical : f.canonical.self.stop = f.self.stop :=
  f.self.stop_canonical

@[simp] theorem operands_self_canonical :
    f.canonical.self.operands = f.self.operands.map Match.canonical := f.self.operands_canonical

@[simp] theorem origin_canonical : f.canonical.origin = f.origin := rfl

@[simp] theorem shape_canonical : f.canonical.shape = f.shape := Shape.of_canonical f.self

@[simp] theorem text_canonical : f.canonical.text = f.text := Match.text_canonical f.self f.src

@[simp] theorem textOf_canonical {key : String} (hkey : key ∉ Shape.ignored) :
    f.canonical.textOf key = f.textOf key := Match.textOf_canonical f.self f.src hkey

@[simp] theorem find?_canonical (cls : LeafClass) (start stop : Int) (token : Token) :
    f.canonical.find? cls start stop token = f.find? cls start stop token := rfl

@[simp] theorem refusal_canonical (m : Match) (note : Option String) (hereDoc : Bool) :
    f.canonical.refusal m note hereDoc = f.refusal m note hereDoc := rfl

@[simp] theorem refusal_of_canonical (m : Match) (note : Option String) (hereDoc : Bool) :
    f.refusal m.canonical note hereDoc = f.refusal m note hereDoc := by
  simp [refusal]

@[simp] theorem refusal_self_canonical (note : Option String) (hereDoc : Bool) :
    f.refusal f.canonical.self note hereDoc = f.refusal f.self note hereDoc :=
  f.refusal_of_canonical f.self note hereDoc

theorem get?_canonical (key : String) (hkey : key ∉ Shape.ignored) :
    Option.Rel Match.Inner.IsCanonical (f.canonical.get? key) (f.get? key) :=
  f.self.inner?_canonical hkey

/-- The first match under `key` is there in both frames, or in neither. -/
theorem get?_cases (key : String) (hkey : key ∉ Shape.ignored) :
    (f.canonical.get? key = none ∧ f.get? key = none) ∨
      ∃ d c, f.canonical.get? key = some d ∧ f.get? key = some c ∧ d.IsCanonical c :=
  Match.rel_cases (f.get?_canonical key hkey)

theorem inSourceOrder_canonical (ps : List Production) :
    List.Forall₂ Match.IsCanonicalPart (f.canonical.self.inSourceOrder Production.key ps)
      (f.self.inSourceOrder Production.key ps) :=
  f.self.inSourceOrder_canonical fun p _ => p.key_notMem_ignored

theorem each_canonical (key : String) (hkey : key ∉ Shape.ignored) :
    List.Forall₂ Match.Inner.IsCanonical (f.canonical.each key) (f.each key) :=
  f.self.inners_canonical hkey

theorem innerOperands_canonical :
    List.Forall₂ Match.Inner.IsCanonical f.canonical.self.innerOperands f.self.innerOperands :=
  f.self.innerOperands_canonical

@[simp] theorem claimHereDoc_canonical (terminator : Text) :
    Plan.claimHereDoc f.canonical terminator = Plan.claimHereDoc f terminator := by
  simp [Plan.claimHereDoc]

/-- The rule `x`, or a part of one, cannot tell a match from its canonical form. -/
abbrev Blind {α : Type} (x : (f : Frame) → Plan f α) : Prop :=
  ∀ (f : Frame) (build : Builder), (x f.canonical).follow build = (x f).follow build.canonically

/-! ### Going on and stopping -/

variable {α : Type} (build : Builder)

@[simp] theorem refuseMatch_canonical (m : Match) (note : String) :
    (f.canonical.refuseMatch m note : Plan f.canonical α).follow build =
      (f.refuseMatch m note : Plan f α).follow build.canonically := by
  simp [refuseMatch]

@[simp] theorem refuse_canonical (note : String) :
    (f.canonical.refuse note : Plan f.canonical α).follow build =
      (f.refuse note : Plan f α).follow build.canonically := by
  simp [refuse, refuseMatch]

@[simp] theorem unhandled_canonical :
    (f.canonical.unhandled : Plan f.canonical α).follow build =
      (f.unhandled : Plan f α).follow build.canonically := by
  simp [unhandled]

@[simp] theorem ofElement_canonical (x : Except ElementError α) :
    (Plan.ofElement x : Plan f.canonical α).follow build =
      (Plan.ofElement x : Plan f α).follow build.canonically := Plan.follow_ofElement x

theorem follow_build (p : Production) (c? : Option f.self.Inner) :
    (f.build p c?).follow build = build p (c?.map Match.Inner.val) := by
  simp [Frame.build]

@[simp] theorem follow_build_some (p : Production) (c : f.self.Inner) :
    (f.build p (some c)).follow build = build p (some c.val) := f.follow_build build p (some c)

/-- An inner match that may be missing is built alike, by `p`. -/
theorem build_canonical (p : Production) {d? : Option f.canonical.self.Inner}
    {c? : Option f.self.Inner} (h : Option.Rel Match.Inner.IsCanonical d? c?) :
    (f.canonical.build p d?).follow build = (f.build p c?).follow build.canonically := by
  cases h with
  | some h => simp [h]
  | none => rfl

@[simp] theorem build_get?_canonical (p : Production) {key : String}
    (hkey : key ∉ Shape.ignored) :
    (f.canonical.build p (f.canonical.get? key)).follow build =
      (f.build p (f.get? key)).follow build.canonically :=
  f.build_canonical build p (f.get?_canonical key hkey)

@[simp] theorem build_inner?_canonical (p : Production) {key key' : String}
    (hkey : key ∉ Shape.ignored) (hkey' : key' ∉ Shape.ignored) :
    (f.canonical.build p ((f.canonical.get? key).bind (·.inner? key'))).follow build =
      (f.build p ((f.get? key).bind (·.inner? key'))).follow build.canonically := by
  apply build_canonical
  rcases f.get?_cases key hkey with ⟨hd, hc⟩ | ⟨d, c, hd, hc, h⟩
  · rw [hd, hc]
    exact .none
  · rw [hd, hc]
    exact Match.Inner.inner?_canonical h hkey'

@[simp] theorem buildKey_canonical (p : Production) :
    (f.canonical.buildKey p).follow build = (f.buildKey p).follow build.canonically :=
  f.build_get?_canonical build p p.key_notMem_ignored

theorem buildAll_canonical (p : Production) {ds : List f.canonical.self.Inner}
    {cs : List f.self.Inner} (h : List.Forall₂ Match.Inner.IsCanonical ds cs) :
    (f.canonical.buildAll p ds).follow build = (f.buildAll p cs).follow build.canonically := by
  induction h with
  | nil => rfl
  | cons hc _ ih => simp [buildAll, ih, hc]

@[simp] theorem buildAll_each_canonical (p : Production) {key : String}
    (hkey : key ∉ Shape.ignored) :
    (f.canonical.buildAll p (f.canonical.each key)).follow build =
      (f.buildAll p (f.each key)).follow build.canonically :=
  f.buildAll_canonical build p (f.each_canonical key hkey)

theorem buildParts_canonical {ds : List (Production × f.canonical.self.Inner)}
    {cs : List (Production × f.self.Inner)} (h : List.Forall₂ Match.IsCanonicalPart ds cs) :
    (f.canonical.buildParts ds).follow build = (f.buildParts cs).follow build.canonically := by
  induction h with
  | nil => rfl
  | cons hc _ ih =>
      cases hc with
      | mk p h => simp [buildParts, ih, h]

@[simp] theorem buildInOrder_canonical (ps : List Production) :
    (f.canonical.buildInOrder ps).follow build = (f.buildInOrder ps).follow build.canonically :=
  f.buildParts_canonical build (f.inSourceOrder_canonical ps)

@[simp] theorem buildIf_canonical (p : Production) :
    (f.canonical.buildIf p).follow build = (f.buildIf p).follow build.canonically := by
  simp [buildIf]

theorem buildOnly_canonical {other' : Plan f.canonical (List Element)}
    {other : Plan f (List Element)} (h : other'.follow build = other.follow build.canonically)
    (ps : List Production) :
    (f.canonical.buildOnly other' ps).follow build =
      (f.buildOnly other ps).follow build.canonically := by
  induction ps with
  | nil => exact h
  | cons p ps ih => simp [buildOnly, ih]

/-- An inner match that has to be there, by `need`, is the canonical form of the one that was there.
-/
@[simp] theorem need_canonical (access : Access) {key : String} (hkey : key ∉ Shape.ignored) :
    (f.canonical.need access (f.canonical.get? key)).follow build =
      Match.canonical <$> (f.need access (f.get? key)).follow build.canonically := by
  rcases f.get?_cases key hkey with ⟨hd, hc⟩ | ⟨d, c, hd, hc, h⟩
  · rw [hd, hc]
    rfl
  · rw [hd, hc]
    simp [need, h]

/-- Going on with an inner match that has to be there, by `need`. -/
theorem need_bind_canonical {access : Access} {key : String} (hkey : key ∉ Shape.ignored)
    {k' : Match → Plan f.canonical α} {k : Match → Plan f α}
    (hk : ∀ m, (k' m.canonical).follow build = (k m).follow build.canonically) :
    (f.canonical.need access (f.canonical.get? key) >>= k').follow build =
      (f.need access (f.get? key) >>= k).follow build.canonically := by
  rw [Plan.bind_eq_bind, Plan.bind_eq_bind, Plan.follow_bind, Plan.follow_bind,
    f.need_canonical build access hkey, bind_map_left]
  exact bind_congr hk

@[simp] theorem endOf_canonical (nodes : List Element) :
    (f.canonical.endOf nodes).follow build = (f.endOf nodes).follow build.canonically := by
  cases nodes with
  | nil => rfl
  | cons k ks => rfl

/-! ### Leaves -/

@[simp] theorem leaf_canonical (cls : LeafClass) (quoting : Quoting) :
    (f.canonical.leaf cls f.canonical.self quoting).follow build =
      (f.leaf cls f.self quoting).follow build.canonically := by
  unfold leaf
  rw [start_self_canonical, stop_self_canonical]
  exact Plan.follow_ofElement _

@[simp] theorem trimmedLeaf_canonical (cls : LeafClass) (m : Match) (quoting : Quoting) :
    (f.canonical.trimmedLeaf cls m quoting).follow build =
      (f.trimmedLeaf cls m quoting).follow build.canonically := by
  exact Plan.follow_ofElement _

@[simp] theorem trimmedLeaf_of_canonical (cls : LeafClass) (m : Match) (quoting : Quoting) :
    f.trimmedLeaf cls m.canonical quoting = f.trimmedLeaf cls m quoting := by
  simp [trimmedLeaf]

@[simp] theorem trimmedLeaf_self_canonical (cls : LeafClass) (quoting : Quoting) :
    f.trimmedLeaf cls f.canonical.self quoting = f.trimmedLeaf cls f.self quoting :=
  f.trimmedLeaf_of_canonical cls f.self quoting

@[simp] theorem trimmed_canonical (cls : LeafClass) (m : Match) :
    (f.canonical.trimmed cls m).follow build = (f.trimmed cls m).follow build.canonically := by
  simp [trimmed]

@[simp] theorem trimmed_of_canonical (cls : LeafClass) (m : Match) :
    f.trimmed cls m.canonical = f.trimmed cls m := by
  simp [trimmed]

@[simp] theorem trimmed_self_canonical (cls : LeafClass) :
    f.trimmed cls f.canonical.self = f.trimmed cls f.self := f.trimmed_of_canonical cls f.self

@[simp] theorem trimmedKey_canonical (cls : LeafClass) {key : String}
    (hkey : key ∉ Shape.ignored) :
    (f.canonical.trimmedKey cls key).follow build =
      (f.trimmedKey cls key).follow build.canonically := by
  simp [trimmedKey, f.need_canonical build .text hkey]

theorem buildMixed_canonical (cls : LeafClass) {ds : List (Part × f.canonical.self.Inner)}
    {cs : List (Part × f.self.Inner)} (h : List.Forall₂ Match.IsCanonicalPart ds cs) :
    (f.canonical.buildMixed cls ds).follow build =
      (f.buildMixed cls cs).follow build.canonically := by
  induction h with
  | nil => rfl
  | cons hc _ ih =>
      cases hc with
      | mk part h =>
          cases part with
          | inner p => simp [buildMixed, ih, h]
          | named key => simp [buildMixed, ih, h]

theorem eachOf_canonical (parts : List Part) (hparts : ∀ part ∈ parts, part.key ∉ Shape.ignored) :
    List.Forall₂ Match.IsCanonicalPart (f.canonical.eachOf parts) (f.eachOf parts) :=
  f.self.inSourceOrder_canonical hparts

@[simp] theorem buildMixed_eachOf_canonical (cls : LeafClass) {parts : List Part}
    (hparts : ∀ part ∈ parts, part.key ∉ Shape.ignored) :
    (f.canonical.buildMixed cls (f.canonical.eachOf parts)).follow build =
      (f.buildMixed cls (f.eachOf parts)).follow build.canonically :=
  f.buildMixed_canonical build cls (f.eachOf_canonical parts hparts)

@[simp] theorem leafAt_canonical (cls : LeafClass) (offset : Int) (content : Text) :
    (f.canonical.leafAt cls offset content).follow build =
      (f.leafAt cls offset content).follow build.canonically := Plan.follow_ofElement _

@[simp] theorem sample_canonical (cls : LeafClass) (token : Text) :
    (f.canonical.sample cls f.canonical.self token).follow build =
      (f.sample cls f.self token).follow build.canonically := by
  unfold sample
  rw [start_self_canonical, stop_self_canonical]
  exact Plan.follow_ofElement _

@[simp] theorem leafOver_canonical (cls : LeafClass) (start stop : Int) :
    (f.canonical.leafOver cls start stop).follow build =
      (f.leafOver cls start stop).follow build.canonically := Plan.follow_ofElement _

@[simp] theorem charAt_canonical (i : Int) :
    (f.canonical.charAt i).follow build = (f.charAt i).follow build.canonically := by
  unfold charAt
  rw [src_canonical]
  cases Text.charAt? f.src i with
  | none => rfl
  | some c => rfl

/-! ### Searching the source -/

@[simp] theorem expect_canonical (cls : LeafClass) (start stop : Int) (token : Token) :
    (f.canonical.expect cls start stop token).follow build =
      (f.expect cls start stop token).follow build.canonically := by
  unfold expect
  rw [find?_canonical]
  cases f.find? cls start stop token with
  | none => simp
  | some l => rfl

@[simp] theorem between_canonical (cls : LeafClass) (left right : List Element) (token : Token) :
    (f.canonical.between cls left right token).follow build =
      (f.between cls left right token).follow build.canonically := by
  simp [between]

/-! ### Branches -/

@[simp] theorem branch_canonical (cls : BranchClass) (children : List Element) :
    (f.canonical.branch cls children).follow build =
      (f.branch cls children).follow build.canonically := Plan.follow_ofElement _

@[simp] theorem balanced_canonical (cls : BranchClass) (pair : Option (Text × Text))
    (brackets : Brackets) (children : List Element) :
    (f.canonical.balanced cls pair brackets children).follow build =
      (f.balanced cls pair brackets children).follow build.canonically := by
  unfold balanced
  rw [start_self_canonical, stop_self_canonical, src_canonical, origin_canonical]
  cases Element.balanced cls f.src f.self.start f.self.stop pair children brackets f.origin with
  | ok e => rfl
  | error e => simp

@[simp] theorem balancedAround_canonical (cls : BranchClass) (m : Match) (expected : Text)
    (children : List Element) :
    (f.canonical.balancedAround cls m.canonical expected children).follow build =
      (f.balancedAround cls m expected children).follow build.canonically := by
  unfold balancedAround
  rw [Match.start_canonical, Match.stop_canonical, src_canonical, origin_canonical]
  cases Element.balancedAround cls f.src m.start m.stop children (some expected) .plain f.origin with
  | ok e => rfl
  | error e =>
      cases e with
      | element e => simp [refuseMatch]
      | outsideSource => rfl

@[simp] theorem delimited_canonical (cls : BranchClass) (start stop : Int) (front : Nat)
    (brackets : Brackets) (children : List Element) :
    (f.canonical.delimited cls start stop front brackets children).follow build =
      (f.delimited cls start stop front brackets children).follow build.canonically :=
  Plan.follow_ofElement _

end Frame

end RakuTree
