import RakuTree.Proofs.Simulation

/-!
# RakuTree.Proofs.EmptyCaptures.Effects

What a match that covers nothing comes to, and what this does to what is built around it.

Most productions refuse a match without content. A name comes to an empty leaf, and a modifier of
backtracking to nothing at all (`Effect`). Where a rule goes through parts and hands each to its
production, one empty part more has just that effect on the whole (`Build.through_insert`): the two
runs are alike up to the empty part, and from there on differ by what it comes to
(`Build.Against`).
-/

namespace RakuTree

/-! ### Comparing builds -/

namespace Build

variable {α β γ δ : Type}

/-- Where `x` returns, `y` returns or stops as `Q` says, from a state with the same ledger; and if it
returns, it leaves the same ledger. -/
def Against (x : Build α) (y : Build β) (Q : α → Option β → Prop) : Prop :=
  ∀ s t a u, s.SameLedger t → x.run s = .ok a u →
    (∃ b v, y.run t = .ok b v ∧ u.SameLedger v ∧ Q a (some b)) ∨
      ∃ e v, y.run t = .error e v ∧ Q a none

/-- The other build returns the same: `b?` is `a`. -/
def Same (a : α) (b? : Option α) : Prop := b? = some a

namespace Against

variable {x : Build α} {y : Build β} {Q : α → Option β → Prop}

theorem mono {Q' : α → Option β → Prop} (h : Against x y Q) (hQ : ∀ a b?, Q a b? → Q' a b?) :
    Against x y Q' := by
  intro s t a u hst hx
  rcases h s t a u hst hx with ⟨b, v, hy, huv, hb⟩ | ⟨e, v, hy, hb⟩
  · exact .inl ⟨b, v, hy, huv, hQ _ _ hb⟩
  · exact .inr ⟨e, v, hy, hQ _ _ hb⟩

theorem bind {k : α → Build γ} {l : β → Build δ} {Q' : γ → Option δ → Prop} (h : Against x y Q)
    (hnone : ∀ a c, Q a none → Q' c none)
    (hsome : ∀ a b, Q a (some b) → Against (k a) (l b) Q') : Against (x >>= k) (y >>= l) Q' := by
  intro s t c w hst hxk
  obtain ⟨a, u, hx, hk⟩ := bind_ok hxk
  rcases h s t a u hst hx with ⟨b, v, hy, huv, hb⟩ | ⟨e, v, hy, hb⟩
  · rw [run_bind_of_ok hy]
    exact hsome a b hb u v c w huv hk
  · refine .inr ⟨e, v, ?_, hnone a c hb⟩
    rw [run_bind, hy]

/-- Builds whose first steps are the `Same` are compared by what follows. -/
theorem bind_same {x y : Build α} {k : α → Build γ} {l : α → Build δ}
    {Q' : γ → Option δ → Prop} (h : Against x y Same) (hk : ∀ a, Against (k a) (l a) Q') :
    Against (x >>= k) (y >>= l) Q' := by
  refine h.bind (fun a c hnone => ?_) fun a b hsome => ?_
  · cases hnone
  · cases hsome
    exact hk a

theorem pure {a : α} {b : β} (h : Q a (some b)) :
    Against (Pure.pure a : Build α) (Pure.pure b : Build β) Q := by
  intro s t a' u hst hx
  cases hx
  exact .inl ⟨b, t, rfl, hst, h⟩

/-- A build that does not return, such as `refuse r`, is compared with nothing. -/
theorem of_refuse (r : Refusal) : Against (refuse r : Build α) y Q := by
  intro s t a u _ hx
  cases hx

theorem of_gives {o : Option α} {o' : Option β} (hx : ∀ s, x.Gives s o) (hy : ∀ t, y.Gives t o')
    (hQ : ∀ a, o = some a → Q a o') : Against x y Q := by
  intro s t a u hst hrun
  obtain ⟨ho, hsu⟩ := (hx s).eq_some hrun
  have hQa := hQ a ho
  cases o' with
  | none =>
      obtain ⟨e, v, hv⟩ := (hy t).error rfl
      exact .inr ⟨e, v, hv, hQa⟩
  | some b =>
      obtain ⟨v, hv, htv⟩ := (hy t).ok b rfl
      exact .inl ⟨b, v, hv, hsu.symm.trans (hst.trans htv), hQa⟩

/-- Two choices by the same question `c` are compared branch by branch. -/
theorem ite {c : Prop} [Decidable c] {x' : Build α} {y' : Build β} (hthen : c → Against x y Q)
    (helse : ¬ c → Against x' y' Q) : Against (if c then x else x') (if c then y else y') Q := by
  by_cases hc : c
  · rw [if_pos hc, if_pos hc]
    exact hthen hc
  · rw [if_neg hc, if_neg hc]
    exact helse hc

end Against

theorem Related.against {options options' : Options} {x y : Build α}
    (h : Related options options' BuildState.SameLedger x y) : Against x y Same := by
  intro s t a u hst hx
  obtain ⟨v, hy, huv⟩ := h.ok hst hx
  exact .inl ⟨a, v, hy, huv, rfl⟩

end Build

/-! ### Going through parts -/

/-- What an empty capture does to what is built around it (`Effect.Holds`). -/
inductive Effect
  /-- The build around the capture stops. -/
  | stops
  /-- The same is built with the capture as without it. -/
  | nothing
  /-- If anything is built, there is a leaf more. -/
  | leaf
  deriving DecidableEq

namespace Effect

/-- What is built with the capture, if without it `es` is built. -/
def Holds : Effect → List Element → Option (List Element) → Prop
  | stops, _, es? => es? = none
  | nothing, es, es? => es? = some es
  | leaf, es, es? => ∀ es', es? = some es' → es'.length = es.length + 1

/-- What building the capture, by `x`, comes to, if it has the effect. -/
def Of (x : Build (List Element)) : Effect → Prop
  | stops => ∀ s, x.Gives s none
  | nothing => ∀ s, x.Gives s (some [])
  | leaf => ∀ s, ∃ l? : Option Leaf, x.Gives s (l?.map fun l => [.leaf l])

variable {α : Type} {x : Build α} {k : α → Build (List Element)}

theorem stops_of_next (hk : ∀ a, stops.Of (k a)) : stops.Of (x >>= k) := by
  intro s
  cases hx : x.run s with
  | ok a u =>
      obtain ⟨e, v, hv⟩ := (hk a u).error rfl
      exact .of_error (by rw [Build.run_bind_of_ok hx, hv])
  | error e u => exact .of_error (by rw [Build.run_bind, hx])

theorem stops_of_first {x : Build (List Element)} {k : List Element → Build (List Element)}
    (hx : stops.Of x) : stops.Of (x >>= k) := by
  intro s
  obtain ⟨e, u, hu⟩ := (hx s).error rfl
  exact .of_error (by rw [Build.run_bind, hu])

theorem Holds.none {e : Effect} {es : List Element} (h : e.Holds es Option.none)
    (es' : List Element) : e.Holds es' Option.none := by
  cases e with
  | stops => rfl
  | nothing => cases h
  | leaf =>
      intro es'' hes
      cases hes

end Effect

/-- What comes behind the parts, by `k` and `l`, does not change the effect, if it comes to as many
elements. -/
theorem Build.Against.goOn {e : Effect} {x y : Build (List Element)}
    {k l : List Element → Build (List Element)} (h : Against x y e.Holds)
    (hsame : ∀ es, Against (k es) (l es) Same)
    (hlength : ∀ es es', es'.length = es.length + 1 → Against (k es) (l es') Effect.leaf.Holds) :
    Against (x >>= k) (y >>= l) e.Holds := by
  refine h.bind (fun _ es hnone => hnone.none es) fun es es' hsome => ?_
  cases e with
  | stops => cases hsome
  | nothing =>
      cases hsome
      exact hsame es
  | leaf => exact hlength es es' (hsome es' rfl)

namespace Build

variable {κ : Type} {step step' : List Element → κ → Build (List Element)}

/-- Goes through some parts by `step`, each of which adds to the elements before it. -/
def through (step : List Element → κ → Build (List Element)) (nodes : List Element) :
    List κ → Build (List Element)
  | [] => pure nodes
  | x :: xs => do
    let added ← step nodes x
    through step (nodes ++ added) xs

/-- The other build returns as many elements as `es`, if it returns. -/
def SameLength (es : List Element) (es? : Option (List Element)) : Prop :=
  ∀ es', es? = some es' → es'.length = es.length

theorem sameLength_of_same {es : List Element} {es? : Option (List Element)} (h : Same es es?) :
    SameLength es es? := by
  intro es' hes
  rw [h] at hes
  cases hes
  rfl

/-- Two ways `step` and `step'` to go on with the part `x` come to the same behind the same
elements, and to as many elements behind others. -/
structure Keeps (step step' : List Element → κ → Build (List Element)) (x : κ) : Prop where
  /-- Behind the same elements they come to the `Same`. -/
  same : ∀ nodes, Against (step nodes x) (step' nodes x) Same
  /-- Behind others they come to the `SameLength`. -/
  length : ∀ nodes nodes', Against (step nodes x) (step' nodes' x) SameLength

theorem through_same {xs : List κ} (h : ∀ x ∈ xs, Keeps step step' x) (nodes : List Element) :
    Against (through step nodes xs) (through step' nodes xs) Same := by
  induction xs generalizing nodes with
  | nil => exact .pure rfl
  | cons x xs ih =>
      refine ((h x List.mem_cons_self).same nodes).bind_same fun added => ?_
      exact ih (fun y hy => h y (List.mem_cons_of_mem x hy)) _

/-- Where there are `n` elements more to begin with, there are `n` more in the end. -/
theorem through_length {xs : List κ} (h : ∀ x ∈ xs, Keeps step step' x) {n : Nat}
    {nodes nodes' : List Element} (hn : nodes'.length = nodes.length + n) :
    Against (through step nodes xs) (through step' nodes' xs) fun es es? =>
      ∀ es', es? = some es' → es'.length = es.length + n := by
  induction xs generalizing nodes nodes' with
  | nil =>
      refine .pure fun es' hes => ?_
      cases hes
      exact hn
  | cons x xs ih =>
      refine ((h x List.mem_cons_self).length nodes nodes').bind (fun _ _ _ es' hes => ?_)
        fun added added' hadded => ?_
      · cases hes
      · refine ih (fun y hy => h y (List.mem_cons_of_mem x hy)) ?_
        rw [List.length_append, List.length_append, hn, hadded added' rfl]
        omega

/-- A part `x` more, in front of `xs`, has its effect. -/
theorem through_cons {e : Effect} {xs : List κ} {x : κ} (h : ∀ y ∈ xs, Keeps step step' y)
    {nodes : List Element} (hx : e.Of (step' nodes x)) :
    Against (through step nodes xs) (through step' nodes (x :: xs)) e.Holds := by
  intro s t es u hst hrun
  rw [through]
  -- behind an empty leaf the parts are no longer built behind the same elements, only as many more
  cases e with
  | stops =>
      obtain ⟨fault, v, hv⟩ := (hx t).error rfl
      exact .inr ⟨fault, v, by rw [run_bind, hv], rfl⟩
  | nothing =>
      obtain ⟨v, hv, htv⟩ := (hx t).ok [] rfl
      rw [run_bind_of_ok hv, List.append_nil]
      exact through_same h nodes s v es u (hst.trans htv) hrun
  | leaf =>
      obtain ⟨l?, hl⟩ := hx t
      cases l? with
      | none =>
          obtain ⟨fault, v, hv⟩ := hl.error rfl
          refine .inr ⟨fault, v, by rw [run_bind, hv], fun es' hes => ?_⟩
          cases hes
      | some l =>
          obtain ⟨v, hv, htv⟩ := hl.ok [.leaf l] rfl
          rw [run_bind_of_ok hv]
          exact through_length h List.length_append s v es u (hst.trans htv) hrun

/-- A part `x` more has its effect, wherever it stands. -/
theorem through_insert {e : Effect} {front back : List κ} {x : κ}
    (h : ∀ y ∈ front ++ back, Keeps step step' y) (hx : ∀ nodes, e.Of (step' nodes x))
    (nodes : List Element) :
    Against (through step nodes (front ++ back)) (through step' nodes (front ++ x :: back))
      e.Holds := by
  induction front generalizing nodes with
  | nil => exact through_cons h (hx nodes)
  | cons y front ih =>
      refine ((h y List.mem_cons_self).same nodes).bind_same fun added => ?_
      exact ih (fun z hz => h z (List.mem_cons_of_mem y hz)) _

end Build

/-! ### Empty matches -/

theorem Text.slice_empty (src : Text) (a : Int) : slice src a a = [] :=
  List.drop_eq_nil_of_le (List.length_take_le _ _)

namespace Shape

variable {s : Shape} {key : String} {keys optional : List String}

theorem fits_cons_of_content (h : s.content = []) : s.fits (key :: keys) optional = false := by
  simp [fits, has, h]

theorem fits_nil_of_content (h : s.content = []) : s.fits [] optional = true := by
  simp [fits, h]

end Shape

/-- What comes of an empty match that was captured under `key`. -/
def Effect.under (key : String) : Effect :=
  if key = "backmod" then nothing
  else if key = "longname" ∨ key = "defterm" then leaf
  else stops

/-- The productions of optional captures, which `Effect.under` says something about. -/
def Production.optional : List Production :=
  [.statementModCond, .statementModLoop, .shape, .trait, .postConstraint, .blockoid, .quantifier,
   .separator, .variableUse, .expr, .backmod, .longname, .defterm]

/-- The match `c` covers nothing, and there is nothing in it that does. -/
structure Match.IsEmpty (c : Match) : Prop where
  /-- The match `c` ends at its `start`. -/
  narrow : c.start = c.stop
  /-- None of its captures has content, by `Shape.of`. -/
  content : (Shape.of c).content = []

namespace Match.IsEmpty

variable {src : Text} {options : Options} {c : Match}

theorem isWide_eq (h : c.IsEmpty) : c.isWide = false := by
  simp [isWide, h.narrow]

theorem text_eq (h : c.IsEmpty) (src : Text) : c.text src = [] := by
  rw [text, h.narrow, Text.slice_empty]

/-- A rule that refuses `c` has the effect `stops`. -/
theorem stops_of_rule {p : Production}
    (hrule : p.rule ⟨src, p, c⟩ = Frame.unhandled ⟨src, p, c⟩) :
    Effect.stops.Of (produce src options p c) := by
  intro s
  refine produce_gives ?_
  rw [hrule]
  exact Plan.refuse_gives _

/-- Of an empty match `balanced` makes nothing: there would have to be something between brackets.
-/
theorem balanced_eq_error (h : c.IsEmpty) {pair : Option (Text × Text)}
    (hpair : ∀ p, pair = some p → p.1 ≠ []) (cls : BranchClass) (src : Text)
    (children : List Element) (brackets : Brackets) (origin : Option String) :
    ∃ e, Element.balanced cls src c.start c.stop pair children brackets origin = .error e := by
  have htext : Text.slice src c.start c.stop = [] := h.text_eq src
  cases pair with
  | none =>
      refine ⟨.emptyMatch c.start, ?_⟩
      simp only [Element.balanced, htext]
      rfl
  | some p =>
      obtain ⟨front, back⟩ := p
      have hfront : front.isEmpty = false := List.isEmpty_eq_false_iff.mpr (hpair _ rfl)
      have hfirst : Text.first? front [] = none := by simp [Text.first?, hfront]
      refine ⟨.delimitersMissing front back [], ?_⟩
      simp only [Element.balanced, htext, hfirst]

theorem stops_of_balanced {p : Production} (h : c.IsEmpty) (cls : BranchClass)
    (brackets : Brackets) (pair : Option (Text × Text)) (hpair : ∀ p, pair = some p → p.1 ≠ [])
    (hrule : p.rule ⟨src, p, c⟩ = Frame.balanced ⟨src, p, c⟩ cls pair brackets []) :
    Effect.stops.Of (produce src options p c) := by
  intro s
  refine produce_gives ?_
  obtain ⟨e, he⟩ := h.balanced_eq_error hpair cls src [] brackets (Frame.origin ⟨src, p, c⟩)
  rw [hrule, Frame.balanced, he]
  exact Plan.refuse_gives _

/-- A rule that makes a leaf of `c` has the effect `leaf`. -/
theorem leaf_of_rule {p : Production} (cls : LeafClass)
    (hrule : p.rule ⟨src, p, c⟩ = Frame.trimmed ⟨src, p, c⟩ cls c) :
    Effect.leaf.Of (produce src options p c) := by
  intro s
  refine ⟨(Leaf.trimmed cls src c.start c.stop (Frame.origin ⟨src, p, c⟩) {}).toOption,
    produce_gives ?_⟩
  rw [hrule]
  exact Frame.trimmed_gives _ cls c _

/-- A rule that passes over `c` has the effect `nothing`. -/
theorem nothing_of_rule {p : Production} (hrule : p.rule ⟨src, p, c⟩ = pure []) :
    Effect.nothing.Of (produce src options p c) := by
  intro s
  refine produce_gives ?_
  rw [hrule]
  exact Plan.done_gives []

/-- What the production of an optional capture makes of an empty match: `Effect.under` its key. -/
theorem effect (h : c.IsEmpty) {p : Production} (hp : p ∈ Production.optional) :
    (Effect.under p.key).Of (produce src options p c) := by
  have hcons : ∀ q key keys optional,
      (Frame.shape ⟨src, q, c⟩).fits (key :: keys) optional = false :=
    fun _ _ _ _ => Shape.fits_cons_of_content h.content
  have hnil : ∀ q optional, (Frame.shape ⟨src, q, c⟩).fits [] optional = true :=
    fun _ _ => Shape.fits_nil_of_content h.content
  have htext : ∀ q, Frame.text ⟨src, q, c⟩ = [] := fun _ => h.text_eq src
  have htrim : Text.trim [] = [] := rfl
  have hcolons : Text.includes [] [':', ':'] = false := rfl
  simp only [Production.optional, List.mem_cons, List.not_mem_nil, or_false] at hp
  rcases hp with rfl | rfl | rfl | rfl | rfl | rfl | rfl | rfl | rfl | rfl | rfl | rfl | rfl
  · exact stops_of_rule (by simp [Production.rule, Rule.statementModCond, Shape.is, hcons])
  · exact stops_of_rule (by simp [Production.rule, Rule.statementModLoop, Shape.is, hcons])
  · refine h.stops_of_balanced .postCircumfixOperator .plain none (by simp) ?_
    simp [Production.rule, Rule.shape, Shape.is, hcons, hnil]
  · exact stops_of_rule (by simp [Production.rule, Rule.trait, Frame.buildOnly, Shape.is, hcons])
  · exact stops_of_rule (by simp [Production.rule, Rule.postConstraint, Shape.is, hcons])
  · refine h.stops_of_balanced .block .block (some (['\x7b'], ['\x7d'])) (by simp) ?_
    simp [Production.rule, Rule.blockoid, Shape.is, hcons, hnil]
  · exact stops_of_rule (by simp [Production.rule, Rule.quantifier, hnil, htext, htrim])
  · exact stops_of_rule (by simp [Production.rule, Rule.separator, Shape.is, hcons])
  · exact stops_of_rule (by simp [Production.rule, Rule.variableUse, Shape.is, hcons])
  · exact stops_of_rule (by simp [Production.rule, Rule.expr, Rule.hyperPostfix, Rule.term,
      Frame.buildOnly, Rule.terms, Shape.is, hcons])
  · exact nothing_of_rule (by simp [Production.rule, Rule.backmod, Shape.is, hnil, htext, htrim])
  · refine leaf_of_rule .bareword ?_
    simp [Production.rule, Rule.longname, Rule.nameLeaf, Shape.is, hcons, hnil, htext, hcolons]
  · exact leaf_of_rule .bareword (by simp [Production.rule, Rule.defterm, Shape.is, hcons, hnil])

end Match.IsEmpty

end RakuTree
