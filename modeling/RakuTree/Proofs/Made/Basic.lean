import RakuTree.Proofs.PlanLogic
import RakuTree.Proofs.Standing

/-!
# RakuTree.Proofs.Made.Basic

How the elements come about that rules make.

`Made` lists the ways, one constructor each. Nearly every leaf is cut out of the
source where it stands, whatever the offsets of the match (`Made.leaf`). The other
leaves rest on an offset that only a decent match gives, and say which: a quote
covers its match, a variable is put together from its captures, and so on. Branches
always have children, and the children of a contextualizer start where its sigil
ends.

The second half shows that everything rules are written with makes such elements
out of such elements. `Frame` has no other makers.
-/

namespace RakuTree

/-- The text of the variable that production `p` puts together from the captures of
`m`, if it does so: sigil, twigil and name without whitespace around them. -/
def rebuiltVariable? (src : Text) (p : Production) (m : Match) : Option Text :=
  let shape := Shape.of m
  let text := m.textOf src
  match p with
  | .variableUse =>
    if shape.is ["sigil", "twigil", "desigilname"] then
      some (text "sigil" ++ text "twigil" ++ text "desigilname")
    else if shape.is ["sigil", "desigilname"] then some (text "sigil" ++ text "desigilname")
    else none
  | .paramVar =>
    if shape.fits ["sigil", "name"] ["twigil"] then
      some (text "sigil" ++ text "twigil" ++ text "name")
    else none
  | _ => none

/-- An element that rules can make of the source. `ran` says which productions ran
on which matches. -/
inductive Made (src : Text) (ran : Production → Match → Prop) : Element → Prop
  /-- A leaf cut out of the source where it stands (`StandsIn`). -/
  | leaf {l : Leaf} (h : l.StandsIn src) : Made src ran (.leaf l)
  /-- A leaf for a `quote`, which covers its match. -/
  | quote {m : Match} {l : Leaf} (hm : ran .quote m) (hstart : l.span.start = m.start)
      (hstop : l.span.stop = m.stop) (hcontent : l.content = m.text src) : Made src ran (.leaf l)
  /-- The sign in front of a block of code in an `assertion`, placed by counting back from the end
  of the match. -/
  | sign {m : Match} {l : Leaf} {c : Char} {rest : Text} (hm : ran .assertion m)
      (htext : Text.trimLeft (m.text src) = c :: rest)
      (hl : l.PlacedAt (m.stop - (c :: rest).length) [c]) : Made src ran (.leaf l)
  /-- A variable put together from its captures, as `rebuiltVariable?` says. -/
  | rebuilt {p : Production} {m : Match} {l : Leaf} {s : Text} (hm : ran p m)
      (hs : rebuiltVariable? src p m = some s)
      (hl : l.PlacedAt (m.start + Text.leadingSpace (m.text src)) s) : Made src ran (.leaf l)
  /-- The backslash of a `capterm`, placed at its start. -/
  | backslash {m : Match} {l : Leaf} (hm : ran .capterm m) (hl : l.PlacedAt m.start ['\\']) :
      Made src ran (.leaf l)
  /-- An imaginary number, put together from a number `n` and the postfix `p` behind it. -/
  | imaginary {n p l : Leaf} (hn : Made src ran (.leaf n)) (hp : Made src ran (.leaf p))
      (hi : p.content = ['i']) (hnp : n.span.stop = p.span.start)
      (hl : l.PlacedAt n.span.start (n.content ++ ['i'])) : Made src ran (.leaf l)
  /-- A branch around some children `ks`. -/
  | branch {c : BranchClass} {span : Span} {origin : Option String} {ks : List Element}
      (hks : ∀ k ∈ ks, Made src ran k) (hne : ks ≠ []) : Made src ran (.branch c span origin ks)
  /-- A sigil, which covers its match `c`, and a body that starts behind it. -/
  | contextualizer {p : Production} {m c : Match} {sigil : Option Sigil} {span : Span}
      {origin : Option String} {k : Element} {ks : List Element} (hm : ran p m)
      (hc : c.Inside m) (hstart : span.start = c.start) (hstop : span.stop = c.stop)
      (hk : k.start = span.stop) (hks : ∀ l ∈ k :: ks, Made src ran l) :
      Made src ran (.contextualizer sigil span (c.text src) origin (k :: ks))

/-- All of `es` are made by rules (`Made`). -/
def MadeAll (src : Text) (ran : Production → Match → Prop) (es : List Element) : Prop :=
  ∀ e ∈ es, Made src ran e

namespace MadeAll

variable {src : Text} {ran : Production → Match → Prop} {e : Element} {es ls : List Element}

theorem nil : MadeAll src ran [] := fun _ h => absurd h List.not_mem_nil

theorem cons (he : Made src ran e) (hes : MadeAll src ran es) : MadeAll src ran (e :: es) := by
  intro k hk
  rcases List.mem_cons.mp hk with rfl | hk
  · exact he
  · exact hes k hk

theorem single (he : Made src ran e) : MadeAll src ran [e] := cons he nil

theorem append (hes : MadeAll src ran es) (hls : MadeAll src ran ls) :
    MadeAll src ran (es ++ ls) := by
  intro k hk
  rcases List.mem_append.mp hk with hk | hk
  · exact hes k hk
  · exact hls k hk

theorem of_subset (hes : MadeAll src ran es) (h : ls ⊆ es) : MadeAll src ran ls :=
  fun k hk => hes k (h hk)

/-- A leaf that may have been `found`, as a list. -/
theorem toList {found : Option Leaf} (h : ∀ l ∈ found, l.StandsIn src) :
    MadeAll src ran (found.map Element.leaf).toList := by
  cases found with
  | none => exact nil
  | some l => exact single (.leaf (h l rfl))

end MadeAll

/-! ### Delimiters -/

namespace Text

variable {src : Text}

/-- A slice of the last character in front of offset `i` stands where a closing delimiter is put. -/
theorem standsAt_slice_back {i : Int} (h : 0 ≤ i - (slice src (i - 1) i).length) :
    StandsAt src (i - (slice src (i - 1) i).length).toNat (slice src (i - 1) i) := by
  by_cases hi : 0 ≤ i - 1
  · have hlen : (slice src (i - 1) i).length ≤ 1 := by
      simp only [slice, List.length_drop, List.length_take, place_of_nonneg hi,
        place_of_nonneg (by omega : 0 ≤ i)]
      omega
    rcases Nat.le_one_iff_eq_zero_or_eq_one.mp hlen with h0 | h1
    · rw [List.eq_nil_of_length_eq_zero h0]
      exact standsAt_nil _ _
    · rw [h1]
      exact standsAt_slice hi i
  · have hnil : slice src (i - 1) i = [] := by
      rcases Int.lt_or_eq_of_le (by omega : i ≤ 0) with hneg | rfl
      · omega
      · simp [slice, place_of_nonneg]
    rw [hnil]
    exact standsAt_nil _ _

end Text

section Delimiters

variable {src : Text} {ran : Production → Match → Prop} {cls : BranchClass} {start stop : Int}
  {ks : List Element} {brackets : Brackets} {origin : Option String} {e : Element}

theorem makeBranch_made (hks : MadeAll src ran ks) (hne : ks ≠ [])
    (h : Element.makeBranch cls start stop ks origin = .ok e) : Made src ran e := by
  obtain ⟨_, rfl, -, -⟩ := Element.makeBranch_ok h
  exact .branch hks hne

theorem spanning_made (hks : MadeAll src ran ks)
    (h : Element.spanning cls ks none origin = .ok e) : Made src ran e := by
  cases ks with
  | nil => cases h
  | cons k ks => exact makeBranch_made hks (List.cons_ne_nil _ _) h

/-- A branch that is `Bracketed` is made, if its children are. -/
theorem Element.Bracketed.made {opening closing : Leaf} (hks : MadeAll src ran ks)
    (h : e.Bracketed src cls origin ks opening closing) : Made src ran e := by
  obtain ⟨span, rfl⟩ := h.shape
  have hchildren : MadeAll src ran (.leaf opening :: ks ++ [.leaf closing]) :=
    (MadeAll.cons (.leaf h.opens) hks).append (.single (.leaf h.closes))
  exact .branch hchildren (by simp)

theorem balanced_made {pair : Option (Text × Text)} (hks : MadeAll src ran ks)
    (h : Element.balanced cls src start stop pair ks brackets origin = .ok e) :
    Made src ran e := by
  obtain ⟨_, _, hbracketed, -⟩ := Element.balanced_bracketed h
  exact hbracketed.made hks

theorem balancedAround_made {expected : Option Text} (hks : MadeAll src ran ks)
    (h : Element.balancedAround cls src start stop ks expected brackets origin = .ok e) :
    Made src ran e := by
  obtain ⟨_, _, _, _, -, hbracketed, -⟩ := Element.balancedAround_bracketed h
  exact hbracketed.made hks

end Delimiters

/-! ### Makers -/

namespace Plan

variable {f : Frame}

/-- All elements the plan `x` comes to are made by rules, if those of inner matches are. -/
def Makes (ran : Production → Match → Prop) (x : Plan f (List Element)) : Prop :=
  x.Meets (MadeAll f.src ran) (MadeAll f.src ran)

/-- The leaf the plan `x` comes to is made by rules. -/
def MakesLeaf (ran : Production → Match → Prop) (x : Plan f Leaf) : Prop :=
  x.Meets (MadeAll f.src ran) fun l => Made f.src ran (.leaf l)

/-- The element the plan `x` comes to is made by rules. -/
def MakesOne (ran : Production → Match → Prop) (x : Plan f Element) : Prop :=
  x.Meets (MadeAll f.src ran) (Made f.src ran)

variable {ran : Production → Match → Prop} {x y : Plan f (List Element)}

theorem Makes.ite {c : Prop} [Decidable c] (hx : x.Makes ran) (hy : y.Makes ran) :
    (if c then x else y).Makes ran := Meets.ite hx hy

theorem makes_nil : (pure [] : Plan f (List Element)).Makes ran := .pure MadeAll.nil

/-- The plan `x` and then `y`, with the elements of both. -/
theorem Makes.append (hx : x.Makes ran) (hy : y.Makes ran) :
    (do let a ← x; return a ++ (← y)).Makes ran :=
  Meets.bind hx fun _ ha => Meets.bind hy fun _ hb => .pure (ha.append hb)

/-- The leaf of a plan `l` in front of the elements of another plan. -/
theorem MakesLeaf.cons {l : Plan f Leaf} (hl : l.MakesLeaf ran) (hx : x.Makes ran) :
    (do let a ← l; return Element.leaf a :: (← x)).Makes ran :=
  Meets.bind hl fun _ ha => Meets.bind hx fun _ hb => .pure (.cons ha hb)

end Plan

namespace Frame

variable {f : Frame} {ran : Production → Match → Prop} {ks left right : List Element}

open Plan

/-! ### Going on and stopping -/

theorem unhandled_makes : (f.unhandled : Plan f (List Element)).Makes ran := trivial

theorem build_makes (p : Production) (c? : Option f.self.Inner) : (f.build p c?).Makes ran :=
  fun _ hes => hes

theorem buildKey_makes (p : Production) : (f.buildKey p).Makes ran := build_makes p _

theorem buildAll_makes (p : Production) (cs : List f.self.Inner) : (f.buildAll p cs).Makes ran := by
  induction cs with
  | nil => exact makes_nil
  | cons c cs ih => exact (build_makes p (some c)).append ih

theorem buildParts_makes (cs : List (Production × f.self.Inner)) : (f.buildParts cs).Makes ran := by
  induction cs with
  | nil => exact makes_nil
  | cons c cs ih => exact (build_makes c.1 (some c.2)).append ih

theorem buildInOrder_makes (ps : List Production) : (f.buildInOrder ps).Makes ran :=
  buildParts_makes _

theorem buildIf_makes (p : Production) : (f.buildIf p).Makes ran :=
  .ite (buildKey_makes p) makes_nil

theorem buildOnly_makes {other : Plan f (List Element)} (ho : other.Makes ran)
    (ps : List Production) : (f.buildOnly other ps).Makes ran := by
  induction ps with
  | nil => exact ho
  | cons p ps ih => exact .ite (buildKey_makes p) ih

/-- An inner match that has to be there, by `need`, is inside the match at hand. -/
theorem need_meets {G : List Element → Prop} {access : Access} (c? : Option f.self.Inner) :
    (f.need access c?).Meets G fun m => m.Inside f.self := by
  cases c? with
  | none => exact rfl
  | some c => exact c.inside

theorem endOf_meets {G : List Element → Prop} (nodes : List Element) :
    (f.endOf nodes).Meets G fun _ => True := by
  cases nodes with
  | nil => exact rfl
  | cons k ks => trivial

/-! ### Leaves -/

theorem leaf_meets {G : List Element → Prop} (cls : LeafClass) (m : Match) (quoting : Quoting) :
    (f.leaf cls m quoting).Meets G fun l =>
      l.span.start = m.start ∧ l.span.stop = m.stop ∧ l.content = m.text f.src :=
  ofElement_meets fun _ h => Leaf.make_ok h

theorem trimmedLeaf_makes (cls : LeafClass) (m : Match) (quoting : Quoting) :
    (f.trimmedLeaf cls m quoting).MakesLeaf ran :=
  ofElement_meets fun _ h => .leaf (Leaf.trimmed_standsIn h)

theorem trimmed_makes (cls : LeafClass) (m : Match) : (f.trimmed cls m).Makes ran :=
  Meets.bind (trimmedLeaf_makes cls m {}) fun _ hl => .pure (.single hl)

theorem trimmedKey_makes (cls : LeafClass) (key : String) : (f.trimmedKey cls key).Makes ran :=
  Meets.bind (need_meets _) fun m _ => trimmed_makes cls m

theorem buildMixed_makes (cls : LeafClass) (cs : List (Part × f.self.Inner)) :
    (f.buildMixed cls cs).Makes ran := by
  induction cs with
  | nil => exact makes_nil
  | cons c cs ih =>
      obtain ⟨part, c⟩ := c
      cases part with
      | inner p => exact (build_makes p (some c)).append ih
      | named key => exact (trimmed_makes cls c.val).append ih

theorem leafAt_meets {G : List Element → Prop} (cls : LeafClass) (offset : Int) (content : Text) :
    (f.leafAt cls offset content).Meets G fun l => l.PlacedAt offset content :=
  ofElement_meets fun _ h => Leaf.placed_ok h

theorem sample_makes (cls : LeafClass) (m : Match) (token : Text) :
    (f.sample cls m token).MakesLeaf ran :=
  ofElement_meets fun _ h => .leaf (Leaf.sample_standsIn h)

theorem leafOver_makes (cls : LeafClass) (start stop : Int) :
    (f.leafOver cls start stop).MakesLeaf ran :=
  (leafAt_meets cls start _).mono fun _ h => .leaf (h.standsIn (Text.standsAt_slice h.nonneg stop))

/-! ### Searching the source -/

theorem find?_standsIn {cls : LeafClass} {start stop : Int} {token : Token} :
    ∀ l ∈ f.find? cls start stop token, l.StandsIn f.src := by
  intro l hl
  obtain ⟨⟨i, s⟩, hfound, rfl⟩ := Option.map_eq_some_iff.mp hl
  refine Leaf.found_standsIn ?_
  cases token with
  | text t =>
      obtain ⟨j, hj, hpair⟩ := Option.map_eq_some_iff.mp hfound
      cases hpair
      exact Text.standsAt_of_find? hj
  | keyword words => exact Text.Keyword.standsAt_of_find? hfound

theorem expect_makes (cls : LeafClass) (start stop : Int) (token : Token) :
    (f.expect cls start stop token).MakesLeaf ran := by
  unfold expect
  split
  · rename_i l hl
    exact .pure (.leaf (find?_standsIn l hl))
  · trivial

theorem between_makes (cls : LeafClass) (token : Token) :
    (f.between cls left right token).MakesLeaf ran := expect_makes cls _ _ token

/-! ### Branches -/

theorem branch_makes (cls : BranchClass) (hks : MadeAll f.src ran ks) :
    (f.branch cls ks).MakesOne ran := ofElement_meets fun _ h => spanning_made hks h

theorem balanced_makes (cls : BranchClass) (pair : Option (Text × Text)) (brackets : Brackets)
    (hks : MadeAll f.src ran ks) : (f.balanced cls pair brackets ks).Makes ran := by
  unfold balanced
  split
  · rename_i e he
    exact .pure (.single (balanced_made hks he))
  · trivial

theorem balancedAround_makes (cls : BranchClass) (m : Match) (expected : Text)
    (hks : MadeAll f.src ran ks) : (f.balancedAround cls m expected ks).Makes ran := by
  unfold balancedAround
  split
  · rename_i e he
    exact .pure (.single (balancedAround_made hks he))
  · trivial
  · exact rfl

theorem delimited_makes (cls : BranchClass) (start stop : Int) (front : Nat) (brackets : Brackets)
    (hks : MadeAll f.src ran ks) : (f.delimited cls start stop front brackets ks).MakesOne ran := by
  refine ofElement_meets fun _ h => ?_
  obtain ⟨_, _, hbracketed, -⟩ := Element.delimited_bracketed
    (fun h0 => Text.standsAt_slice h0 _) Text.standsAt_slice_back h
  exact hbracketed.made hks

/-- A plan `x` for the children of a bracketed branch, and the branch around them. -/
theorem balanced_bind_makes (cls : BranchClass) (pair : Option (Text × Text)) (brackets : Brackets)
    {x : Plan f (List Element)} (hx : x.Makes ran) :
    (do f.balanced cls pair brackets (← x)).Makes ran :=
  Meets.bind hx fun _ hks => balanced_makes cls pair brackets hks

end Frame

end RakuTree
