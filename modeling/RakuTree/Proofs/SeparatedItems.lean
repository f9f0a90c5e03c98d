import RakuTree.Rule.Regex
import RakuTree.Proofs.InfixChains

/-!
# RakuTree.Proofs.SeparatedItems

Items of a regex with a separator between them.

The separators are not captured, but searched for: each in the window from the end of all that
stands before it to the start of its item. So what a row of items comes to is settled by what each
of them is built into. `Item.placeAll` puts the separators in front of items that are built, and
`Item.Separated` says what it finds in the windows. Going through the items does the same
one by one, and stops at the first window that has no separator.
-/

namespace RakuTree

open Element

/-! ### Items -/

/-- An item of a row that `Rule.separated` goes through, with what it comes to. -/
structure Item where
  /-- The separator in front of it, if one was found. -/
  separator : Option Leaf
  /-- The match of the item, from which `elements` are built. -/
  self : Match
  /-- The elements that were built for it. -/
  elements : List Element

namespace Item

/-- The match of the item and its elements: all but the `separator`. -/
def built (x : Item) : Match × List Element := (x.self, x.elements)

/-- The `separator` and the `elements`, as they stand in what the row comes to. -/
def all (x : Item) : List Element := (x.separator.map Element.leaf).toList ++ x.elements

/-- Where the last of `elements` ends; where there is none, the match does. -/
def elementsStop (x : Item) : Int := lastEnd x.self.stop x.elements

/-- Where all of the item ends, its `separator` included. -/
def stop (x : Item) : Int :=
  x.separator.elim x.elementsStop fun q => max q.span.stop x.elementsStop

/-- How far the items reach, if what stands before them reaches to `a`. -/
def reach (a : Int) (xs : List Item) : Int := xs.foldl (fun b x => max b x.stop) a

/-- The separator of an item is the first one between `a` and the match. -/
structure Fits (src separator : Text) (a : Int) (x : Item) : Prop where
  /-- There is a separator exactly if its text occurs between `a` and the match. -/
  isSome_iff : x.separator.isSome = true ↔ Text.OccursIn src separator a x.self.start
  /-- The class of a separator is `infixOperator`. -/
  cls : ∀ q ∈ x.separator, q.cls = .infixOperator
  /-- The text of the leaf is `separator`. -/
  content : ∀ q ∈ x.separator, q.content = separator
  /-- The text stands in the source where the leaf `q` says. -/
  stands : ∀ q ∈ x.separator, q.StandsIn src
  /-- The separator starts no sooner than `a`. -/
  start : ∀ q ∈ x.separator, a ≤ q.span.start
  /-- The separator ends no later than the match of the item starts. -/
  stop : ∀ q ∈ x.separator, q.span.stop ≤ x.self.start
  /-- The text stands nowhere between `a` and the separator. -/
  first : ∀ q ∈ x.separator, ∀ i : Nat, a ≤ i → Text.StandsAt src i separator → q.span.start ≤ i

/-- Every item has the first separator of its window, which starts at `a` or, if that is later,
behind all of the items before it. -/
def Separated (src separator : Text) (a : Int) (xs : List Item) : Prop :=
  ∀ front x back, xs = front ++ x :: back → x.Fits src separator (reach a front)

end Item

/-- From one state to another, `p` builds every match into its elements, one after the other. -/
inductive BuildsAll (src : Text) (options : Options) (p : Production) :
    BuildState → List (Match × List Element) → BuildState → Prop
  /-- No match is left to build, and the state stays as it is. -/
  | nil {s : BuildState} : BuildsAll src options p s [] s
  /-- The match `c` is built into `es`, and then the others are built. -/
  | cons {c : Match} {es : List Element} {bs : List (Match × List Element)} {s t u : BuildState}
      (built : (produce src options p c).run s = .ok es t) (rest : BuildsAll src options p t bs u) :
      BuildsAll src options p s ((c, es) :: bs) u

/-! ### Searching for separators -/

/-- A search by `find?` ends at the first place where the text stands. -/
theorem Text.find?_le_of_standsAt {src s : Text} {a b : Int} {i j : Nat} (ha : 0 ≤ a) (hb : 0 ≤ b)
    (h : find? src s a b = some i) (haj : a ≤ j) (hstands : StandsAt src j s) : i ≤ j := by
  obtain ⟨-, hib, hisrc⟩ := bounds_of_find? ha hb h
  by_cases hj : (j + s.length : Int) ≤ b ∧ j + s.length ≤ src.length
  · simp only [find?, place_of_nonneg ha, place_of_nonneg hb] at h
    obtain ⟨k, hk, hfirst, -⟩ := exists_first? (prefix_window haj hj.1 hj.2 hstands)
    rw [if_pos (by omega), hfirst] at h
    have hi : a.toNat + k = i := Option.some.inj h
    omega
  · omega

/-- An entry is in the tail of a list exactly if the list can be cut in front of it into `front` and
the rest, with something in `front`. -/
theorem mem_tail_iff {α : Type} {x : α} {xs : List α} :
    x ∈ xs.tail ↔ ∃ front back, xs = front ++ x :: back ∧ front ≠ [] := by
  cases xs with
  | nil => simp
  | cons y xs =>
      rw [List.tail_cons]
      constructor
      · intro hx
        obtain ⟨front, back, rfl⟩ := List.append_of_mem hx
        exact ⟨y :: front, back, rfl, List.cons_ne_nil _ _⟩
      · rintro ⟨front, back, hsplit, hne⟩
        obtain ⟨z, front, rfl⟩ := List.exists_cons_of_ne_nil hne
        obtain ⟨-, rfl⟩ := List.cons.inj hsplit
        exact List.mem_append_right _ List.mem_cons_self

namespace Item

variable {f : Frame} {src separator : Text} {a : Int} {x : Item} {xs : List Item}
  {bs : List (Match × List Element)}

/-- An item with the first separator between `a` and its match. -/
def place (f : Frame) (separator : Text) (a : Int) (b : Match × List Element) : Item :=
  ⟨f.find? .infixOperator a b.1.start (.text separator), b.1, b.2⟩

/-- Items with the separators in front of them, the first window starting at `a`. -/
def placeAll (f : Frame) (separator : Text) : Int → List (Match × List Element) → List Item
  | _, [] => []
  | a, b :: bs =>
    place f separator a b :: placeAll f separator (max a (place f separator a b).stop) bs

theorem map_built_placeAll (f : Frame) (separator : Text) (a : Int)
    (bs : List (Match × List Element)) :
    (placeAll f separator a bs).map built = bs := by
  induction bs generalizing a with
  | nil => rfl
  | cons b bs ih => rw [placeAll, List.map_cons, ih]; rfl

theorem mem_place {b : Match × List Element} {q : Leaf}
    (hq : q ∈ (place f separator a b).separator) :
    ∃ i, Text.find? f.src separator a b.1.start = some i ∧
      q = Leaf.found .infixOperator i separator f.origin := by
  simp only [place, Frame.find?, Token.find?, Option.map_map, Option.mem_def,
    Option.map_eq_some_iff] at hq
  obtain ⟨i, hi, rfl⟩ := hq
  exact ⟨i, hi, rfl⟩

/-- The separator that `place` puts in front of an item is the one that belongs there, by `Fits`. -/
theorem place_fits (f : Frame) (separator : Text) {b : Match × List Element} (ha : 0 ≤ a)
    (hb : 0 ≤ b.1.start) :
    (place f separator a b).Fits f.src separator a where
  isSome_iff := by
    simp only [place, Frame.find?, Token.find?, Option.isSome_map, Option.isSome_iff_exists]
    exact Text.exists_find?_iff ha hb
  cls q hq := by
    obtain ⟨i, -, rfl⟩ := mem_place hq
    rfl
  content q hq := by
    obtain ⟨i, -, rfl⟩ := mem_place hq
    rfl
  stands q hq := by
    obtain ⟨i, hi, rfl⟩ := mem_place hq
    exact Leaf.found_standsIn (Text.standsAt_of_find? hi)
  start q hq := by
    obtain ⟨i, hi, rfl⟩ := mem_place hq
    exact (Text.bounds_of_find? ha hb hi).1
  stop q hq := by
    obtain ⟨i, hi, rfl⟩ := mem_place hq
    exact (Text.bounds_of_find? ha hb hi).2.1
  first q hq j hj hstands := by
    obtain ⟨i, hi, rfl⟩ := mem_place hq
    exact Int.ofNat_le.mpr (Text.find?_le_of_standsAt ha hb hi hj hstands)

theorem Separated.cons (hx : x.Fits src separator a)
    (hxs : Separated src separator (max a x.stop) xs) : Separated src separator a (x :: xs) := by
  intro front y back hsplit
  cases front with
  | nil =>
      obtain ⟨rfl, -⟩ := List.cons.inj hsplit
      exact hx
  | cons z front =>
      obtain ⟨rfl, hrest⟩ := List.cons.inj hsplit
      exact hxs front y back hrest

theorem placeAll_separated (ha : 0 ≤ a) (hbs : ∀ b ∈ bs, 0 ≤ b.1.start) :
    Separated f.src separator a (placeAll f separator a bs) := by
  induction bs generalizing a with
  | nil =>
      intro front x back hsplit
      exact absurd hsplit.symm (List.append_ne_nil_of_right_ne_nil _ (List.cons_ne_nil _ _))
  | cons b bs ih =>
      have hfits := place_fits f separator ha (hbs b List.mem_cons_self)
      exact .cons hfits (ih (by omega) fun c hc => hbs c (List.mem_cons_of_mem b hc))

/-- The search for the next separator goes on behind the item: where it starts is settled by `stop`.
-/
theorem Fits.cursor_eq (h : x.Fits src separator a) :
    max ((x.separator.map (·.span.stop)).getD a) x.elementsStop = max a x.stop := by
  rw [Item.stop]
  cases hq : x.separator with
  | none => rfl
  | some q =>
      have hstart := h.start q hq
      have hordered := q.span.ordered
      change max q.span.stop x.elementsStop = max a (max q.span.stop x.elementsStop)
      omega

/-- Some item behind the first one has no separator exactly if no separator occurs in the window of
such an item, which starts at the `reach` of those before it. -/
theorem Separated.missing_iff (h : Separated src separator a xs) :
    (∃ x ∈ xs.tail, x.separator = none) ↔
      ∃ front x back, xs = front ++ x :: back ∧ front ≠ [] ∧
        ¬ Text.OccursIn src separator (reach a front) x.self.start := by
  constructor
  · rintro ⟨x, hx, hnone⟩
    obtain ⟨front, back, hsplit, hne⟩ := mem_tail_iff.mp hx
    refine ⟨front, x, back, hsplit, hne, ?_⟩
    rwa [← (h front x back hsplit).isSome_iff, Option.not_isSome_iff_eq_none]
  · rintro ⟨front, x, back, hsplit, hne, hnone⟩
    refine ⟨x, mem_tail_iff.mpr ⟨front, back, hsplit, hne⟩, ?_⟩
    rwa [← (h front x back hsplit).isSome_iff, Option.not_isSome_iff_eq_none] at hnone

end Item

/-! ### Going through the items -/

namespace Rule

variable {f : Frame} {options : Options} {p : Production} {separator : Text} {i : Nat} {a : Int}
  {c : f.self.Inner} {cs : List f.self.Inner} {es : List Element}
  {bs : List (Match × List Element)} {s t u : BuildState}

/-- An item `c` that has its separator, or does not need one, is built, and then those behind it. -/
theorem separatedFrom_cons (ha : 0 ≤ a) (hc : 0 ≤ c.val.start) (cs : List f.self.Inner)
    (hfound : i ≠ 0 → f.find? .infixOperator a c.val.start (.text separator) ≠ none) :
    separatedFrom f p separator i a (c :: cs) =
      f.build p (some c) >>= fun es =>
        separatedFrom f p separator (i + 1) (max a (Item.place f separator a (c.val, es)).stop) cs
          >>= fun rest => pure ((Item.place f separator a (c.val, es)).all ++ rest) := by
  have hhere :
      ((f.find? .infixOperator a c.val.start (.text separator)).isNone && i != 0) = false := by
    by_cases hi : i = 0
    · rw [hi, bne_self_eq_false, Bool.and_false]
    · have hsome := Option.isSome_iff_ne_none.mpr (hfound hi)
      rw [Option.isNone_eq_false_iff.mpr hsome, Bool.false_and]
  simp only [separatedFrom, hhere, Bool.false_eq_true, if_false]
  refine bind_congr fun es => ?_
  rw [← (Item.place_fits f separator (b := (c.val, es)) ha hc).cursor_eq]
  rfl

/-- An item other than the first one that has no separator is refused by `separatedFrom`, and with
it the match. -/
theorem separatedFrom_refused (p : Production) (cs : List f.self.Inner) (hi : i ≠ 0)
    (hmissing : f.find? .infixOperator a c.val.start (.text separator) = none) :
    ∃ note, separatedFrom f p separator i a (c :: cs) = f.refuse note := by
  refine ⟨"expected " ++ Text.quoted separator ++ " before item " ++ toString i, ?_⟩
  simp only [separatedFrom, hmissing, Option.isNone_none, Bool.true_and, bne_iff_ne, ne_eq, hi,
    not_false_eq_true, if_true]

theorem build_run (p : Production) (c : f.self.Inner) :
    ((f.build p (some c)).run (produceInner f.src options)) =
      produce f.src options p c.val := bind_pure _

/-- Once the item `c` is built, the items behind it decide. -/
theorem separatedFrom_cons_run (ha : 0 ≤ a) (hc : 0 ≤ c.val.start)
    (hfound : i ≠ 0 → f.find? .infixOperator a c.val.start (.text separator) ≠ none)
    (hbuilt : (produce f.src options p c.val).run s = .ok es t) :
    ((separatedFrom f p separator i a (c :: cs)).run
        (produceInner f.src options)).run s =
      (((separatedFrom f p separator (i + 1)
          (max a (Item.place f separator a (c.val, es)).stop) cs).run
        (produceInner f.src options)) >>= fun rest =>
          pure ((Item.place f separator a (c.val, es)).all ++ rest)).run t := by
  rw [separatedFrom_cons ha hc cs hfound, Plan.run_bind, build_run, Build.run_bind_of_ok hbuilt,
    Plan.run_bind]
  rfl

/-- Where every item of `bs` has its separator, the items come to `Item.all` of each. -/
theorem separatedFrom_of_present (hbuilds : BuildsAll f.src options p s bs t)
    (hcs : cs.map Match.Inner.val = bs.map Prod.fst) (ha : 0 ≤ a) (hi : i ≠ 0)
    (hbs : ∀ b ∈ bs, 0 ≤ b.1.start)
    (hall : ∀ x ∈ Item.placeAll f separator a bs, x.separator ≠ none) :
    ((separatedFrom f p separator i a cs).run (produceInner f.src options)).run s =
      .ok ((Item.placeAll f separator a bs).flatMap Item.all) t := by
  induction hbuilds generalizing cs a i with
  | nil =>
      rw [List.map_eq_nil_iff.mp hcs]
      rfl
  | @cons c es bs s t u built rest ih =>
      obtain ⟨c', cs, rfl, rfl, hrest⟩ := List.map_eq_cons_iff.mp hcs
      have hc := hbs _ List.mem_cons_self
      have hfound := hall _ List.mem_cons_self
      rw [separatedFrom_cons_run ha hc (fun _ => hfound) built, Build.run_bind_of_ok
        (ih hrest (by omega) (Nat.succ_ne_zero i) (fun b hb => hbs b (List.mem_cons_of_mem _ hb))
          fun x hx => hall x (List.mem_cons_of_mem _ hx))]
      rfl

/-- Where an item of `bs` has no separator, the match is refused. -/
theorem separatedFrom_of_missing (hbuilds : BuildsAll f.src options p s bs t)
    (hcs : cs.map Match.Inner.val = bs.map Prod.fst) (ha : 0 ≤ a) (hi : i ≠ 0)
    (hbs : ∀ b ∈ bs, 0 ≤ b.1.start)
    (hmissing : ∃ x ∈ Item.placeAll f separator a bs, x.separator = none) :
    ∃ note v, ((separatedFrom f p separator i a cs).run
        (produceInner f.src options)).run s =
      .error (.refused (f.refusal f.self (some note) false)) v := by
  induction hbuilds generalizing cs a i with
  | nil =>
      obtain ⟨x, hx, -⟩ := hmissing
      cases hx
  | @cons c es bs s t u built rest ih =>
      obtain ⟨c', cs, rfl, rfl, hrest⟩ := List.map_eq_cons_iff.mp hcs
      have hc := hbs _ List.mem_cons_self
      by_cases hfound : f.find? .infixOperator a c'.val.start (.text separator) = none
      · obtain ⟨note, hrefuse⟩ := separatedFrom_refused p cs hi hfound
        rw [hrefuse]
        exact ⟨note, _, rfl⟩
      · have hbehind : ∃ x ∈ Item.placeAll f separator
            (max a (Item.place f separator a (c'.val, es)).stop) bs, x.separator = none := by
          obtain ⟨x, hx, hnone⟩ := hmissing
          rcases List.mem_cons.mp hx with rfl | hx
          · exact absurd hnone hfound
          · exact ⟨x, hx, hnone⟩
        obtain ⟨note, v, hrefused⟩ := ih hrest (by omega) (Nat.succ_ne_zero i)
          (fun b hb => hbs b (List.mem_cons_of_mem _ hb)) hbehind
        refine ⟨note, v, ?_⟩
        rw [separatedFrom_cons_run ha hc (fun _ => hfound) built, Build.run_bind, hrefused]

/-- If `separatedFrom` goes through the items, every one of them was built. -/
theorem builds_of_separatedFrom (ha : 0 ≤ a) (hcs : ∀ c ∈ cs, 0 ≤ c.val.start)
    (h : ((separatedFrom f p separator i a cs).run
      (produceInner f.src options)).run s = .ok es t) :
    ∃ bs, bs.map Prod.fst = cs.map Match.Inner.val ∧ BuildsAll f.src options p s bs t := by
  induction cs generalizing i a s es with
  | nil =>
      cases h
      exact ⟨[], rfl, .nil⟩
  | cons c cs ih =>
      have hc := hcs c List.mem_cons_self
      have hfound : i ≠ 0 → f.find? .infixOperator a c.val.start (.text separator) ≠ none := by
        intro hi hmissing
        obtain ⟨note, hrefuse⟩ := separatedFrom_refused p cs hi hmissing
        rw [hrefuse] at h
        cases h
      rw [separatedFrom_cons ha hc cs hfound, Plan.run_bind, build_run] at h
      obtain ⟨es', u, hbuilt, h⟩ := Build.bind_ok h
      rw [Plan.run_bind] at h
      obtain ⟨rest, v, hrest, h⟩ := Build.bind_ok h
      cases h
      obtain ⟨bs, hbs, hbuilds⟩ :=
        ih (by omega) (fun d hd => hcs d (List.mem_cons_of_mem c hd)) hrest
      exact ⟨(c.val, es') :: bs, congrArg (c.val :: ·) hbs, .cons hbuilt hbuilds⟩

/-- What `Rule.separated` comes to, once the items are built as `bs` says: `Item.all` of each, or a
refusal if one behind the first has no separator. -/
theorem separated_cases (separator : Text) (hstart : 0 ≤ f.self.start)
    (hitems : ∀ c ∈ f.self.captures p.key, 0 ≤ c.start)
    (hbs : bs.map Prod.fst = f.self.captures p.key) (hbuilds : BuildsAll f.src options p s bs t) :
    ((∀ x ∈ (Item.placeAll f separator f.self.start bs).tail, x.separator ≠ none) →
      ((separated f p separator).run (produceInner f.src options)).run s =
        .ok ((Item.placeAll f separator f.self.start bs).flatMap Item.all) t) ∧
    ((∃ x ∈ (Item.placeAll f separator f.self.start bs).tail, x.separator = none) →
      ∃ note v, ((separated f p separator).run (produceInner f.src options)).run s =
        .error (.refused (f.refusal f.self (some note) false)) v) := by
  have hcs : (f.each p.key).map Match.Inner.val = bs.map Prod.fst :=
    (Match.map_val_inners f.self p.key).trans hbs.symm
  have hnonneg : ∀ b ∈ bs, 0 ≤ b.1.start := fun b hb =>
    hitems b.1 (hbs ▸ List.mem_map_of_mem hb)
  rw [separated]
  cases hbuilds with
  | nil =>
      rw [List.map_eq_nil_iff.mp hcs]
      refine ⟨fun _ => rfl, ?_⟩
      rintro ⟨x, hx, -⟩
      cases hx
  | @cons c es bs s t u built rest =>
      obtain ⟨c', cs, hcons, rfl, hrest⟩ := List.map_eq_cons_iff.mp hcs
      have hc := hnonneg _ List.mem_cons_self
      have hbehind := fun b hb => hnonneg b (List.mem_cons_of_mem _ hb)
      rw [hcons, separatedFrom_cons_run hstart hc (fun hi => absurd rfl hi) built]
      refine ⟨fun hall => ?_, fun hmissing => ?_⟩
      · rw [Build.run_bind_of_ok (separatedFrom_of_present rest hrest (by omega)
          (Nat.succ_ne_zero 0) hbehind hall)]
        rfl
      · obtain ⟨note, v, hrefused⟩ := separatedFrom_of_missing rest hrest (by omega)
          (Nat.succ_ne_zero 0) hbehind hmissing
        exact ⟨note, v, by rw [Build.run_bind, hrefused]⟩

end Rule

/-- **Separated items keep every item and its separator.** Let a match hold items that start, like
the match itself, not below zero.

* If the items are gone through, what comes out are their elements in order, with a separator
  in front of every item but perhaps the first.
* If every item can be built, the match is refused exactly if an item other than the first has no
  separator in its window, and otherwise comes to all that belongs to the items.

The window of an item starts where the match starts or, if that is later, where everything that
comes from the items before it ends. It ends where the item starts. -/
theorem separated_items (f : Frame) (options : Options) (p : Production) (separator : Text)
    (hstart : 0 ≤ f.self.start) (hitems : ∀ c ∈ f.self.captures p.key, 0 ≤ c.start)
    (s : BuildState) :
    (∀ es t, ((Rule.separated f p separator).run
        (produceInner f.src options)).run s = .ok es t →
      ∃ xs : List Item, xs.map Item.self = f.self.captures p.key ∧
        BuildsAll f.src options p s (xs.map Item.built) t ∧
        Item.Separated f.src separator f.self.start xs ∧
        (∀ x ∈ xs.tail, x.separator ≠ none) ∧ es = xs.flatMap Item.all) ∧
    (∀ bs t, bs.map Prod.fst = f.self.captures p.key → BuildsAll f.src options p s bs t →
      ∃ xs : List Item, xs.map Item.built = bs ∧
        Item.Separated f.src separator f.self.start xs ∧
        ((∃ note v, ((Rule.separated f p separator).run
            (produceInner f.src options)).run s =
            .error (.refused (f.refusal f.self (some note) false)) v) ↔
          ∃ front x back, xs = front ++ x :: back ∧ front ≠ [] ∧
            ¬ Text.OccursIn f.src separator (Item.reach f.self.start front) x.self.start) ∧
        ((∀ x ∈ xs.tail, x.separator ≠ none) →
          ((Rule.separated f p separator).run (produceInner f.src options)).run s =
            .ok (xs.flatMap Item.all) t)) := by
  have hseparated : ∀ bs : List (Match × List Element), bs.map Prod.fst = f.self.captures p.key →
      Item.Separated f.src separator f.self.start (Item.placeAll f separator f.self.start bs) :=
    fun bs hbs => Item.placeAll_separated hstart fun b hb =>
      hitems b.1 (hbs ▸ List.mem_map_of_mem hb)
  refine ⟨fun es t hrun => ?_, fun bs t hbs hbuilds => ?_⟩
  · have hinners : ∀ c ∈ f.each p.key, 0 ≤ c.val.start := fun c hc =>
      hitems c.val (Match.map_val_inners f.self p.key ▸ List.mem_map_of_mem hc)
    obtain ⟨bs, hbs, hbuilds⟩ := Rule.builds_of_separatedFrom hstart hinners hrun
    rw [Frame.each, Match.map_val_inners] at hbs
    obtain ⟨hok, hrefused⟩ := Rule.separated_cases separator hstart hitems hbs hbuilds
    have hall : ∀ x ∈ (Item.placeAll f separator f.self.start bs).tail, x.separator ≠ none := by
      intro x hx hnone
      obtain ⟨note, v, hrefused⟩ := hrefused ⟨x, hx, hnone⟩
      rw [hrun] at hrefused
      cases hrefused
    rw [hok hall] at hrun
    cases hrun
    refine ⟨Item.placeAll f separator f.self.start bs, ?_, ?_, hseparated bs hbs, hall, rfl⟩
    · rw [← hbs]
      nth_rewrite 2 [← Item.map_built_placeAll f separator f.self.start bs]
      rw [List.map_map]
      rfl
    · rwa [Item.map_built_placeAll]
  · obtain ⟨hok, hrefused⟩ := Rule.separated_cases separator hstart hitems hbs hbuilds
    refine ⟨Item.placeAll f separator f.self.start bs, Item.map_built_placeAll _ _ _ _,
      hseparated bs hbs, ?_, hok⟩
    rw [← (hseparated bs hbs).missing_iff]
    refine ⟨?_, hrefused⟩
    rintro ⟨note, v, hrun⟩
    by_contra hnone
    rw [hok fun x hx hmissing => hnone ⟨x, hx, hmissing⟩] at hrun
    cases hrun

namespace Match

/-- A conjunction of one literal character, at offset `i`. -/
def sampleTerm (i : Int) : Match :=
  Sketch.span i (i + 1) [("termish", .one (Sketch.span i (i + 1) [("noun", .one
    (Sketch.span i (i + 1) [("atom", .one (.plain i (i + 1)))] []))] []))] []

/-- `| a|b`, with a separator in front. -/
def sampleTerms : Frame :=
  ⟨"| a|b".toList, .termalt, Sketch.span 0 5 [("termconj", .many [sampleTerm 2, sampleTerm 4])] []⟩

/-- Two empty conjunctions, in a match that starts at `start`. -/
def samplePair (src : Text) (start : Int) : Frame :=
  ⟨src, .termalt, Sketch.span start 3 [("termconj", .many [.plain 0 1, .plain 2 3])] []⟩

/-- An empty `termconj` comes to nothing. -/
theorem plain_termconj_gives (src : Text) (i j : Int) (s : BuildState) :
    (produce src {} .termconj (.plain i j)).Gives s (some []) := by
  apply produce_gives
  exact Plan.done_gives []

/-- Both conjunctions of `samplePair` can be built. -/
theorem samplePair_builds (src : Text) :
    ∃ t, BuildsAll src {} .termconj {} [(.plain 0 1, []), (.plain 2 3, [])] t := by
  obtain ⟨t, hfirst, -⟩ := (plain_termconj_gives src 0 1 {}).ok [] rfl
  obtain ⟨u, hsecond, -⟩ := (plain_termconj_gives src 2 3 t).ok [] rfl
  exact ⟨u, .cons hfirst (.cons hsecond .nil)⟩

/-- The items of `sampleTerms` come to their literals with all the separators, and those of a
`samplePair` with nothing but a blank between them are refused. -/
theorem sampleTerms_separated :
    (∃ es t xs, ((Rule.separated sampleTerms .termconj ['|']).run
        (produceInner sampleTerms.src {})).run {} = .ok es t ∧
      xs.map Item.self = [sampleTerm 2, sampleTerm 4] ∧
      Item.Separated sampleTerms.src ['|'] 0 xs ∧ (∀ x ∈ xs.tail, x.separator ≠ none) ∧
      es = xs.flatMap Item.all ∧
      es.map (fun e => (e.start, e.text?)) =
        [(0, some ['|']), (2, some ['a']), (3, some ['|']), (4, some ['b'])]) ∧
    ∃ note v, ((Rule.separated (samplePair "a b".toList 0) .termconj ['|']).run
        (produceInner "a b".toList {})).run {} =
      .error (.refused ((samplePair "a b".toList 0).refusal (samplePair "a b".toList 0).self
        (some note) false)) v := by
  refine ⟨?_, ?_⟩
  · obtain ⟨hkept, -⟩ := separated_items sampleTerms {} .termconj ['|'] (by decide)
      (by decide) {}
    have helements : (Build.elementsOf (((Rule.separated sampleTerms .termconj ['|']).run
          (produceInner sampleTerms.src {})).run {})).map
          (fun e => (e.start, e.text?)) =
        [(0, some ['|']), (2, some ['a']), (3, some ['|']), (4, some ['b'])] := by
      decide +kernel
    obtain ⟨es, t, hrun⟩ := Document.exists_of_returned
      (x := (Rule.separated sampleTerms .termconj ['|']).run
        (produceInner sampleTerms.src {})) (s := {}) (by decide +kernel)
    rw [hrun] at helements
    obtain ⟨xs, hself, -, hseparated, hall, hes⟩ := hkept es t hrun
    exact ⟨es, t, xs, hrun, hself, hseparated, hall, hes, helements⟩
  · obtain ⟨-, hbuilt⟩ := separated_items (samplePair "a b".toList 0) {} .termconj ['|'] (by decide)
      (by decide) {}
    obtain ⟨t, hbuilds⟩ := samplePair_builds "a b".toList
    obtain ⟨xs, hxs, -, hrefused, -⟩ := hbuilt _ t rfl hbuilds
    obtain ⟨x, xs, rfl, -, hrest⟩ := List.map_eq_cons_iff.mp hxs
    obtain ⟨y, ys, rfl, hy, -⟩ := List.map_eq_cons_iff.mp hrest
    refine hrefused.mpr ⟨[x], y, ys, rfl, List.cons_ne_nil _ _, ?_⟩
    -- the source has no separator anywhere
    rintro ⟨i, -, -, hi, hstands⟩
    have hnone : ∀ i < 3, ¬ Text.StandsAt "a b".toList i ['|'] := by decide
    exact hnone i hi hstands

/-- A `samplePair` with a separator between its items, in a match that starts behind it: the
separator stands where the first one ends, and the match is refused all the same. -/
theorem samplePair_refused :
    (0 ≤ (samplePair "a|b".toList 2).self.start ∧
      (samplePair "a|b".toList 2).self.captures "termconj" = [.plain 0 1, .plain 2 3] ∧
      (∃ t, BuildsAll "a|b".toList {} .termconj {} [(.plain 0 1, []), (.plain 2 3, [])] t) ∧
      Text.OccursIn "a|b".toList ['|'] (Item.stop ⟨none, .plain 0 1, []⟩) 2) ∧
    ∃ note v, ((Rule.separated (samplePair "a|b".toList 2) .termconj ['|']).run
        (produceInner "a|b".toList {})).run {} =
      .error (.refused ((samplePair "a|b".toList 2).refusal (samplePair "a|b".toList 2).self
        (some note) false)) v := by
  have hstands : Text.StandsAt "a|b".toList 1 ['|'] := by decide
  obtain ⟨t, hbuilds⟩ := samplePair_builds "a|b".toList
  refine ⟨⟨by decide, rfl, ⟨t, hbuilds⟩, 1, by decide, by decide, by decide, hstands⟩, ?_⟩
  obtain ⟨-, hrefused⟩ := Rule.separated_cases (f := samplePair "a|b".toList 2) (p := .termconj)
    ['|'] (by decide) (by decide) rfl hbuilds
  exact hrefused ⟨_, List.mem_singleton_self _, rfl⟩

end Match

end RakuTree
