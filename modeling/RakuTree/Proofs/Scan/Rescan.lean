import RakuTree.Proofs.Scan.Lookahead
import RakuTree.Proofs.Scan.Partition

/-!
# RakuTree.Proofs.Scan.Rescan

Reading a gap a second time.

The tokens that a gap holds leave holes between them, where the scan found text that is no
layout. A hole is a gap of its own when the gaps are read again, and it has to be shown that
nothing is found in it then, although its text is cut off early and read from its own start.

What the first scan passed over, any later scan passes over as well, as long as it stops no
earlier than the first one did (`scan_tokens_cut`). So a scan that starts at a hole comes out of it
where the first scan did, in the same state (`Passes`), and all holes are settled
(`layout_settled`).
-/

namespace RakuTree

namespace Layout

variable {docs : HereDocs}

/-- The tokens of a scan over text that is no layout and any part `tail` of what the first scan
finds behind it. -/
theorem scan_tokens_cut {i : Nat} {atLine : Bool} {c : Char} {rest tail : Text} {n : Nat}
    (h : advance docs i atLine c rest = (none, n)) (htail : tail <+: rest.drop n) :
    (scan docs false i atLine (c :: rest.take n ++ tail)).tokens =
      (scanBehind docs false i (c :: rest.take n) tail).tokens := by
  have hn : (rest.take n).length = n := by
    obtain ⟨-, -, -, rfl⟩ := advance_other h
    rw [List.length_take]
    exact Nat.min_eq_left (runLength_le _ _ _ _)
  have htake : (rest.take n ++ tail).take n = rest.take n := List.take_left' hn
  have hdrop : (rest.take n ++ tail).drop n = tail := List.drop_left' hn
  have hcut : rest.take (n + tail.length) = rest.take n ++ tail := by
    rw [List.take_add, ← List.prefix_iff_eq_take.mp htail]
  have hstep := (scan_cons_other (advance_take h (Nat.le_add_right n tail.length))).2.2
  rw [hcut, htake, hdrop] at hstep
  exact hstep

/-- No tokens are handed out when a reading has a `fault?`. -/
theorem read_tokens_of_fault {strict : Bool} {ps : List Piece}
    (h : (read strict ps).fault? ≠ none) : (read strict ps).tokens = [] := by
  induction ps with
  | nil => rfl
  | cons p ps ih =>
      cases p with
      | token cls offset s =>
          rw [read] at h ⊢
          split at h
          · have hsome : (read strict ps).fault?.isSome = true := Option.isSome_iff_ne_none.mpr h
            simp [Reading.cons, hsome]
          · rfl
      | unclassified offset s =>
          cases strict with
          | true => rfl
          | false => exact ih h
      | backwardHereDoc offset stop => exact ih h

/-- Is it one of the classes of layout, those of a `Piece.token`? -/
def isLayout : LeafClass → Bool
  | .ws | .comment | .pod | .hereDocBody => true
  | _ => false

theorem advance_isLayout {offset : Int} {atLine : Bool} {c : Char} {rest : Text} {n : Nat}
    {cls : LeafClass} (h : advance docs offset atLine c rest = (some cls, n)) :
    isLayout cls = true := by
  rw [advance] at h
  split at h
  · obtain ⟨hcls, -⟩ := Prod.mk.inj h
    rw [← Option.some.inj hcls]
    rfl
  · rw [classify] at h
    split at h
    · obtain ⟨hcls, -⟩ := Prod.mk.inj h
      rw [← Option.some.inj hcls]
      rfl
    · split at h
      · obtain ⟨hcls, -⟩ := Prod.mk.inj h
        rw [← Option.some.inj hcls]
        rfl
      · split at h
        · obtain ⟨hcls, -⟩ := Prod.mk.inj h
          rw [← Option.some.inj hcls]
          rfl
        · cases (Prod.mk.inj h).1

/-- All tokens of a scan are of the classes that `isLayout` names, and none is empty. -/
theorem scan_isLayout (docs : HereDocs) (i : Nat) (atLine : Bool) (text : Text) :
    ∀ l ∈ (scan docs false i atLine text).tokens, isLayout l.cls = true ∧ l.content ≠ [] := by
  induction i, atLine, text using scanRec docs with
  | nil i atLine => simp [scan_nil]
  | cons i atLine c rest cls? n h ih =>
      cases cls? with
      | none =>
          rw [(scan_cons_other h).2.2]
          exact ih
      | some cls =>
          have hnone := scan_fault?_eq_none docs (i + (c :: rest.take n).length)
            ((c :: rest.take n).getLast? == some '\n') (rest.drop n)
          rw [(scan_cons_token false h).2.2 hnone]
          exact List.forall_mem_cons.mpr ⟨⟨advance_isLayout h, List.cons_ne_nil _ _⟩, ih⟩

end Layout

namespace GapSource

open Layout

/-! ### The layout of a gap -/

/-- Does a line begin at offset `i` of the source? -/
def startsLine (g : GapSource) (i : Int) : Bool :=
  i == 0 || Text.charAt? g.src (i - 1) == some '\n'

/-- The layout tokens in the gap from `a` to `b`. A gap that runs backward or starts below
zero has none. -/
def layout (g : GapSource) (a b : Int) : List Leaf :=
  if a < 0 ∨ b < 0 ∨ b ≤ a then []
  else (scan g.docs false a (g.startsLine a) (Text.slice g.src a b)).tokens

theorem layout_of_le {g : GapSource} {a b : Int} (h : b ≤ a) : g.layout a b = [] := by
  rw [layout, if_pos (by omega)]

theorem layout_of_lt {g : GapSource} {i : Nat} {b : Int} (h : (i : Int) < b) :
    g.layout i b = (scan g.docs false i (g.startsLine i) (Text.slice g.src i b)).tokens := by
  rw [layout, if_neg (by omega)]

/-- The gap from `a` to `b` can be read: it is none, or it does not start behind the source. -/
def Readable (g : GapSource) (a b : Int) : Prop := 0 ≤ a → a < b → a ≤ g.src.length

theorem charAt?_eq_none_iff (src : Text) {i : Int} (hi : 0 ≤ i) :
    Text.charAt? src i = none ↔ (src.length : Int) ≤ i := by
  obtain ⟨k, rfl⟩ := Int.eq_ofNat_of_zero_le hi
  rw [Text.charAt?_natCast, List.getElem?_eq_none_iff]
  omega

/-- What `read` comes to, where there is a gap: a scan, if it does not start behind the source. -/
theorem read_of_lt {g : GapSource} {a b : Int} (h0 : 0 ≤ a) (hab : a < b) :
    g.read a b = if a ≤ g.src.length
      then scan g.docs g.strict a (g.startsLine a) (Text.slice g.src a b)
      else ⟨[], [], some (.outside .text)⟩ := by
  rw [read, if_neg (by omega), if_neg (by omega)]
  by_cases ha : a = 0
  · subst ha
    simp [startsLine]
  · have hpos : 0 ≤ a - 1 := by omega
    have hne : (a == 0) = false := by simp [ha]
    cases hchar : Text.charAt? g.src (a - 1) with
    | none =>
        have hlen := (charAt?_eq_none_iff g.src hpos).mp hchar
        simp only [if_neg ha]
        rw [if_neg (by omega)]
    | some c =>
        have hlen : ¬ (g.src.length : Int) ≤ a - 1 := by
          rw [← charAt?_eq_none_iff g.src hpos, hchar]
          simp
        simp only [if_neg ha]
        rw [if_pos (by omega), startsLine, hne, hchar, Bool.false_or]
        rfl

/-- Where there is no gap from `a` to `b`, there are no tokens. -/
theorem read_of_not_lt {g : GapSource} {a b : Int} (h : ¬(0 ≤ a ∧ a < b)) :
    (g.read a b).tokens = [] ∧ (g.strict = false → (g.read a b).fault? = none) := by
  rw [read]
  split
  · exact ⟨rfl, fun _ => rfl⟩
  · rw [if_pos (by omega)]
    split
    · rename_i hstrict
      refine ⟨rfl, fun hlenient => ?_⟩
      rw [hstrict] at hlenient
      cases hlenient
    · exact ⟨rfl, fun _ => rfl⟩

/-- A lenient reading goes through exactly where the gap is `Readable`. -/
theorem read_fault?_eq_none_iff {g : GapSource} (hg : g.strict = false) (a b : Int) :
    (g.read a b).fault? = none ↔ g.Readable a b := by
  by_cases h : 0 ≤ a ∧ a < b
  · obtain ⟨h0, hab⟩ := h
    rw [read_of_lt h0 hab, hg]
    by_cases hlen : a ≤ g.src.length
    · obtain ⟨i, rfl⟩ := Int.eq_ofNat_of_zero_le h0
      rw [if_pos hlen]
      exact ⟨fun _ _ _ => hlen, fun _ => scan_fault?_eq_none _ _ _ _⟩
    · rw [if_neg hlen]
      constructor
      · intro hnone
        exact nomatch hnone
      · intro hread
        exact absurd (hread h0 hab) hlen
  · refine ⟨fun _ h0 hab => absurd ⟨h0, hab⟩ h, fun _ => (read_of_not_lt h).2 hg⟩

/-- A reading that goes through, strict or lenient, comes to the `layout` of the gap. -/
theorem read_tokens {g : GapSource} {a b : Int} (h : (g.read a b).fault? = none) :
    (g.read a b).tokens = g.layout a b := by
  by_cases hgap : 0 ≤ a ∧ a < b
  · obtain ⟨h0, hab⟩ := hgap
    obtain ⟨i, rfl⟩ := Int.eq_ofNat_of_zero_le h0
    rw [layout_of_lt hab]
    rw [read_of_lt h0 hab] at h ⊢
    by_cases hlen : (i : Int) ≤ g.src.length
    · rw [if_pos hlen] at h ⊢
      cases hstrict : g.strict with
      | false => rfl
      | true =>
          rw [hstrict] at h
          obtain ⟨hsame, hstops⟩ := strict_scan g.docs i (g.startsLine i) (Text.slice g.src i b)
          cases hreported : (scan g.docs false i (g.startsLine i)
              (Text.slice g.src i b)).reported with
          | nil => exact (hsame hreported).2
          | cons x xs =>
              rw [hreported] at hstops
              rw [hstops x rfl] at h
              exact nomatch h
    · rw [if_neg hlen] at h
      exact nomatch h
  · have hempty : a < 0 ∨ b < 0 ∨ b ≤ a := by omega
    rw [(read_of_not_lt hgap).1, layout, if_pos hempty]

/-- A reading of a gap that has a `fault?` comes to no tokens. -/
theorem read_tokens_of_fault {g : GapSource} {a b : Int} (h : (g.read a b).fault? ≠ none) :
    (g.read a b).tokens = [] := by
  by_cases hgap : 0 ≤ a ∧ a < b
  · rw [read_of_lt hgap.1 hgap.2] at h ⊢
    by_cases hlen : a ≤ g.src.length
    · rw [if_pos hlen] at h ⊢
      exact Layout.read_tokens_of_fault h
    · rw [if_neg hlen]
  · exact (read_of_not_lt hgap).1

/-- All that `layout` finds in a gap is layout. -/
theorem layout_isLayout (g : GapSource) (a b : Int) :
    ∀ l ∈ g.layout a b, isLayout l.cls = true ∧ l.content ≠ [] := by
  by_cases h : 0 ≤ a ∧ a < b
  · obtain ⟨i, rfl⟩ := Int.eq_ofNat_of_zero_le h.1
    rw [layout_of_lt h.2]
    exact scan_isLayout _ _ _ _
  · rw [layout, if_pos (by omega)]
    simp

/-- What `layout` finds in a gap ends inside the source. -/
theorem layout_stop_le (g : GapSource) (a b : Int) :
    ∀ l ∈ g.layout a b, l.span.stop ≤ g.src.length := by
  by_cases h : 0 ≤ a ∧ a < b
  · intro l hl
    have hne := (g.layout_isLayout a b l hl).2
    rw [layout, if_neg (by omega)] at hl
    exact (scan_standsIn h.1 (Text.standsAt_slice h.1 b) l hl).stop_le hne
  · rw [layout, if_pos (by omega)]
    simp

/-! ### Reading again -/

/-- There is nothing left to find between the tokens of a gap from `a` to `b`. -/
def Settled (g : GapSource) : Int → List Leaf → Int → Prop
  | a, [], b => g.layout a b = []
  | a, l :: ls, b => g.layout a l.span.start = [] ∧ Settled g l.span.stop ls b

/-- Whether a line begins behind the text `s` is told by its last character. -/
theorem startsLine_behind {g : GapSource} {i : Nat} {s : Text} (hs : Text.StandsAt g.src i s)
    (hne : s ≠ []) : g.startsLine ((i + s.length : Nat) : Int) = (s.getLast? == some '\n') := by
  obtain ⟨front, c, rfl⟩ := List.eq_nil_or_concat s |>.resolve_left hne
  obtain ⟨rest, hrest⟩ := hs
  have hchar : g.src[i + front.length]? = some c := by
    rw [← List.getElem?_drop, ← hrest]
    simp
  have hpos : (((i + (front.concat c).length : Nat) : Int) == 0) = false := by
    simp only [List.length_concat, beq_eq_false_iff_ne]
    omega
  have hback : ((i + (front.concat c).length : Nat) : Int) - 1 =
      ((i + front.length : Nat) : Int) := by
    simp only [List.length_concat]
    omega
  rw [startsLine, hpos, hback, Text.charAt?_natCast, hchar, Bool.false_or]
  simp

/-- A scan from `h` that finds nothing up to `i` goes on like one from `i`, wherever the text
behind `i` is cut off. -/
def Passes (g : GapSource) (h i : Nat) (atLine : Bool) (text : Text) : Prop :=
  ∀ tail, tail <+: text →
    (scan g.docs false h (g.startsLine h) (Text.slice g.src h i ++ tail)).tokens =
      (scan g.docs false i atLine tail).tokens

theorem Passes.self (g : GapSource) (i : Nat) (text : Text) :
    g.Passes i i (g.startsLine i) text := by
  intro tail _
  rw [Text.slice_self _ (by omega), List.nil_append]

/-- Text that `advance` takes as no layout is passed, too. -/
theorem Passes.step {g : GapSource} {h i n : Nat} {atLine : Bool} {c : Char} {rest : Text}
    (hpasses : g.Passes h i atLine (c :: rest)) (hi : h ≤ i)
    (hadvance : advance g.docs i atLine c rest = (none, n))
    (hs : Text.StandsAt g.src i (c :: rest.take n)) :
    g.Passes h (i + (c :: rest.take n).length) ((c :: rest.take n).getLast? == some '\n')
      (rest.drop n) := by
  intro tail htail
  have hslice : Text.slice g.src h ((i + (c :: rest.take n).length : Nat) : Int) =
      Text.slice g.src h i ++ (c :: rest.take n) := by
    rw [← Text.slice_append (b := i) (by omega) (by omega) (by omega), Int.natCast_add,
      hs.slice_eq]
  have hprefix : (c :: rest.take n) ++ tail <+: c :: rest := by
    have happend := (List.prefix_append_right_inj (c :: rest.take n)).mpr htail
    rwa [List.cons_append, List.cons_append, List.take_append_drop] at happend
  rw [hslice, List.append_assoc, hpasses _ hprefix]
  exact scan_tokens_cut hadvance htail

/-- Nothing is found from `h` to where the scan has got, if all of it `Passes`. -/
theorem Passes.layout_eq_nil {g : GapSource} {h i : Nat} {atLine : Bool} {text : Text} {b : Int}
    (hpasses : g.Passes h i atLine text) (hb : Text.slice g.src h b = Text.slice g.src h i) :
    g.layout h b = [] := by
  by_cases hlt : (h : Int) < b
  · rw [layout_of_lt hlt, hb, ← List.append_nil (Text.slice g.src h i),
      hpasses [] List.nil_prefix, scan_nil]
  · exact layout_of_le (by omega)

theorem settled_scan {g : GapSource} {b : Int} (i : Nat) (atLine : Bool) (text : Text) :
    ∀ h : Nat, h ≤ i → (i : Int) ≤ b → text = Text.slice g.src i b → atLine = g.startsLine i →
      g.Passes h i atLine text →
      g.Settled h (scan g.docs false i atLine text).tokens b := by
  induction i, atLine, text using scanRec g.docs with
  | nil i atLine =>
      intro h hi hb htext _ hpasses
      rw [scan_nil]
      apply hpasses.layout_eq_nil
      rw [← Text.slice_append (b := i) (by omega) (by omega) hb, ← htext, List.append_nil]
  | cons i atLine c rest cls? n hadvance ih =>
      intro h hi hb htext hline hpasses
      have hsplit : Text.slice g.src i b = (c :: rest.take n) ++ rest.drop n := by simp [← htext]
      -- what is left of the text is the rest of the gap
      obtain ⟨hs, hlength, hrest⟩ := Text.slice_eq_append hb hsplit
      have hline' := startsLine_behind hs (List.cons_ne_nil _ _)
      cases cls? with
      | none =>
          rw [(scan_cons_other hadvance).2.2]
          exact ih h (by omega) hlength hrest.symm hline'.symm (hpasses.step hi hadvance hs)
      | some cls =>
          have hnone := scan_fault?_eq_none g.docs (i + (c :: rest.take n).length)
            ((c :: rest.take n).getLast? == some '\n') (rest.drop n)
          rw [(scan_cons_token false hadvance).2.2 hnone]
          refine ⟨hpasses.layout_eq_nil rfl, ?_⟩
          have hself := Passes.self g (i + (c :: rest.take n).length) (rest.drop n)
          rw [hline'] at hself
          have hsettled := ih _ (Nat.le_refl _) hlength hrest.symm hline'.symm hself
          rwa [Int.natCast_add] at hsettled

/-- A gap with its `layout` in it is `Settled`. -/
theorem layout_settled (g : GapSource) (a b : Int) : g.Settled a (g.layout a b) b := by
  by_cases h : 0 ≤ a ∧ a < b
  · obtain ⟨i, rfl⟩ := Int.eq_ofNat_of_zero_le h.1
    rw [layout_of_lt h.2]
    exact settled_scan i _ _ i (Nat.le_refl i) (by omega) rfl rfl (Passes.self g i _)
  · have hempty : g.layout a b = [] := by
      rw [layout, if_pos (by omega)]
    rw [hempty]
    exact hempty

end GapSource

end RakuTree
