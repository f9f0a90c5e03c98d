import RakuTree.Gap
import RakuTree.Proofs.Standing

/-!
# RakuTree.Proofs.Layout

What the layout scan leaves of its text.

The pieces of a text cover it from left to right (`pieces_covers`), so nothing is lost
before the pieces are read. Two readings follow. A strict reading that goes through
skips no piece, so its tokens abut from the first to the last offset of the text
(`scan_abut`). And every token of any reading stands in the source where its range
says, if the text was cut out of the source (`scan_standsIn`).
-/

namespace RakuTree

/-! ### Ranges that abut -/

/-- Every one of `xs` starts where the one before it ends, the first at `a`, and the
last ends at `b`. -/
def Abut {α : Type} (startOf endOf : α → Int) : Int → List α → Int → Prop
  | a, [], b => a = b
  | a, x :: xs, b => startOf x = a ∧ Abut startOf endOf (endOf x) xs b

instance Abut.decidable {α : Type} (startOf endOf : α → Int) :
    ∀ (a : Int) (xs : List α) (b : Int), Decidable (Abut startOf endOf a xs b)
  | a, [], b => inferInstanceAs (Decidable (a = b))
  | a, x :: xs, b =>
    have := decidable startOf endOf (endOf x) xs b
    inferInstanceAs (Decidable (startOf x = a ∧ Abut startOf endOf (endOf x) xs b))

namespace Abut

variable {α β : Type} {startOf endOf : α → Int} {a b c : Int} {xs ys : List α}

theorem append (hxs : Abut startOf endOf a xs b) (hys : Abut startOf endOf b ys c) :
    Abut startOf endOf a (xs ++ ys) c := by
  induction xs generalizing a with
  | nil =>
      cases hxs
      exact hys
  | cons x xs ih => exact ⟨hxs.1, ih hxs.2⟩

theorem split (h : Abut startOf endOf a (xs ++ ys) c) :
    ∃ b, Abut startOf endOf a xs b ∧ Abut startOf endOf b ys c := by
  induction xs generalizing a with
  | nil => exact ⟨a, rfl, h⟩
  | cons x xs ih =>
      obtain ⟨b, hxs, hys⟩ := ih h.2
      exact ⟨b, ⟨h.1, hxs⟩, hys⟩

/-- Where a row that starts at `a` ends is given by the row. -/
theorem end_eq (h : Abut startOf endOf a xs b) (h' : Abut startOf endOf a xs c) : b = c := by
  induction xs generalizing a with
  | nil => exact h.symm.trans h'
  | cons x xs ih => exact ih h.2 h'.2

/-- A row that is not empty stands in one place only, since `a` is where its first entry starts. -/
theorem unique {a' b' : Int} (h : Abut startOf endOf a xs b) (h' : Abut startOf endOf a' xs b')
    (hne : xs ≠ []) : a = a' ∧ b = b' := by
  cases xs with
  | nil => exact absurd rfl hne
  | cons x xs => exact ⟨h.1.symm.trans h'.1, h.2.end_eq h'.2⟩

/-- A row that moves by `d` as a whole. -/
theorem shift {startOf' endOf' : α → Int} {d : Int} (h : Abut startOf endOf a xs b)
    (hstart : ∀ x ∈ xs, startOf' x = startOf x + d) (hend : ∀ x ∈ xs, endOf' x = endOf x + d) :
    Abut startOf' endOf' (a + d) xs (b + d) := by
  induction xs generalizing a with
  | nil => exact congrArg (· + d) h
  | cons x xs ih =>
      obtain ⟨hx, hxs⟩ := List.forall_mem_cons.mp hstart
      obtain ⟨hx', hxs'⟩ := List.forall_mem_cons.mp hend
      refine ⟨by rw [hx, h.1], ?_⟩
      rw [hx']
      exact ih h.2 hxs hxs'

/-- Ranges are all that counts: if a row `zs` abuts with the ranges that `f` gives it, so does
`zs.map f`. -/
theorem map {f : β → α} {zs : List β} (h : Abut (startOf ∘ f) (endOf ∘ f) a zs b) :
    Abut startOf endOf a (zs.map f) b := by
  induction zs generalizing a with
  | nil => exact h
  | cons z zs ih => exact ⟨h.1, ih h.2⟩

/-- The first starts at `a`. -/
theorem head {x : α} (h : Abut startOf endOf a xs b) (hx : xs.head? = some x) : startOf x = a := by
  cases xs with
  | nil => exact nomatch hx
  | cons y ys =>
      obtain rfl : y = x := Option.some.inj hx
      exact h.1

/-- The last ends at `b`. -/
theorem last {x : α} (h : Abut startOf endOf a xs b) (hx : xs.getLast? = some x) :
    endOf x = b := by
  induction xs generalizing a with
  | nil => exact nomatch hx
  | cons y ys ih =>
      cases ys with
      | nil =>
          obtain rfl : y = x := Option.some.inj hx
          exact h.2
      | cons z zs => exact ih h.2 (List.getLast?_cons_cons ▸ hx)

/-- Ranges in order that abut do not go beyond the last end `b`. -/
theorem le_end (h : Abut startOf endOf a xs b) (hord : ∀ x ∈ xs, startOf x ≤ endOf x) :
    a ≤ b ∧ ∀ x ∈ xs, endOf x ≤ b := by
  induction xs generalizing a with
  | nil =>
      cases h
      exact ⟨Int.le_refl _, fun x hx => nomatch hx⟩
  | cons y ys ih =>
      obtain ⟨hstart, hys⟩ := h
      have hy := hord y List.mem_cons_self
      obtain ⟨hle, hall⟩ := ih hys fun x hx => hord x (List.mem_cons_of_mem _ hx)
      refine ⟨by omega, fun x hx => ?_⟩
      rcases List.mem_cons.mp hx with rfl | hx
      · exact hle
      · exact hall x hx

/-- Ranges in order that abut do not go back behind the first start `a`. -/
theorem le_start (h : Abut startOf endOf a xs b) (hord : ∀ x ∈ xs, startOf x ≤ endOf x) :
    ∀ x ∈ xs, a ≤ startOf x := by
  induction xs generalizing a with
  | nil => simp
  | cons y ys ih =>
      obtain ⟨hstart, hys⟩ := h
      obtain ⟨hy, hrest⟩ := List.forall_mem_cons.mp hord
      refine List.forall_mem_cons.mpr ⟨Int.le_of_eq hstart.symm, fun x hx => ?_⟩
      have hle := ih hys hrest x hx
      omega

end Abut

namespace Layout

/-! ### Pieces cover the text -/

/-- Where a piece stands: the offset it carries. -/
def Piece.offset : Piece → Int
  | token _ i _ => i
  | unclassified i _ => i
  | backwardHereDoc i _ => i

/-- The pieces cover a text that stands at an offset, from left to right. What `pieces` makes of a
text covers it. -/
inductive Covers : Int → List Piece → Text → Prop
  /-- There are no pieces for an empty text. -/
  | nil {i : Int} : Covers i [] []
  /-- The piece `p` takes the beginning of the text, and the others cover the `rest` behind it. -/
  | cons {p : Piece} {ps : List Piece} {rest : Text}
      (h : Covers (p.offset + p.text.length) ps rest) : Covers p.offset (p :: ps) (p.text ++ rest)

/-- A `backwardHereDoc`, which takes no text, may stand in front. -/
theorem Covers.backward {i : Int} {ps : List Piece} {text : Text} (stop : Int)
    (h : Covers i ps text) : Covers i (.backwardHereDoc i stop :: ps) text := by
  refine Covers.cons (p := .backwardHereDoc i stop) ?_
  simpa [Piece.offset, Piece.text] using h

theorem pieces_covers (docs : HereDocs) (offset : Int) (atLine : Bool) (text : Text) :
    Covers offset (pieces docs offset atLine text) text := by
  fun_induction pieces docs offset atLine text with
  | case1 => exact .nil
  | case2 offset atLine c rest notes cls? extra h taken piece ih =>
      have hpiece : piece.offset = offset ∧ piece.text = taken := by
        cases cls? with
        | none => exact ⟨rfl, rfl⟩
        | some cls => exact ⟨rfl, rfl⟩
      have htext : c :: rest = taken ++ rest.drop extra := by simp [taken]
      rw [htext]
      generalize pieces docs (offset + taken.length) (taken.getLast? == some '\n')
        (rest.drop extra) = ps at ih ⊢
      have hcons : Covers offset (piece :: ps) (taken ++ rest.drop extra) := by
        rw [← hpiece.1, ← hpiece.2] at ih ⊢
        exact .cons ih
      -- a here-doc that ends before it starts is noted in front and takes nothing
      simp only [notes]
      split
      · split
        · exact hcons
        · exact hcons.backward _
      · exact hcons

/-! ### Reading pieces -/

/-- A reading that goes through behind the token `l` has `l` first. -/
theorem Reading.cons_tokens {l : Leaf} {r : Reading} (h : r.fault? = none) :
    (r.cons l).tokens = l :: r.tokens := by simp [Reading.cons, h]

/-- A strict reading that goes through skips nothing: its tokens abut over all of the text. -/
theorem read_abut {ps : List Piece} {offset : Int} {text : Text} (hps : Covers offset ps text)
    (h : (read true ps).fault? = none) :
    Abut (·.span.start) (·.span.stop) offset (read true ps).tokens (offset + text.length) := by
  induction hps with
  | nil => simp [read, Abut]
  | @cons p ps rest hps ih =>
      cases p with
      | token cls i s =>
          rw [read] at h ⊢
          split at h
          · rename_i l hl
            have hplaced := Leaf.placed_ok hl
            have hfault : (read true ps).fault? = none := h
            simp only [Reading.cons_tokens hfault]
            refine ⟨hplaced.start, ?_⟩
            have hnext := ih hfault
            simp only [Piece.offset, Piece.text, hplaced.stop] at hnext ⊢
            rwa [List.length_append, Int.natCast_add, ← Int.add_assoc]
          · cases h
      | unclassified i s =>
          -- a strict reading stops here
          simp [read] at h
      | backwardHereDoc i stop =>
          simpa [read, Piece.offset, Piece.text] using ih h

/-- Tokens that `read` makes of pieces stand in the source their text was cut out of. -/
theorem read_standsIn {src : Text} {strict : Bool} {ps : List Piece} {offset : Int} {text : Text}
    (hps : Covers offset ps text) (h0 : 0 ≤ offset) (h : Text.StandsAt src offset.toNat text) :
    ∀ l ∈ (read strict ps).tokens, l.StandsIn src := by
  induction hps with
  | nil => simp [read]
  | @cons p ps rest hps ih =>
      -- the piece begins the text, and the rest stands behind it
      have hp : Text.StandsAt src p.offset.toNat p.text := h.shorten (List.prefix_append _ _)
      have hrest : Text.StandsAt src (p.offset + p.text.length).toNat rest := by
        have hsum : (p.offset + p.text.length).toNat = p.offset.toNat + p.text.length := by omega
        rw [hsum]
        refine h.drop ⟨[], ?_⟩
        rw [List.append_nil, List.drop_left]
      have hih := ih (by omega) hrest
      cases p with
      | token cls i s =>
          rw [read]
          split
          · rename_i l hl
            intro k hk
            simp only [Reading.cons] at hk
            split at hk
            · exact nomatch hk
            · rcases List.mem_cons.mp hk with rfl | hk
              · exact (Leaf.placed_ok hl).standsIn hp
              · exact hih k hk
          · exact fun k hk => nomatch hk
      | unclassified i s =>
          rw [read]
          split
          · exact fun k hk => nomatch hk
          · exact hih
      | backwardHereDoc i stop => exact hih

theorem scan_nil (docs : HereDocs) (strict : Bool) (offset : Int) (atLine : Bool) :
    scan docs strict offset atLine [] = ⟨[], [], none⟩ := by
  rw [scan, pieces, read]

variable {docs : HereDocs} {offset : Int} {atLine : Bool} {text : Text}

theorem scan_abut (h : (scan docs true offset atLine text).fault? = none) :
    Abut (·.span.start) (·.span.stop) offset (scan docs true offset atLine text).tokens
      (offset + text.length) :=
  read_abut (pieces_covers _ _ _ _) h

theorem scan_standsIn {src : Text} {strict : Bool} (h0 : 0 ≤ offset)
    (h : Text.StandsAt src offset.toNat text) :
    ∀ l ∈ (scan docs strict offset atLine text).tokens, l.StandsIn src :=
  read_standsIn (pieces_covers _ _ _ _) h0 h

end Layout

/-! ### Gaps -/

namespace GapSource

/-- What `read` comes to: nothing between neighbours that touch, a complaint about a gap that is
none, a fault behind the end of the source, or a scan. -/
theorem read_cases (g : GapSource) (a b : Int) :
    (a = b ∧ g.read a b = ⟨[], [], none⟩) ∨
    (g.read a b = if g.strict then ⟨[], [], some (.gap (.malformed a b))⟩
      else ⟨[], [.gapSkipped (.malformed a b)], none⟩) ∨
    (0 ≤ a ∧ a ≤ b ∧ (g.read a b = ⟨[], [], some (.outside .text)⟩ ∨
      ∃ atLine, g.read a b = Layout.scan g.docs g.strict a atLine (Text.slice g.src a b))) := by
  rw [read]
  split
  · rename_i hab
    exact .inl ⟨hab, rfl⟩
  · split
    · exact .inr (.inl rfl)
    · refine .inr (.inr ⟨by omega, by omega, ?_⟩)
      split
      · exact .inr ⟨_, rfl⟩
      · split
        · exact .inl rfl
        · exact .inr ⟨_, rfl⟩

/-- Neighbours that touch, both at `a`, leave nothing to read. -/
theorem read_self (g : GapSource) (a : Int) : (g.read a a).fault? = none := by
  rw [read, if_pos rfl]

/-- A strict reading of a gap goes through only where the gap runs forward, from `a` to a later `b`.
Within the source, its tokens then abut from one end of the gap to the other. -/
theorem read_abut {g : GapSource} (hg : g.strict = true) {a b : Int}
    (h : (g.read a b).fault? = none) :
    a ≤ b ∧ (b ≤ g.src.length → Abut (·.span.start) (·.span.stop) a (g.read a b).tokens b) := by
  rcases g.read_cases a b with ⟨hab, hr⟩ | hr | ⟨ha, hab, hr | ⟨atLine, hr⟩⟩
  · rw [hr]
    exact ⟨Int.le_of_eq hab, fun _ => hab⟩
  · rw [hr, hg] at h
    exact nomatch h
  · rw [hr] at h
    exact nomatch h
  · rw [hr, hg] at h
    rw [hr, hg]
    refine ⟨hab, fun hb => ?_⟩
    have hscan := Layout.scan_abut h
    have hend : a + (b - a) = b := by omega
    rwa [Text.length_slice ha hab hb, hend] at hscan

/-- Tokens that `read` finds in a gap stand in the source. -/
theorem read_standsIn (g : GapSource) (a b : Int) :
    ∀ l ∈ (g.read a b).tokens, l.StandsIn g.src := by
  rcases g.read_cases a b with ⟨_, hr⟩ | hr | ⟨ha, _, hr | ⟨atLine, hr⟩⟩
  · rw [hr]
    exact fun l hl => nomatch hl
  · rw [hr]
    split <;> exact fun l hl => nomatch hl
  · rw [hr]
    exact fun l hl => nomatch hl
  · rw [hr]
    exact Layout.scan_standsIn ha (Text.standsAt_slice ha b)

end GapSource

end RakuTree
