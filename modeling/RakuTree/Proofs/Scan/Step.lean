import RakuTree.Proofs.Layout

/-!
# RakuTree.Proofs.Scan.Step

One step of the layout scan.

At every place the scan asks the same two questions: what stands here (`advance`), and how
far it reaches. A step takes that much text, at least one character, and goes on behind it
(`pieces_cons`, `scan_cons_token`, `scan_cons_other`). Everything about whole scans is shown by
induction along the steps (`scanRec`), from what a single step takes (`isRun_of_advance`,
`advance_body`).
-/

namespace RakuTree.Layout

variable {docs : HereDocs} {p : Char → Bool}

/-! ### Runs of characters -/

theorem runLength_le (docs : HereDocs) (p : Char → Bool) (offset : Int) (rest : Text) :
    runLength docs p offset rest ≤ rest.length := by
  induction rest generalizing offset with
  | nil => simp [runLength]
  | cons c rest ih =>
      rw [runLength]
      split
      · simpa using ih (offset + 1)
      · exact Nat.zero_le _

/-- All characters of a run that `runLength` measures are of the kind `p`. -/
theorem forall_mem_take_runLength (offset : Int) (rest : Text) :
    ∀ c ∈ rest.take (runLength docs p offset rest), p c = true := by
  induction rest generalizing offset with
  | nil => simp [runLength]
  | cons c rest ih =>
      rw [runLength]
      split
      · rename_i hc
        rw [List.take_succ_cons]
        intro d hd
        rcases List.mem_cons.mp hd with rfl | hd
        · exact (Bool.and_eq_true_iff.mp hc).1
        · exact ih (offset + 1) d hd
      · simp

/-- No here-doc starts in a run that `runLength` measures. -/
theorem stop?_eq_none_of_runLength {offset i : Int} {rest : Text} (hi : offset ≤ i)
    (h : i < offset + runLength docs p offset rest) : docs.stop? i = none := by
  induction rest generalizing offset with
  | nil =>
      simp only [runLength] at h
      omega
  | cons c rest ih =>
      rw [runLength] at h
      split at h
      · rename_i hc
        by_cases heq : i = offset
        · subst heq
          have hstart := (Bool.and_eq_true_iff.mp hc).2
          simpa [HereDocs.startsAt] using hstart
        · have hlow' : offset + 1 ≤ i := by omega
          exact ih hlow' (by omega)
      · omega

/-! ### What a step takes -/

/-- What the scan takes at the beginning of `c :: rest`: its class, if it is layout, and how
many characters follow the first. -/
def advance (docs : HereDocs) (offset : Int) (atLine : Bool) (c : Char) (rest : Text) :
    Option LeafClass × Nat :=
  match bodyLength? docs offset rest with
  | some n => (some .hereDocBody, n)
  | none => classify docs offset atLine c rest

/-- The piece of a stretch that is layout of some class, a `token`, or no layout. -/
def Piece.ofClass : Option LeafClass → Int → Text → Piece
  | some cls, offset, s => .token cls offset s
  | none, offset, s => .unclassified offset s

/-- What is noted in front of a piece at `offset`: a here-doc that ends before it starts. -/
def notesAt (docs : HereDocs) (offset : Int) : List Piece :=
  match docs.stop? offset with
  | some stop => if offset < stop then [] else [.backwardHereDoc offset stop]
  | none => []

theorem pieces_cons {offset : Int} {atLine : Bool} {c : Char} {rest : Text}
    {cls? : Option LeafClass} {n : Nat} (h : advance docs offset atLine c rest = (cls?, n)) :
    pieces docs offset atLine (c :: rest) =
      notesAt docs offset ++ Piece.ofClass cls? offset (c :: rest.take n) ::
        pieces docs (offset + (c :: rest.take n).length)
          ((c :: rest.take n).getLast? == some '\n') (rest.drop n) := by
  rw [pieces, notesAt]
  rw [advance] at h
  cases hbody : bodyLength? docs offset rest with
  | some k =>
      rw [hbody] at h
      obtain ⟨rfl, rfl⟩ := Prod.mk.inj h
      rfl
  | none =>
      rw [hbody] at h
      simp only [h]
      cases cls? <;> rfl

/-- A forward here-doc is taken by `advance` up to its end, or to the end of the text. -/
theorem advance_body {offset stop : Int} (hstop : docs.stop? offset = some stop)
    (h : offset < stop) (atLine : Bool) (c : Char) (rest : Text) :
    ∃ n, advance docs offset atLine c rest = (some .hereDocBody, n) ∧
      offset + (c :: rest.take n).length = min stop (offset + (c :: rest).length) := by
  refine ⟨min (stop - offset).toNat (rest.length + 1) - 1, ?_, ?_⟩
  · simp [advance, bodyLength?, hstop, h]
  · simp only [List.length_cons, List.length_take]
    omega

/-- What `advance` does not take for the body of a here-doc is classified by its characters. -/
theorem advance_of_ne_body {offset : Int} {atLine : Bool} {c : Char} {rest : Text}
    (h : (advance docs offset atLine c rest).1 ≠ some .hereDocBody) :
    bodyLength? docs offset rest = none ∧
      advance docs offset atLine c rest = classify docs offset atLine c rest := by
  rw [advance] at h ⊢
  cases hbody : bodyLength? docs offset rest with
  | none => exact ⟨rfl, rfl⟩
  | some n =>
      rw [hbody] at h
      exact absurd rfl h

/-- Whether a here-doc is taken, by `bodyLength?`, does not depend on what follows. -/
theorem bodyLength?_eq_none {offset : Int} {rest : Text} (rest' : Text)
    (h : bodyLength? docs offset rest = none) : bodyLength? docs offset rest' = none := by
  simp only [bodyLength?] at h ⊢
  cases hstop : docs.stop? offset with
  | none => rfl
  | some stop =>
      rw [hstop] at h
      by_cases hlt : offset < stop
      · simp [hlt] at h
      · simp [hlt]

/-- A stretch `s` of whitespace, or of text that is not layout: all of its characters are of one
kind, and no here-doc starts inside of it. -/
structure IsRun (docs : HereDocs) (kind : Char → Bool) (offset : Int) (s : Text) : Prop where
  /-- The characters are of the kind `kind`. -/
  kind : ∀ c ∈ s, kind c = true
  /-- No here-doc starts behind the first character, which stands at `offset`. -/
  clear : ∀ i, offset < i → i < offset + s.length → docs.stop? i = none

/-- The character `c` is neither whitespace nor the beginning of a comment. -/
def isOther (c : Char) : Bool := !Text.isSpace c && c != '#'

theorem isRun_cons {kind : Char → Bool} {offset : Int} {c : Char} {rest : Text}
    (hc : kind c = true) :
    IsRun docs kind offset (c :: rest.take (runLength docs kind (offset + 1) rest)) := by
  constructor
  · intro d hd
    rcases List.mem_cons.mp hd with rfl | hd
    · exact hc
    · exact forall_mem_take_runLength (offset + 1) rest d hd
  · intro i hlow hhigh
    have hle := runLength_le docs kind (offset + 1) rest
    rw [List.length_cons, List.length_take, Nat.min_eq_left hle] at hhigh
    have hlow' : offset + 1 ≤ i := by omega
    have hhigh' : i < offset + 1 + runLength docs kind (offset + 1) rest := by omega
    exact stop?_eq_none_of_runLength hlow' hhigh'

/-- Whitespace that `advance` takes is a run of whitespace. -/
theorem advance_space {offset : Int} {atLine : Bool} {c : Char} {rest : Text} {n : Nat}
    (h : advance docs offset atLine c rest = (some .ws, n)) :
    IsRun docs Text.isSpace offset (c :: rest.take n) := by
  have hne : (advance docs offset atLine c rest).1 ≠ some .hereDocBody := by simp [h]
  obtain ⟨-, hclass⟩ := advance_of_ne_body hne
  rw [hclass, classify] at h
  split at h
  · rename_i hc
    obtain ⟨-, rfl⟩ := Prod.mk.inj h
    exact isRun_cons hc
  · split at h
    · exact nomatch h
    · split at h
      · exact nomatch h
      · exact nomatch h

/-- What `advance` takes as no layout: a run without whitespace and comments, that opens no
documentation block. -/
theorem advance_other {offset : Int} {atLine : Bool} {c : Char} {rest : Text} {n : Nat}
    (h : advance docs offset atLine c rest = (none, n)) :
    bodyLength? docs offset rest = none ∧ isOther c = true ∧
      ¬(c == '=' && atLine && opensPod rest) = true ∧
      n = runLength docs isOther (offset + 1) rest := by
  have hne : (advance docs offset atLine c rest).1 ≠ some .hereDocBody := by simp [h]
  obtain ⟨hbody, hclass⟩ := advance_of_ne_body hne
  rw [hclass, classify] at h
  split at h
  · exact nomatch h
  · rename_i hspace
    split at h
    · exact nomatch h
    · rename_i hcomment
      split at h
      · exact nomatch h
      · rename_i hpod
        refine ⟨hbody, ?_, hpod, (Prod.mk.inj h).2.symm⟩
        simpa [isOther, hspace] using hcomment

theorem isRun_of_advance {offset : Int} {atLine : Bool} {c : Char} {rest : Text} {n : Nat}
    (h : advance docs offset atLine c rest = (none, n)) :
    IsRun docs isOther offset (c :: rest.take n) := by
  obtain ⟨-, hc, -, rfl⟩ := advance_other h
  exact isRun_cons hc

/-! ### Reading step by step -/

/-- The stretch that an event reports as no layout, by `gapSkipped`. -/
def unclassified? : Event → Option (Int × Text)
  | .gapSkipped (.unclassified s offset) => some (offset, s)
  | _ => none

/-- The stretches that the reading `r` reports as no layout. -/
def Reading.reported (r : Reading) : List (Int × Text) := r.events.filterMap unclassified?

/-- Notes in front of a piece, by `notesAt`, change neither tokens nor faults nor reports. -/
theorem read_notesAt (docs : HereDocs) (strict : Bool) (offset : Int) (ps : List Piece) :
    (read strict (notesAt docs offset ++ ps)).tokens = (read strict ps).tokens ∧
      (read strict (notesAt docs offset ++ ps)).fault? = (read strict ps).fault? ∧
      (read strict (notesAt docs offset ++ ps)).reported = (read strict ps).reported := by
  rw [notesAt]
  split
  · split
    · exact ⟨rfl, rfl, rfl⟩
    · exact ⟨rfl, rfl, List.filterMap_cons_none rfl⟩
  · exact ⟨rfl, rfl, rfl⟩

/-- The scan of `tail` behind the stretch `taken`, which stands at `i`. -/
def scanBehind (docs : HereDocs) (strict : Bool) (i : Nat) (taken tail : Text) : Reading :=
  scan docs strict ((i + taken.length : Nat) : Int) (taken.getLast? == some '\n') tail

variable {i n : Nat} {atLine : Bool} {c : Char} {rest : Text}

/-- Layout that `advance` takes in front becomes a token. -/
theorem scan_cons_token {cls : LeafClass} (strict : Bool)
    (h : advance docs i atLine c rest = (some cls, n)) :
    (scan docs strict i atLine (c :: rest)).fault? =
        (scanBehind docs strict i (c :: rest.take n) (rest.drop n)).fault? ∧
      (scan docs strict i atLine (c :: rest)).reported =
        (scanBehind docs strict i (c :: rest.take n) (rest.drop n)).reported ∧
      ((scanBehind docs strict i (c :: rest.take n) (rest.drop n)).fault? = none →
        (scan docs strict i atLine (c :: rest)).tokens =
          Leaf.found cls i (c :: rest.take n) none ::
            (scanBehind docs strict i (c :: rest.take n) (rest.drop n)).tokens) := by
  rw [scan, pieces_cons h, scanBehind, Int.natCast_add]
  obtain ⟨htokens, hfault, hreported⟩ := read_notesAt docs strict i
    (Piece.ofClass (some cls) i (c :: rest.take n) ::
      pieces docs (i + (c :: rest.take n).length) ((c :: rest.take n).getLast? == some '\n')
        (rest.drop n))
  rw [htokens, hfault, hreported, Piece.ofClass, read, Leaf.placed_natCast]
  exact ⟨rfl, rfl, Reading.cons_tokens⟩

/-- What `advance` takes as no layout is reported and skipped by a lenient scan. -/
theorem scan_cons_other (h : advance docs i atLine c rest = (none, n)) :
    (scan docs false i atLine (c :: rest)).fault? =
        (scanBehind docs false i (c :: rest.take n) (rest.drop n)).fault? ∧
      (scan docs false i atLine (c :: rest)).reported =
        ((i : Int), c :: rest.take n) ::
          (scanBehind docs false i (c :: rest.take n) (rest.drop n)).reported ∧
      (scan docs false i atLine (c :: rest)).tokens =
        (scanBehind docs false i (c :: rest.take n) (rest.drop n)).tokens := by
  rw [scan, pieces_cons h, scanBehind, Int.natCast_add]
  obtain ⟨htokens, hfault, hreported⟩ := read_notesAt docs false i
    (Piece.ofClass none i (c :: rest.take n) ::
      pieces docs (i + (c :: rest.take n).length) ((c :: rest.take n).getLast? == some '\n')
        (rest.drop n))
  rw [htokens, hfault, hreported, Piece.ofClass, read]
  exact ⟨rfl, rfl, rfl⟩

/-- A strict scan stops at what `advance` takes as no layout. -/
theorem strict_scan_cons_other (h : advance docs i atLine c rest = (none, n)) :
    (scan docs true i atLine (c :: rest)).fault? =
      some (.gap (.unclassified (c :: rest.take n) i)) := by
  rw [scan, pieces_cons h, (read_notesAt _ _ _ _).2.1, Piece.ofClass, read]
  rfl

/-- Induction along the steps of a scan: the empty text, and a step by `advance` with what is behind
it. -/
theorem scanRec {motive : Nat → Bool → Text → Prop} (docs : HereDocs)
    (nil : ∀ i atLine, motive i atLine [])
    (cons : ∀ (i : Nat) atLine c rest cls? n, advance docs i atLine c rest = (cls?, n) →
      motive (i + (c :: rest.take n).length) ((c :: rest.take n).getLast? == some '\n')
        (rest.drop n) → motive i atLine (c :: rest))
    (i : Nat) (atLine : Bool) (text : Text) : motive i atLine text := by
  induction hlength : text.length using Nat.strongRecOn generalizing i atLine text with
  | _ k ih =>
      subst hlength
      cases text with
      | nil => exact nil i atLine
      | cons c rest =>
          have hshort : (rest.drop (advance docs i atLine c rest).2).length <
              (c :: rest).length := by
            simp only [List.length_drop, List.length_cons]
            omega
          exact cons i atLine c rest _ _ rfl (ih _ hshort _ _ _ rfl)

/-- A lenient `scan` goes through. -/
theorem scan_fault?_eq_none (docs : HereDocs) (i : Nat) (atLine : Bool) (text : Text) :
    (scan docs false i atLine text).fault? = none := by
  induction i, atLine, text using scanRec docs with
  | nil i atLine => rw [scan_nil]
  | cons i atLine c rest cls? n h ih =>
      cases cls? with
      | none => rw [(scan_cons_other h).1, scanBehind, ih]
      | some cls => rw [(scan_cons_token false h).1, scanBehind, ih]

end RakuTree.Layout
