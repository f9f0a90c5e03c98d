import RakuTree.Proofs.Scan.Step

/-!
# RakuTree.Proofs.Scan.Partition

The layout scan partitions its text.

A lenient scan hands out tokens and reports, on two lists. Put back in the order of the text
they make up one row of `Finding`s that abut from one end of the text to the other, and each
of them is `Sound`: it holds the text at its range, it is of one kind throughout where it is
whitespace or no layout, and no here-doc is passed over. The row is built along the steps of
the scan (`exists_findings`). A strict scan takes the same steps up to the first report.
-/

namespace RakuTree

theorem Text.slice_append_right (s t : Text) {a b : Int} (ha : 0 ≤ a) (hb : 0 ≤ b) :
    Text.slice (s ++ t) (s.length + a) (s.length + b) = Text.slice t a b := by
  obtain ⟨i, rfl⟩ := Int.eq_ofNat_of_zero_le ha
  obtain ⟨j, rfl⟩ := Int.eq_ofNat_of_zero_le hb
  simp only [← Int.natCast_add, slice, place_natCast]
  rw [List.take_append, List.drop_append]
  simp

namespace Layout

/-- What a lenient reading says about a stretch of its text: a token, or a report of
`Reading.reported`. -/
inductive Finding
  /-- The stretch is layout, the token `l`. -/
  | token (l : Leaf)
  /-- The stretch is reported as no layout: `text` at `offset`. -/
  | unclassified (offset : Int) (text : Text)

namespace Finding

/-- Where the stretch starts. -/
def start : Finding → Int
  | token l => l.span.start
  | unclassified i _ => i

/-- Where the stretch ends. -/
def stop : Finding → Int
  | token l => l.span.stop
  | unclassified i s => i + s.length

/-- The text of the stretch. -/
def text : Finding → Text
  | token l => l.content
  | unclassified _ s => s

/-- The token, if it is a `token`. -/
def token? : Finding → Option Leaf
  | token l => some l
  | unclassified _ _ => none

/-- The report, if it is `unclassified`. -/
def report? : Finding → Option (Int × Text)
  | token _ => none
  | unclassified i s => some (i, s)

/-- The kind of all its characters, where the stretch is of one kind: whitespace, or neither
whitespace nor `#`. -/
def kind? : Finding → Option (Char → Bool)
  | token l => if l.cls = .ws then some Text.isSpace else none
  | unclassified _ _ => some isOther

/-- A stretch as it should be found in `text`, which stands at `offset`. -/
structure Sound (docs : HereDocs) (offset : Int) (text : Text) (x : Finding) : Prop where
  /-- The stretch is not empty. -/
  wide : x.start < x.stop
  /-- The stretch holds what stands at its range in `text`. -/
  content : Text.slice text (x.start - offset) (x.stop - offset) = x.text
  /-- Whitespace is whitespace throughout, what is no layout holds neither whitespace nor `#`,
  and no here-doc starts inside either of them. -/
  run : ∀ kind ∈ x.kind?, IsRun docs kind x.start x.text
  /-- Where a forward here-doc starts, it is a `hereDocBody`, up to its end or the end of the text.
  -/
  body : ∀ stop, docs.stop? x.start = some stop → x.start < stop →
    ∃ l, x = token l ∧ l.cls = .hereDocBody ∧ l.span.stop = min stop (offset + text.length)

end Finding

open Finding

variable {docs : HereDocs}

/-- What is `Sound` in `tail` is `Sound` with more text, `taken`, in front. -/
theorem Finding.Sound.behind {i : Nat} {taken tail : Text} {x : Finding}
    (h : x.Sound docs ((i + taken.length : Nat) : Int) tail)
    (hx : ((i + taken.length : Nat) : Int) ≤ x.start) : x.Sound docs i (taken ++ tail) where
  wide := h.wide
  content := by
    have hwide := h.wide
    have hslice := Text.slice_append_right taken tail
      (a := x.start - (i + taken.length : Nat)) (b := x.stop - (i + taken.length : Nat))
      (by omega) (by omega)
    have hstart : x.start - i = taken.length + (x.start - (i + taken.length : Nat)) := by omega
    have hstop : x.stop - i = taken.length + (x.stop - (i + taken.length : Nat)) := by omega
    rw [hstart, hstop, hslice, h.content]
  run := h.run
  body := by
    intro stop hstop hlt
    obtain ⟨l, rfl, hcls, hend⟩ := h.body stop hstop hlt
    refine ⟨l, rfl, hcls, ?_⟩
    rw [hend, List.length_append]
    omega

/-- What a step of class `cls?` finds at `i`: the text `s` as layout, or as none. -/
def Finding.ofClass (cls? : Option LeafClass) (i : Nat) (s : Text) : Finding :=
  match cls? with
  | some cls => token (Leaf.found cls i s none)
  | none => unclassified i s

theorem Finding.start_ofClass (cls? : Option LeafClass) (i : Nat) (s : Text) :
    (ofClass cls? i s).start = i := by
  cases cls? <;> rfl

theorem Finding.stop_ofClass (cls? : Option LeafClass) (i : Nat) (s : Text) :
    (ofClass cls? i s).stop = i + s.length := by
  cases cls? <;> rfl

theorem Finding.text_ofClass (cls? : Option LeafClass) (i : Nat) (s : Text) :
    (ofClass cls? i s).text = s := by
  cases cls? <;> rfl

/-- What a step by `advance` finds is `Sound`. -/
theorem Finding.sound_ofClass {i n : Nat} {atLine : Bool} {c : Char} {rest : Text}
    {cls? : Option LeafClass} (h : advance docs i atLine c rest = (cls?, n)) :
    (ofClass cls? i (c :: rest.take n)).Sound docs i (c :: rest) where
  wide := by
    rw [start_ofClass, stop_ofClass, List.length_cons]
    omega
  content := by
    have hstands : Text.StandsAt (c :: rest) 0 (c :: rest.take n) :=
      List.cons_prefix_cons.mpr ⟨rfl, List.take_prefix n rest⟩
    have hwidth : (i : Int) + (c :: rest.take n).length - i =
        ((0 : Nat) : Int) + (c :: rest.take n).length := by omega
    rw [start_ofClass, stop_ofClass, text_ofClass, Int.sub_self, hwidth]
    exact hstands.slice_eq
  run := by
    intro kind hkind
    rw [start_ofClass, text_ofClass]
    cases cls? with
    | none =>
        obtain rfl : isOther = kind := Option.some.inj hkind
        exact isRun_of_advance h
    | some cls =>
        by_cases hcls : cls = .ws
        · subst hcls
          obtain rfl : Text.isSpace = kind := by simpa [ofClass, kind?, Leaf.found] using hkind
          exact advance_space h
        · simp [ofClass, kind?, Leaf.found, hcls] at hkind
  body := by
    intro stop hstop hlt
    rw [start_ofClass] at hstop hlt
    obtain ⟨k, hbody, hend⟩ := advance_body hstop hlt atLine c rest
    obtain ⟨rfl, rfl⟩ := Prod.mk.inj (h.symm.trans hbody)
    exact ⟨_, rfl, rfl, hend⟩

/-- The findings of a lenient scan, in the order of the text: they are `Sound` and abut. -/
theorem exists_findings (docs : HereDocs) (i : Nat) (atLine : Bool) (text : Text) :
    ∃ found : List Finding,
      found.filterMap token? = (scan docs false i atLine text).tokens ∧
      found.filterMap report? = (scan docs false i atLine text).reported ∧
      Abut Finding.start Finding.stop i found (i + text.length) ∧
      ∀ x ∈ found, x.Sound docs i text := by
  induction i, atLine, text using scanRec docs with
  | nil i atLine =>
      refine ⟨[], ?_, ?_, ?_, ?_⟩
      · simp [scan_nil]
      · simp [scan_nil, Reading.reported]
      · simp [Abut]
      · simp
  | cons i atLine c rest cls? n h ih =>
      obtain ⟨found, htokens, hreported, habut, hsound⟩ := ih
      have htext : (c :: rest.take n) ++ rest.drop n = c :: rest := by simp
      refine ⟨ofClass cls? i (c :: rest.take n) :: found, ?_, ?_, ⟨start_ofClass _ _ _, ?_⟩, ?_⟩
      · cases cls? with
        | none => rw [(scan_cons_other h).2.2, scanBehind, ← htokens]; rfl
        | some cls =>
            have hnone := scan_fault?_eq_none docs (i + (c :: rest.take n).length)
              ((c :: rest.take n).getLast? == some '\n') (rest.drop n)
            rw [(scan_cons_token false h).2.2 hnone, scanBehind, ← htokens]
            rfl
      · cases cls? with
        | none => rw [(scan_cons_other h).2.1, scanBehind, ← hreported]; rfl
        | some cls => rw [(scan_cons_token false h).2.1, scanBehind, ← hreported]; rfl
      · rw [stop_ofClass]
        have hend : ((i + (c :: rest.take n).length : Nat) : Int) + (rest.drop n).length =
            i + (c :: rest).length := by
          rw [← htext, List.length_append]
          omega
        rw [hend] at habut
        simpa using habut
      · have hordered : ∀ x ∈ found, x.start ≤ x.stop := fun x hx => Int.le_of_lt (hsound x hx).wide
        intro x hx
        rcases List.mem_cons.mp hx with rfl | hx
        · exact sound_ofClass h
        · rw [← htext]
          exact (hsound x hx).behind (habut.le_start hordered x hx)

/-- A strict scan takes the same steps as a lenient one, up to the first stretch that is `reported`
as no layout. -/
theorem strict_scan (docs : HereDocs) (i : Nat) (atLine : Bool) (text : Text) :
    ((scan docs false i atLine text).reported = [] →
      (scan docs true i atLine text).fault? = none ∧
        (scan docs true i atLine text).tokens = (scan docs false i atLine text).tokens) ∧
    (∀ x ∈ (scan docs false i atLine text).reported.head?,
      (scan docs true i atLine text).fault? = some (.gap (.unclassified x.2 x.1))) := by
  induction i, atLine, text using scanRec docs with
  | nil i atLine => simp [scan_nil, Reading.reported]
  | cons i atLine c rest cls? n h ih =>
      cases cls? with
      | none =>
          rw [(scan_cons_other h).2.1, strict_scan_cons_other h]
          simp
      | some cls =>
          obtain ⟨hfault, hreported, htokens⟩ := scan_cons_token true h
          obtain ⟨hfault', hreported', htokens'⟩ := scan_cons_token false h
          have hnone := scan_fault?_eq_none docs (i + (c :: rest.take n).length)
            ((c :: rest.take n).getLast? == some '\n') (rest.drop n)
          rw [hreported', hfault]
          constructor
          · intro hempty
            obtain ⟨hnext, hsame⟩ := ih.1 hempty
            refine ⟨hnext, ?_⟩
            rw [htokens hnext, htokens' hnone, scanBehind, scanBehind, hsame]
          · exact ih.2

/-- Findings that are not empty and abut come one behind the other, by `start` and `stop`. -/
theorem pairwise_of_abut {a b : Int} {found : List Finding}
    (h : Abut Finding.start Finding.stop a found b) (hwide : ∀ x ∈ found, x.start < x.stop) :
    found.Pairwise fun x y => x.stop ≤ y.start := by
  induction found generalizing a with
  | nil => exact .nil
  | cons x found ih =>
      obtain ⟨-, hrest⟩ := List.forall_mem_cons.mp hwide
      have hordered : ∀ y ∈ found, y.start ≤ y.stop := fun y hy => Int.le_of_lt (hrest y hy)
      exact .cons (h.2.le_start hordered) (ih h.2 hrest)

/-- **The scan partitions its text.** A lenient scan goes through. Its tokens and the stretches
it reports as no layout, in the order of the text, follow one another without gap or overlap
from the first to the last character, and are sound. A strict scan comes to the same tokens
when nothing is reported, and stops for the sake of the first report otherwise. -/
theorem scan_partitions_text (docs : HereDocs) {offset : Int} (h0 : 0 ≤ offset) (atLine : Bool)
    (text : Text) :
    (scan docs false offset atLine text).fault? = none ∧
    (∃ found : List Finding,
      found.filterMap token? = (scan docs false offset atLine text).tokens ∧
      found.filterMap report? = (scan docs false offset atLine text).reported ∧
      Abut Finding.start Finding.stop offset found (offset + text.length) ∧
      found.Pairwise (fun x y => x.stop ≤ y.start) ∧
      ∀ x ∈ found, x.Sound docs offset text) ∧
    ((scan docs false offset atLine text).reported = [] →
      (scan docs true offset atLine text).fault? = none ∧
        (scan docs true offset atLine text).tokens = (scan docs false offset atLine text).tokens) ∧
    (∀ x ∈ (scan docs false offset atLine text).reported.head?,
      (scan docs true offset atLine text).fault? = some (.gap (.unclassified x.2 x.1))) := by
  obtain ⟨i, rfl⟩ := Int.eq_ofNat_of_zero_le h0
  obtain ⟨found, htokens, hreported, habut, hsound⟩ := exists_findings docs i atLine text
  have hordered := pairwise_of_abut habut fun x hx => (hsound x hx).wide
  exact ⟨scan_fault?_eq_none docs i atLine text,
    ⟨found, htokens, hreported, habut, hordered, hsound⟩, strict_scan docs i atLine text⟩

/-- Two here-docs in a text at offset 3: one at `4` that ends before it starts, and one at `7` that
ends behind the text. -/
def sampleDocs : HereDocs := ⟨[(4, 0), (7, 100)]⟩

theorem sample_partitions_text :
    (scan sampleDocs false 3 true " ab\nxy".toList).tokens =
      [Leaf.found .ws 3 [' '] none, Leaf.found .ws 6 ['\n'] none,
        Leaf.found .hereDocBody 7 ['x', 'y'] none] ∧
    (scan sampleDocs false 3 true " ab\nxy".toList).reported = [(4, ['a', 'b'])] ∧
    (scan sampleDocs true 3 true " ab\nxy".toList).fault? =
      some (.gap (.unclassified ['a', 'b'] 4)) ∧
    ∃ found : List Finding,
      found.filterMap token? = (scan sampleDocs false 3 true " ab\nxy".toList).tokens ∧
      found.filterMap report? = (scan sampleDocs false 3 true " ab\nxy".toList).reported ∧
      Abut Finding.start Finding.stop 3 found 9 ∧
      found.Pairwise (fun x y => x.stop ≤ y.start) ∧
      ∀ x ∈ found, x.Sound sampleDocs 3 " ab\nxy".toList := by
  obtain ⟨-, hfound, -, hstrict⟩ :=
    scan_partitions_text sampleDocs (show (0 : Int) ≤ 3 by decide) true " ab\nxy".toList
  have hreported : (scan sampleDocs false 3 true " ab\nxy".toList).reported =
      [(4, ['a', 'b'])] := by
    decide +kernel
  rw [hreported] at hstrict
  exact ⟨by decide +kernel, hreported, hstrict _ rfl, hfound⟩

end Layout

end RakuTree
