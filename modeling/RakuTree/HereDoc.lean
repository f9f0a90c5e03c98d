import RakuTree.Text.Basic

/-!
# RakuTree.HereDoc

Here-docs: quotes whose text stands on the lines below them, up to a line that
holds nothing but the terminator.

* `HereDocs` records where bodies start and where their terminator lines end. The
  layout scan reads it to keep bodies in one piece.
* `Ledger` adds the end of the last terminator line. Several here-docs may open on
  one line; each takes the lines behind the body of the one before it.
-/

namespace RakuTree

/-! ### Recorded bodies -/

/-- Bodies of here-docs: the start of each body with the end of its terminator line. -/
structure HereDocs where
  /-- The bodies, in the order they were recorded by `record`. -/
  entries : List (Int × Int) := []
  deriving Repr, DecidableEq

namespace HereDocs

/-- Where the body that starts at `i` ends, if one starts there. -/
def stop? (d : HereDocs) (i : Int) : Option Int := d.entries.lookup i

/-- Does a body start at `i`? -/
def startsAt (d : HereDocs) (i : Int) : Bool := (d.stop? i).isSome

/-- The list with the body from `start` to `stop`. An entry with that start keeps its place and gets
the new end. -/
def recordIn (start stop : Int) : List (Int × Int) → List (Int × Int)
  | [] => [(start, stop)]
  | e :: es => if e.1 = start then (start, stop) :: es else e :: recordIn start stop es

/-- The bodies with the one from `start` to `stop`, by `recordIn`. -/
def record (d : HereDocs) (start stop : Int) : HereDocs := ⟨recordIn start stop d.entries⟩

/-- The bodies in `entries`, the last entry for a start being the one that counts. -/
def ofList (entries : List (Int × Int)) : HereDocs :=
  entries.foldl (fun d e => d.record e.1 e.2) {}

@[simp] theorem stop?_record_self (d : HereDocs) (start stop : Int) :
    (d.record start stop).stop? start = some stop := by
  simp only [record, stop?]
  induction d.entries with
  | nil => simp [recordIn]
  | cons e es ih =>
    by_cases h : e.1 = start
    · simp [recordIn, h]
    · obtain ⟨a, b⟩ := e
      have h' : (start == a) = false := beq_false_of_ne fun g => h g.symm
      simpa [recordIn, h, List.lookup_cons, h'] using ih

theorem stop?_record_of_ne (d : HereDocs) {start i : Int} (stop : Int) (hi : i ≠ start) :
    (d.record start stop).stop? i = d.stop? i := by
  simp only [record, stop?]
  induction d.entries with
  | nil => simp [recordIn, List.lookup_cons, beq_false_of_ne hi]
  | cons e es ih =>
    by_cases h : e.1 = start
    · obtain ⟨a, b⟩ := e
      simp only at h
      subst h
      simp [recordIn, List.lookup_cons, beq_false_of_ne hi]
    · obtain ⟨a, b⟩ := e
      simp only at h
      simp only [recordIn, h, if_false, List.lookup_cons]
      split
      · rfl
      · exact ih

end HereDocs

/-! ### Finding a body -/

/-- Why the body of a here-doc cannot be found (`HereDocBody.locate`). -/
inductive HereDocError
  /-- The quote names no terminator: it is empty. -/
  | noTerminator
  /-- The quote stands on the last line, and no line is left for a body. -/
  | noBody
  /-- No line behind the quote holds `terminator` alone. -/
  | unterminated (terminator : Text)
  deriving Repr, DecidableEq

/-- The body of a here-doc, as `locate` finds it. -/
structure HereDocBody where
  /-- Where the body starts: at the start of a line. -/
  start : Nat
  /-- Where the terminator line starts, and the `lines` end. -/
  lineStart : Nat
  /-- Where the terminator line ends, without its line break. -/
  stop : Nat
  deriving Repr, DecidableEq

namespace HereDocBody

/-- Length of the terminator line at the beginning of `rest`, if there is one:
blanks, the terminator, blanks, and then the end of the line or of the text. -/
def terminatorLine? (terminator rest : Text) : Option Nat :=
  let indent := (rest.takeWhile Text.isBlank).length
  let word := rest.drop indent
  if terminator.isPrefixOf word then
    let tail := word.drop terminator.length
    let trailing := (tail.takeWhile Text.isBlank).length
    match tail.drop trailing with
    | [] => some (indent + terminator.length + trailing)
    | c :: _ => if c == '\n' then some (indent + terminator.length + trailing) else none
  else none

/-- Offset and length of the first terminator line. `atLine` says whether `rest`
begins a line. -/
def findLine? (terminator : Text) (atLine : Bool) : Text → Option (Nat × Nat)
  | [] => none
  | c :: cs =>
    match if atLine then terminatorLine? terminator (c :: cs) else none with
    | some n => some (0, n)
    | none => (findLine? terminator (c == '\n') cs).map fun found => (found.1 + 1, found.2)

/-- The body that a here-doc takes when it may not start before the line behind
offset `i`. -/
def locate (src : Text) (i : Int) (terminator : Text) : Except HereDocError HereDocBody :=
  if terminator.isEmpty then .error .noTerminator
  else
    match Text.find? src ['\n'] i src.length with
    | none => .error .noBody
    | some lineEnd =>
      let start := lineEnd + 1
      match findLine? terminator true (src.drop start) with
      | none => .error (.unterminated terminator)
      | some (k, n) => .ok ⟨start, start + k, start + k + n⟩

/-- The lines of `b`, without the terminator line. -/
def lines (src : Text) (b : HereDocBody) : Text := Text.slice src b.start b.lineStart

end HereDocBody

/-! ### The ledger -/

/-- The here-docs of one source, as far as they were claimed by `Ledger.claim`. -/
structure Ledger where
  /-- The bodies found so far, by `claim`. -/
  hereDocs : HereDocs := {}
  /-- Where the last terminator line ends; the next body starts behind it. -/
  tail : Nat := 0
  deriving Repr, DecidableEq

/-- Gives a here-doc whose quote ends at `quoteEnd` the next free body. -/
def Ledger.claim (l : Ledger) (src : Text) (quoteEnd : Int) (terminator : Text) :
    Except HereDocError (Text × Ledger) :=
  (HereDocBody.locate src (max quoteEnd l.tail) terminator).map fun body =>
    (body.lines src, { hereDocs := l.hereDocs.record body.start body.stop, tail := body.stop })

end RakuTree
