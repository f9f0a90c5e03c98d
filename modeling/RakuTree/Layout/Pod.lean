import RakuTree.Text.Basic

/-!
# RakuTree.Layout.Pod

Where a documentation block ends. A block opens with `=` and a letter at the start
of a line:

* `=begin NAME` runs to the end of the line that says `=end NAME`;
* `=finish` and `=END` take the rest of the text;
* any other block ends before the first blank line.
-/

namespace RakuTree.Layout

open Text (isWord isBlank)

/-- Does a documentation block open where `=` is followed by `rest`? -/
def opensPod (rest : Text) : Bool := rest.head?.any Char.isAlpha

/-- Is there a word boundary between `before` and the beginning of `rest`? -/
def wordBoundary (before : Char) (rest : Text) : Bool := isWord before != rest.head?.any isWord

/-- What follows `word` and at least one blank at the beginning of `rest`, with the
number of characters passed over. -/
def afterDirective? (word rest : Text) : Option (Nat × Text) :=
  if word.isPrefixOf rest then
    let tail := rest.drop word.length
    let blanks := (tail.takeWhile isBlank).length
    if blanks = 0 then none else some (word.length + blanks, tail.drop blanks)
  else none

/-- A character of a block name, as in `=begin NAME`. -/
def isPodNameChar (c : Char) : Bool := isWord c || c == ':' || c == '-'

/-- Length of the line `=end NAME` at the beginning of `rest`, if it is one. The
name may not run on. -/
def podEndLine? (name rest : Text) : Option Nat :=
  let indent := (rest.takeWhile isBlank).length
  match afterDirective? ['=', 'e', 'n', 'd'] (rest.drop indent) with
  | none => none
  | some (n, tail) =>
    let behind := tail.drop name.length
    if name.isPrefixOf tail && name.getLast?.any fun c => wordBoundary c behind then
      some (indent + n + name.length + (behind.takeWhile (· != '\n')).length)
    else none

/-- Length of `rest` up to and including the first line `=end NAME`; all of it when
there is none. `atLine` says whether `rest` begins a line. -/
def podBlockLength (name : Text) (atLine : Bool) : Text → Nat
  | [] => 0
  | c :: cs =>
    match if atLine then podEndLine? name (c :: cs) else none with
    | some n => n
    | none => podBlockLength name (c == '\n') cs + 1

/-- Is the line at the beginning of `rest` blank? -/
def blankLine (rest : Text) : Bool :=
  match rest.dropWhile isBlank with
  | [] => true
  | c :: _ => c == '\n'

/-- Length of `rest` up to the line end before the first blank line. -/
def paragraphLength : Text → Nat
  | [] => 0
  | c :: cs => if c == '\n' && blankLine cs then 0 else paragraphLength cs + 1

/-- Does `word` stand at the beginning of `rest` and end there? -/
def standsAt (word rest : Text) : Bool :=
  word.isPrefixOf rest && word.getLast?.any fun c => wordBoundary c (rest.drop word.length)

/-- Length of the documentation block at the beginning of a text whose first
character is the `=` and whose other characters are `rest`. -/
def podLength (rest : Text) : Nat :=
  let begin? := (afterDirective? ['b', 'e', 'g', 'i', 'n'] rest).bind fun (n, tail) =>
    let name := tail.takeWhile isPodNameChar
    if name.isEmpty then none else some (n + name.length, name)
  match begin? with
  | some (n, name) => 1 + n + podBlockLength name false (rest.drop n)
  | none =>
    if standsAt ['f', 'i', 'n', 'i', 's', 'h'] rest || standsAt ['E', 'N', 'D'] rest then
      1 + rest.length
    else 1 + paragraphLength rest

end RakuTree.Layout
