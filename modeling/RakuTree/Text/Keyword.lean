import RakuTree.Text.Basic

/-!
# RakuTree.Text.Keyword

Words that stand alone. A keyword of the language may also occur inside a longer
name (`else` in `or-else`), so a word only counts where no name character touches
it. The look to the left sees the whole text, the look to the right ends with the
window that is searched.
-/

namespace RakuTree.Text.Keyword

/-- May a word begin behind `before`? -/
def opensAfter (before : Option Char) : Bool := !before.any isNameChar

/-- May a word end in front of `rest`? -/
def closesBefore (rest : Text) : Bool := !rest.head?.any isNameChar

/-- The first of `words` that begins `rest` and ends there. -/
def wordAt? (words : List Text) (rest : Text) : Option Text :=
  words.find? fun w => w.isPrefixOf rest && closesBefore (rest.drop w.length)

/-- The leftmost place in `rest` where one of `words` stands alone, with that
word; `before` is the character in front of `rest`. -/
def search? (words : List Text) (before : Option Char) : Text → Option (Nat × Text)
  | [] => if opensAfter before then (wordAt? words []).map (0, ·) else none
  | c :: cs =>
    match if opensAfter before then wordAt? words (c :: cs) else none with
    | some w => some (0, w)
    | none => (search? words (some c) cs).map fun found => (found.1 + 1, found.2)

/-- The leftmost place between `start` and `stop` where one of `words` stands
alone, with that word. No words at all stand for the empty word. -/
def find? (words : List Text) (s : Text) (start stop : Int) : Option (Nat × Text) :=
  let lo := min start.toNat s.length
  let hi := min stop.toNat s.length
  let before := if lo = 0 then none else s[lo - 1]?
  if lo ≤ hi then
    (search? (if words.isEmpty then [[]] else words) before ((s.take hi).drop lo)).map
      fun found => (lo + found.1, found.2)
  else none

/-- How a message names the search for `words`. -/
def display (words : List Text) : Text :=
  "(?<![\\w-])(?:".toList ++ List.intercalate ['|'] words ++ ")(?![\\w-])".toList

end RakuTree.Text.Keyword
