import RakuTree.Text.Basic

/-!
# RakuTree.Text.Quoted

How a message shows a piece of source text: between quotes, with everything that
cannot be shown escaped. Single quotes are used unless the text has a single and
no double quote, so the fewest characters need a backslash.
-/

namespace RakuTree.Text

/-- Lower-case hexadecimal digits of `n`, padded with zeros to `width`. -/
def hex (width n : Nat) : List Char :=
  let digits := Nat.toDigits 16 n
  List.replicate (width - digits.length) '0' ++ digits

/-- One character as shown between quotes of the kind `mark`. -/
def escape (mark c : Char) : List Char :=
  if c == mark || c == '\\' then ['\\', c]
  else if c == '\n' then ['\\', 'n']
  else if c == '\r' then ['\\', 'r']
  else if c == '\t' then ['\\', 't']
  else if isPrintable c then [c]
  else if c.toNat ≤ 0xff then '\\' :: 'x' :: hex 2 c.toNat
  else if c.toNat ≤ 0xffff then '\\' :: 'u' :: hex 4 c.toNat
  else '\\' :: 'U' :: hex 8 c.toNat

/-- The quote mark that `quoted` puts around a text: a double one if that saves escapes. -/
def quoteMark (s : Text) : Char := if s.contains '\'' && !s.contains '"' then '"' else '\''

/-- A text as a message shows it, in quote marks and with escapes. -/
def quoted (s : Text) : String :=
  let mark := quoteMark s
  String.ofList (mark :: s.flatMap (escape mark) ++ [mark])

/-- A list of words as a message shows it, each `quoted`. -/
def quotedList (words : List String) : String :=
  "[" ++ ", ".intercalate (words.map fun w => quoted w.toList) ++ "]"

end RakuTree.Text
