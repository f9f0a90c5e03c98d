import RakuTree.Taxonomy

/-!
# RakuTree.Layout.Comment

Where a comment ends. A `#` comments out the rest of its line, unless a backtick
and an opening bracket follow: then the comment is embedded and runs to the
matching bracket. A run of one ASCII bracket counts as one delimiter, closed by a
run of the same length, and delimiters nest.
-/

namespace RakuTree.Layout

/-- Brackets that open an embedded comment in runs. -/
def runOpeners : List Char := ['(', '[', '\x7b', '<']

/-- Brackets that open an embedded comment one at a time. -/
def singleOpeners : List Char := ['«', '｢']

/-- The bracket that closes an embedded comment opened by `o`. -/
def closingBracket (o : Char) : Char := ((closerFor [o]).head?).getD o

/-- The opening delimiter of an embedded comment, when `rest` follows the `#`: a
bracket and how many of it follow the first. -/
def embeddedOpener? : Text → Option (Char × Nat)
  | b :: o :: rest =>
    if b == '\x60' then
      if runOpeners.contains o then some (o, (rest.takeWhile (· == o)).length)
      else if singleOpeners.contains o then some (o, 0)
      else none
    else none
  | _ => none

/-- How many characters of `rest` belong to an embedded comment with `depth + 1`
delimiters open. Delimiters are runs of `extra + 1` brackets `o` and `c`. A closing
delimiter is looked for first, so brackets that close themselves do not nest. -/
def embeddedLength (o c : Char) (extra depth : Nat) (rest : Text) : Nat :=
  match rest with
  | [] => 0
  | x :: xs =>
    if (List.replicate (extra + 1) c).isPrefixOf (x :: xs) then
      match depth with
      | 0 => extra + 1
      | d + 1 => extra + 1 + embeddedLength o c extra d ((x :: xs).drop (extra + 1))
    else if (List.replicate (extra + 1) o).isPrefixOf (x :: xs) then
      extra + 1 + embeddedLength o c extra (depth + 1) ((x :: xs).drop (extra + 1))
    else 1 + embeddedLength o c extra depth xs
termination_by rest.length
decreasing_by
  all_goals
    simp only [List.length_drop, List.length_cons]
    omega

/-- Length of the comment at the beginning of a text whose first character is the
`#` and whose other characters are `rest`. -/
def commentLength (rest : Text) : Nat :=
  match embeddedOpener? rest with
  | some (o, extra) =>
    extra + 3 + embeddedLength o (closingBracket o) extra 0 (rest.drop (extra + 2))
  | none => 1 + (rest.takeWhile (· != '\n')).length

end RakuTree.Layout
