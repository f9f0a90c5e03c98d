import RakuTree.Fault

/-!
# RakuTree.Options

Switches that change how a build reports problems, never what it builds. They come
from a table of settings, where anything but an empty or zero value switches on,
or from named texts as an environment holds them, where the usual words for yes
and no count and anything else is logged and taken for no.
-/

namespace RakuTree

/-- How `Document.build` reports problems. -/
structure Options where
  /-- Log every production before it is built, as `Event.producing`. -/
  trace : Bool := false
  /-- Stop at a gap that cannot be filled, with `Fault.gap`. -/
  strictGaps : Bool := false
  deriving Repr, DecidableEq

/-- A value in a table of settings (`ofSettings`). -/
inductive Setting
  /-- No value, which counts as off. -/
  | null
  /-- Yes or no, on or off as `b` says. -/
  | bool (b : Bool)
  /-- A number; `isZero` is all that counts. -/
  | number (isZero : Bool)
  /-- Some text, on unless it is empty. -/
  | text (s : String)
  /-- A list or table with `size` entries, on unless it is empty. -/
  | collection (size : Nat)

/-- Does a value switch something on? This is its truth value. -/
def Setting.isOn : Setting → Bool
  | null => false
  | bool b => b
  | number isZero => !isZero
  | text s => s != ""
  | collection size => size != 0

namespace Options

/-- Options from a table of settings. What `settings` does not name keeps its default. -/
def ofSettings (settings : List (String × Setting)) : Options :=
  let isOn (key : String) := ((settings.lookup key).map Setting.isOn).getD false
  { trace := isOn "trace", strictGaps := isOn "strict_gaps" }

/-- Name of the text that sets `trace`. -/
def traceName : String := "PERL6_PARSER_TRACE"

/-- Name of the text that sets `strictGaps`. -/
def strictGapsName : String := "PERL6_PARSER_STRICT_GAPS"

/-- Texts that `flag` reads as yes. -/
def yes : List String := ["1", "true", "yes", "on"]

/-- Texts that `flag` reads as no. -/
def no : List String := ["", "0", "false", "no", "off"]

/-- Reads the switch `name`. Whitespace around its text and the case of ASCII letters do not matter;
a text that is neither in `yes` nor in `no` is logged and counts as no. -/
def flag (texts : List (String × String)) (name : String) : Bool × List Event :=
  let value := ((Text.trim ((texts.lookup name).getD "").toList)).map Char.toLower
  if yes.contains (String.ofList value) then (true, [])
  else if no.contains (String.ofList value) then (false, [])
  else (false, [.unknownSetting value name])

/-- Options from named texts, each read by `flag`, with what is to be logged about them. -/
def ofTexts (texts : List (String × String)) : Options × List Event :=
  let trace := flag texts traceName
  let strictGaps := flag texts strictGapsName
  ({ trace := trace.1, strictGaps := strictGaps.1 }, trace.2 ++ strictGaps.2)

end Options

end RakuTree
