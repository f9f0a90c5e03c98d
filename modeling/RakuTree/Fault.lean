import RakuTree.Element.Make
import RakuTree.Match.Shape

/-!
# RakuTree.Fault

What can go wrong while a document is built, and what is written to the log.

A `Refusal` is a match that no rule accepts. It keeps names, offsets and text
only, no match. Each refusal is logged where it arises.
-/

namespace RakuTree

/-! ### Refusals -/

/-- A match that no rule accepts, as `Frame.refusal` describes it. -/
structure Refusal where
  /-- The key of the production that refused it, its `Production.key`. -/
  production : String
  /-- Where the match starts, `Match.start`. -/
  start : Int
  /-- Where the match ends, `Match.stop`. -/
  stop : Int
  /-- The text of the match, cut by `Refusal.shorten`. -/
  text : Text
  /-- The shape of the match, `Shape.of` it. -/
  shape : Shape
  /-- What was missing. There is no note where no shape fits (`Frame.unhandled`). -/
  note : Option String
  /-- Was it a here-doc whose body could not be found, a `HereDocError`? -/
  hereDoc : Bool
  deriving Repr, DecidableEq

namespace Refusal

/-- Texts that `shorten` returns have at most this many characters. -/
def maxText : Nat := 60

/-- The text `s`, cut to `maxText` characters with dots at its end. -/
def shorten (s : Text) : Text :=
  if s.length > maxText then s.take (maxText - 3) ++ ['.', '.', '.'] else s

/-- The `note` in parentheses, with a blank in front. -/
def noteText (r : Refusal) : String :=
  match r.note with
  | some note => " (" ++ note ++ ")"
  | none => ""

/-- The message of a refusal, which lists the keys of its `shape`. -/
def message (r : Refusal) : String :=
  "Unhandled match in " ++ r.production ++ " at offset " ++ toString r.start ++ ": content keys " ++
    Text.quotedList r.shape.content ++ ", empty keys " ++ Text.quotedList r.shape.empty ++ r.noteText

/-- What is logged about a refusal: its range, its `text` and its `shape`. -/
def logText (r : Refusal) : String :=
  "Unhandled match in " ++ r.production ++ " at " ++ toString r.start ++ ".." ++ toString r.stop ++
    " " ++ Text.quoted r.text ++ ": " ++ r.shape.describe ++ r.noteText

end Refusal

/-! ### Gaps -/

/-- Why a gap between neighbours cannot be filled (`GapSource.read`). -/
inductive GapError
  /-- Something in the gap is not layout: `text`, which stands at `offset`. -/
  | unclassified (text : Text) (offset : Int)
  /-- The range from `start` to `stop` is no gap: it ends before it starts, or an offset is
  negative. -/
  | malformed (start stop : Int)
  deriving Repr, DecidableEq

/-- The message of a `GapError`, whether it is logged or raised. -/
def GapError.message : GapError → String
  | unclassified text offset =>
    "Unclassified text " ++ Text.quoted text ++ " at offset " ++ toString offset
  | malformed start stop => "Skipping malformed gap " ++ ElementError.rangeText start stop

/-! ### Faults -/

/-- What is looked up by position, and may be too short: the subject of `Fault.outside`. -/
inductive Indexed
  /-- A character of a `Text`. -/
  | text
  /-- An item of a `List`. -/
  | list
  deriving Repr, DecidableEq

/-- How a message names what an `Indexed` stands for. -/
def Indexed.name : Indexed → String
  | text => "string"
  | list => "list"

/-- What is asked of a `Match`. -/
inductive Access
  /-- Where it starts, `Match.start`. -/
  | start
  /-- Where it ends, `Match.stop`. -/
  | stop
  /-- The source it belongs to, `Frame.src`. -/
  | source
  /-- Its text, `Match.text`. -/
  | text
  /-- Its captures, `Match.named`. -/
  | captures
  deriving Repr, DecidableEq

/-- How a message names an `Access`. -/
def Access.name : Access → String
  | start => "from_"
  | stop => "to"
  | source => "orig"
  | text => "Str"
  | captures => "hash"

/-- Why a `Build` stops. -/
inductive Fault
  /-- No rule accepts a match; `r` says which one. -/
  | refused (r : Refusal)
  /-- There is no production with the key `name` (`produceNamed`). -/
  | unknownProduction (name : String)
  /-- A node cannot be made, for the reason `e`. -/
  | element (e : ElementError)
  /-- A gap cannot be filled, and `Options.strictGaps` is on. -/
  | gap (e : GapError)
  /-- A look-up in `what` leads outside of it. -/
  | outside (what : Indexed)
  /-- Something is asked of a capture that is not there; `access` is what was asked first. -/
  | absentCapture (access : Access)
  deriving Repr, DecidableEq

namespace Fault

/-- The message of a fault, which does depend on all that it carries. -/
def message : Fault → String
  | refused r => r.message
  | unknownProduction name => "No factory rule for production " ++ Text.quoted name.toList
  | element e => e.message
  | gap e => e.message
  | outside what => what.name ++ " index out of range"
  | absentCapture access =>
    "'NoneType' object has no attribute " ++ Text.quoted access.name.toList

end Fault

/-! ### Events -/

/-- How grave an `Event` is. -/
inductive Level
  /-- For following what happens: `Event.producing`, `Event.built`. -/
  | debug
  /-- Something was skipped, and the build goes on. -/
  | warning
  /-- Something failed: `Event.refused`. -/
  | error
  deriving Repr, DecidableEq

/-- The name of a `Level` in the log. -/
def Level.name : Level → String
  | debug => "DEBUG"
  | warning => "WARNING"
  | error => "ERROR"

/-- A log record. -/
inductive Event
  /-- A production is about to build a match of the given range and shape; logged if `Options.trace`
  is on. -/
  | producing (production : String) (start stop : Int) (shape : Shape)
  /-- A match was refused (`Build.refuse`). -/
  | refused (r : Refusal)
  /-- A gap was left as it is, since `Options.strictGaps` is off. -/
  | gapSkipped (e : GapError)
  /-- A here-doc at `start` ends at `stop`, before it starts, and is passed over. -/
  | backwardHereDoc (start stop : Int)
  /-- The setting `name` has a value that means nothing (`Options.flag`). -/
  | unknownSetting (value : Text) (name : String)
  /-- A document is complete (`Document.build`). -/
  | built (characters nodes : Nat)
  deriving Repr, DecidableEq

namespace Event

/-- The `Level` an event is logged at. -/
def level : Event → Level
  | producing _ _ _ _ | built _ _ => .debug
  | refused _ => .error
  | gapSkipped _ | backwardHereDoc _ _ | unknownSetting _ _ => .warning

/-- The text of an event in the log. -/
def message : Event → String
  | producing production start stop shape =>
    production ++ " " ++ ElementError.rangeText start stop ++ " " ++ shape.describe
  | refused r => r.logText
  | gapSkipped e => e.message
  | backwardHereDoc start stop =>
    "Here-doc at " ++ toString start ++ " ends at " ++ toString stop ++ ", before it starts"
  | unknownSetting value name =>
    "Ignoring unrecognized value " ++ Text.quoted value ++ " for " ++ name
  | built characters nodes =>
    "Built document of " ++ toString characters ++ " characters, " ++ toString nodes ++
      " top-level nodes"

end Event

end RakuTree
