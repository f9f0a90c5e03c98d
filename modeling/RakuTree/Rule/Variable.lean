import RakuTree.Frame

/-!
# RakuTree.Rule.Variable

Variables and contextualizers. The sigil and the twigil decide the class. A
contextualizer (`$( … )`) carries its sigil as text and its bracketed body as
children.
-/

namespace RakuTree.Rule

/-- The class of a variable with the given `sigil` and `twigil`; the match is refused if they are
none. -/
def variableClass (f : Frame) (sigil twigil : Text) : Plan f LeafClass :=
  match VariableClass.ofText? (sigil ++ twigil) with
  | some c => pure (.var c)
  | none => f.refuse ("unknown sigil/twigil " ++ Text.quoted (sigil ++ twigil))

/-- A variable put together from `sigil`, `twigil` and `name`. It starts where the text of the match
starts. -/
def variableLeaf (f : Frame) (sigil twigil name : Text) : Plan f (List Element) := do
  let cls ← variableClass f sigil twigil
  return [.leaf (← f.leafAt cls (f.self.start + Text.leadingSpace f.text) (sigil ++ twigil ++ name))]

/-- A variable that covers the whole match, such as `$0`. -/
def wholeVariable (f : Frame) (sigil twigil : Text) : Plan f (List Element) := do
  f.trimmed (← variableClass f sigil twigil) f.self

/-- A variable. Those that name a capture of the last match (`$0`, `$<name>`) are
classed by `<`. -/
def variableUse : Rule := fun f =>
  let s := f.shape
  let sigil := f.textOf "sigil"
  if s.is ["contextualizer"] then f.buildKey .contextualizer
  else if s.is ["sigil", "twigil", "desigilname"] then
    variableLeaf f sigil (f.textOf "twigil") (f.textOf "desigilname")
  else if s.is ["sigil", "desigilname"] then variableLeaf f sigil [] (f.textOf "desigilname")
  else if s.is ["sigil", "index"] then wholeVariable f sigil ['<']
  else if s.is ["sigil", "postcircumfix"] then wholeVariable f sigil ['<']
  else if s.is ["special_variable"] then wholeVariable f ((Text.trim f.text).take 1) []
  else if s.is ["sigil"] then wholeVariable f sigil []
  else f.unhandled

/-- A sigil and its bracketed body, as in `@(1, 2)`. The brackets are the characters behind the
sigil and at the end of the match. -/
def contextualizer : Rule := fun f => do
  if f.shape.fits ["sigil"] ["coercee"] then
    let sigil ← f.need .text (f.get? "sigil")
    match Sigil.ofText? (sigil.text f.src) with
    | none => f.refuse ("unknown contextualizer sigil " ++ Text.quoted (sigil.text f.src))
    | some g =>
      let body ← match f.get? "coercee" with
        | some c => f.build .coercee (some c)
        | none => pure []
      let opening ← f.leafAt .balancedEnter sigil.stop [← f.charAt sigil.stop]
      let closing ← f.leafAt .balancedExit (f.self.stop - 1) [← f.charAt (f.self.stop - 1)]
      return [← .ofElement (Element.makeContextualizer (some g) sigil.start sigil.stop
        (sigil.text f.src) (.leaf opening :: body ++ [.leaf closing]) f.origin)]
  else f.unhandled

/-- What a `contextualizer` applies to, a `semilist` if there is anything in it. -/
def coercee : Rule := fun f =>
  if f.shape.is ["semilist"] then f.buildKey .semilist
  else if f.shape.is [] then pure []
  else f.unhandled

end RakuTree.Rule
