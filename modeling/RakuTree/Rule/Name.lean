import RakuTree.Frame

/-!
# RakuTree.Rule.Name

Names: identifiers, qualified names with their adverbs, names being declared, and
names of modules.
-/

namespace RakuTree.Rule

/-- `Foo::Bar` is a package name, `foo` a bareword. -/
def nameLeaf (f : Frame) : Plan f (List Element) :=
  f.trimmed (if Text.includes f.text [':', ':'] then .packageName else .bareword) f.self

/-- A name, perhaps with colon pairs behind it, as in `infix:<+>`. -/
def longname : Rule := fun f => do
  if f.shape.fits ["name"] ["colonpair"] then
    let nodes ← f.buildKey .name
    return nodes ++ (← f.buildAll .colonpair (f.each "colonpair"))
  else if f.shape.is [] then nameLeaf f
  else f.unhandled

/-- The name of a routine being declared, colon pairs and all, as one `bareword`. -/
def deflongname : Rule := fun f =>
  if f.shape.fits ["name"] ["colonpair"] || f.shape.is [] then f.trimmed .bareword f.self
  else f.unhandled

/-- A plain or qualified name, as one leaf (`nameLeaf`). -/
def name : Rule := fun f =>
  if f.shape.fits ["identifier"] ["morename"] || f.shape.is ["morename"] || f.shape.is [] then
    nameLeaf f
  else f.unhandled

/-- A single word, as a `bareword`. -/
def identifier : Rule := fun f =>
  if f.shape.is [] then f.trimmed .bareword f.self else f.unhandled

/-- The name of a term being declared, as a `bareword`. -/
def defterm : Rule := fun f =>
  if f.shape.fits ["identifier"] ["colonpair"] || f.shape.is [] then f.trimmed .bareword f.self
  else f.unhandled

/-- A statement label, colon included, as in `NEXT:`. -/
def label : Rule := fun f =>
  if f.shape.is ["identifier"] then f.trimmed .label f.self else f.unhandled

/-- The name of a module, perhaps with arguments in brackets, as in `A[1]`. The arguments are built
before the name. -/
def moduleName : Rule := fun f => do
  if f.shape.is ["longname"] then f.buildKey .longname
  else if f.shape.is ["longname", "arglist"] then
    let longname ← f.need .stop (f.get? "longname")
    let opening ← f.expect .balancedEnter longname.stop f.self.stop (.text ['['])
    let args ← f.buildKey .arglist
    let nodes ← f.buildKey .longname
    let brackets ← f.delimited .postCircumfixOperator opening.span.start f.self.stop 1 .plain args
    return nodes ++ [brackets]
  else f.unhandled

end RakuTree.Rule
