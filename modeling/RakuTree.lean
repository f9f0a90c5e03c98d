import RakuTree.Document
import RakuTree.Match.ParseTree
import RakuTree.Match.Sketch
import RakuTree.Arena.Edit
import RakuTree.Arena.Fill
import RakuTree.Arena.Check
import RakuTree.Proofs.Made.Build
import RakuTree.Proofs.Layout
import RakuTree.Proofs.Tiling
import RakuTree.Proofs.Document
import RakuTree.Proofs.RoundTrip
import RakuTree.Proofs.Options
import RakuTree.Proofs.Arena.Update
import RakuTree.Proofs.Arena.Outline
import RakuTree.Proofs.Arena.Linked
import RakuTree.Proofs.Arena.Threaded
import RakuTree.Proofs.Arena.Edits
import RakuTree.Proofs.Arena.Chain
import RakuTree.Proofs.HereDocs
import RakuTree.Proofs.Arena.Ranges
import RakuTree.Proofs.Arena.Tiled
import RakuTree.Proofs.Complete.Plans
import RakuTree.Proofs.Complete.Expressions
import RakuTree.Proofs.Complete.Programs
import RakuTree.Proofs.Scan.Step
import RakuTree.Proofs.Scan.Partition
import RakuTree.Proofs.Scan.Lookahead
import RakuTree.Proofs.Scan.Rescan
import RakuTree.Proofs.Scan.Cut
import RakuTree.Proofs.Filled.Row
import RakuTree.Proofs.Filled.Table
import RakuTree.Proofs.Filled.Grown
import RakuTree.Proofs.Filled.Run
import RakuTree.Proofs.Filled.Forward
import RakuTree.Proofs.Filled.Resume
import RakuTree.Proofs.Filled.Lenient
import RakuTree.Proofs.HereDocs.Lines
import RakuTree.Proofs.HereDocs.Order
import RakuTree.Proofs.HereDocs.Semicolons
import RakuTree.Proofs.Ignored.Matches
import RakuTree.Proofs.Ignored.Frames
import RakuTree.Proofs.Ignored.Terms
import RakuTree.Proofs.Ignored.Regexes
import RakuTree.Proofs.Ignored.Statements
import RakuTree.Proofs.Ignored.Build
import RakuTree.Proofs.Filled.Certified
import RakuTree.Proofs.Arena.Removal
import RakuTree.Proofs.Arena.Undo
import RakuTree.Proofs.Separators
import RakuTree.Proofs.Arena.Checked
import RakuTree.Proofs.Simulation
import RakuTree.Proofs.InfixChains
import RakuTree.Proofs.EmptyCaptures.Effects
import RakuTree.Proofs.EmptyCaptures.Added
import RakuTree.Proofs.EmptyCaptures.Rules
import RakuTree.Proofs.Scan.Comments
import RakuTree.Proofs.ParseTrees
import RakuTree.Proofs.Quotes
import RakuTree.Proofs.SeparatedItems
import RakuTree.Proofs.Keywords
import RakuTree.Proofs.Makers
import RakuTree.Proofs.Keywords
