import Stencil.FileResolver
import Stencil.Main
import Stencil.Outline
import Stencil.Store
import Stencil.Proofs.Matching
import Stencil.Proofs.Reading
import Stencil.Proofs.Tree
import Stencil.Proofs.Tree.Tags
import Stencil.Proofs.Hole
import Stencil.Proofs.Hole.Dedent
import Stencil.Proofs.Hole.Expansion
import Stencil.Proofs.Dependence
import Stencil.Proofs.Hole.Inheritance
import Stencil.Proofs.InMemory
import Stencil.Proofs.Insulation
import Stencil.Proofs.LeadingBlock
import Stencil.Proofs.Override
import Stencil.Proofs.Tree.Interpretation
import Stencil.Proofs.Ceiling
import Stencil.Proofs.EmptyHeir
import Stencil.Proofs.Confinement
import Stencil.Proofs.ByteScan
import Stencil.Proofs.FailOpen
import Stencil.Proofs.Flat.Splice
import Stencil.Proofs.Relocation
import Stencil.Proofs.Unrolling.Heirs
import Stencil.Proofs.Settling
import Stencil.Proofs.Transparency
import Stencil.Proofs.Apart
import Stencil.Proofs.Condition.Meaning
import Stencil.Proofs.Printing
import Stencil.Proofs.Snapshot
import Stencil.Proofs.Condition.Quotes
import Stencil.Proofs.Spans
import Stencil.Proofs.Laminar
import Stencil.Proofs.Branches
import Stencil.Proofs.Visible
import Stencil.Proofs.Closed
import Stencil.Proofs.Layers
import Stencil.Proofs.FilePath.NormalForm
import Stencil.Proofs.Addressing
import Stencil.Proofs.Neighbours
import Stencil.Proofs.Additions
import Stencil.Proofs.Listing
import Stencil.Proofs.Bindings
import Stencil.Proofs.Dedent
import Stencil.Proofs.LineBreaks
import Stencil.Proofs.Condition.Integers
import Stencil.Proofs.Condition.Overflow
import Stencil.Proofs.Trimming
import Stencil.Proofs.Comments
import Stencil.Proofs.Joining
import Stencil.Proofs.Checking
import Stencil.Proofs.Depth
import Stencil.Proofs.DepthCounter
