import Stencil.Main
import Stencil.View
import Stencil.SharedBuffer
import Stencil.Proofs.PlainText
import Stencil.Proofs.Ranges
import Stencil.Proofs.Layout
import Stencil.Proofs.Outcome
import Stencil.Proofs.Rebuild
import Stencil.Proofs.TagReading
import Stencil.Proofs.Quotes
import Stencil.Proofs.Escaping
import Stencil.Proofs.ByteKinds
import Stencil.Proofs.Numbers
import Stencil.Proofs.Spelling
import Stencil.Proofs.RoundTrip
import Stencil.Proofs.TagContents
import Stencil.Proofs.Arguments
import Stencil.Proofs.ParsedDocuments
import Stencil.Proofs.InternalFailures
import Stencil.Proofs.DepthLimit
import Stencil.Proofs.Normalization
import Stencil.Proofs.Evaluations
import Stencil.Proofs.SectionOrder
import Stencil.Proofs.Occurrences
import Stencil.Proofs.FaultPlaces
import Stencil.Proofs.Locality
import Stencil.Proofs.Composition
import Stencil.Proofs.Blocks
import Stencil.Proofs.LiteralText
import Stencil.Proofs.Grammar
import Stencil.Proofs.Acceptance
import Stencil.Proofs.Effects
import Stencil.Proofs.FirstRead
import Stencil.Proofs.Runs
import Stencil.Proofs.DiskPaths
import Stencil.Proofs.WriteCalls
import Stencil.Proofs.Delivery
import Stencil.Proofs.Idempotence
import Stencil.Proofs.TokenRows
import Stencil.Proofs.Whitespace
import Stencil.Proofs.ReservedNames
import Stencil.Proofs.Telling
import Stencil.Proofs.Reporting
import Stencil.Proofs.Rounding
import Stencil.Proofs.Decimals
import Stencil.Proofs.NumberText
import Stencil.Proofs.PrintedNumbers
import Stencil.Proofs.NumberRange
import Stencil.Proofs.NumberReading
import Stencil.Proofs.Listing
import Stencil.Proofs.PathJoining
import Stencil.Proofs.DirectoryLoading
import Stencil.Proofs.Binding
import Stencil.Proofs.CallOrder
import Stencil.Proofs.SingleSlots
import Stencil.Proofs.SelfReference
import Stencil.Proofs.InlineCalls
import Stencil.Proofs.Parameters
import Stencil.Proofs.Buffering
import Stencil.Proofs.HandingOver
import Stencil.Proofs.NewDirectories
import Stencil.Proofs.CreatedFiles
import Stencil.Proofs.CommandLines
import Stencil.Proofs.Comments
import Stencil.Proofs.Views
import Stencil.Proofs.SharedBuffers
import Stencil.Proofs.Delimiters
import Stencil.Proofs.VisibleBytes
