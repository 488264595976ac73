import Caret.Buffer.Sketch
import Caret.File.Workspace
import Caret.Main
import Caret.Pin.Merge
import Caret.Proofs.Signature.Arguments
import Caret.Proofs.Tree.Isolation
import Caret.Proofs.TypeExpr.Grammar
import Caret.Proofs.TypeExpr.RoundTrip
import Caret.Proofs.SpanCover
import Caret.Proofs.Tree.Layers
import Caret.Proofs.Tree.RegionCover
import Caret.Proofs.Signature.Provenance
import Caret.Proofs.Cursor.GuardedWord
import Caret.Proofs.Cursor.GuardedScan
import Caret.Proofs.Cursor.Snapshot
import Caret.Proofs.Cursor.Placement
import Caret.Proofs.Tree.EnclosingConstruct
import Caret.Proofs.Tree.Visibility
import Caret.Proofs.Signature.Base
import Caret.Proofs.Signature.Start
import Caret.Proofs.Signature.WordEnd
import Caret.Proofs.Signature.Lookahead
import Caret.Proofs.Signature.Strings
import Caret.Proofs.SpanIndex
import Caret.Proofs.Tree.Naming
import Caret.Proofs.Tree.Sites
import Caret.Proofs.Tree.SourceOrder
import Caret.Proofs.Tree.Belonging
import Caret.Proofs.Pin.Observations
import Caret.Proofs.SampledTypes
import Caret.Proofs.Tree.DefinitionPaths
import Caret.Proofs.Tree.AssignedText
import Caret.Proofs.Command.LocalViews
import Caret.Proofs.Signature.Layout
import Caret.Proofs.Signature.LeadingBlanks
import Caret.Proofs.Signature.Phrase
import Caret.Proofs.Json.Stored
import Caret.Proofs.TypeExpr.MergeLaws
import Caret.Proofs.Tree.LiteralBefore
import Caret.Proofs.Cursor.WholeWord
import Caret.Proofs.Tree.Token
