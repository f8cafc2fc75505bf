import RobotSource.Main
import RobotSource.Proofs.Completion.Calls
import RobotSource.Proofs.Completion.FieldPaths
import RobotSource.Proofs.Completion.Tokens
import RobotSource.Proofs.Editor.ByteCuts
import RobotSource.Proofs.Editor.CursorTracking
import RobotSource.Proofs.Editor.LabelLookup
import RobotSource.Proofs.Karel.Comments
import RobotSource.Proofs.Karel.Grammar.Separation
import RobotSource.Proofs.LetterCase
import RobotSource.Proofs.LineBreaks
import RobotSource.Proofs.Listing.Grammar.Reindent
import RobotSource.Proofs.Listing.LayoutEdit
import RobotSource.Proofs.Listing.Preservation
import RobotSource.Proofs.Parsing.Furthest
import RobotSource.Proofs.Progress
import RobotSource.Proofs.Server.Published
import RobotSource.Proofs.Text.Word
import RobotSource.Proofs.Workspace.Lookup
