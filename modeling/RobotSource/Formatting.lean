import RobotSource.Listing.LayoutEdit
import RobotSource.Settings
import RobotSource.Workspace.Basic
/-!
# Formatting of documents

Only listings are formatted; a Karel document is left as it is.
-/

namespace RobotSource

/-- The edits that format an opened document. -/
def formatDocument (settings : Settings) (ws : Workspace) (uri : Uri)
    (options : Listing.LayoutOptions) : Except WorkspaceError (List Editor.TextEdit) := do
  let d ← ws.entry uri
  match d.language with
  | .pendant => return Listing.layoutEdits settings.tabSize options d.text
  | .karel => return []

end RobotSource
