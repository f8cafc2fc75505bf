import RobotSource.Workspace.Scan
/-!
# Runs of a workspace

An editor's session is a run of operations on a workspace, one after the other. An operation that is
refused leaves the workspace as it is; a scan that is stopped leaves what it has found. What each
step of an operation keeps the operation keeps (`run_induction`, `scan_induction`), and whatever
holds of the empty workspace and is kept by each operation holds after every run
(`after_induction`).
-/

namespace RobotSource

/-- What can be asked of a workspace that changes it. -/
inductive Operation where
  | openText (uri : Uri) (language : Language) (text : String) (version : Option Int)
  | close (uri : Uri)
  | addKnown (uri : Uri) (language : Language) (text : String) (version : Option Int)
  | applyEdit (uri : Uri) (changes : List Change)
  | setVersion (uri : Uri) (version : Int)
  | reparse (uri : Uri)
  | scan (files : FileTree) (folders : List Uri) (settings : Settings)

namespace Operation

/-- The workspace after an operation. -/
def run (ws : Workspace) : Operation → Workspace
  | .openText uri language text version => (ws.openDocument (.ofText uri language text version)).1
  | .close uri => ws.close uri
  | .addKnown uri language text version => (ws.addKnown (.ofText uri language text version)).1
  | .applyEdit uri changes =>
    match ws.applyEdit uri changes with
    | .ok ws' => ws'
    | .error _ => ws
  | .setVersion uri version => ws.setVersion uri version
  | .reparse uri =>
    match ws.reparse uri with
    | .ok (ws', _) => ws'
    | .error _ => ws
  | .scan files folders settings => (ws.scan files folders settings).1

/-- The address that an operation is about; a scan is about no single one. -/
def uri? : Operation → Option Uri
  | .openText uri _ _ _ => some uri
  | .close uri => some uri
  | .addKnown uri _ _ _ => some uri
  | .applyEdit uri _ => some uri
  | .setVersion uri _ => some uri
  | .reparse uri => some uri
  | .scan .. => none

/-- Whether an operation works on a document that is open: it changes its text, notes its version or
parses it again. -/
def isEdit : Operation → Bool
  | .applyEdit .. | .setVersion .. | .reparse .. => true
  | _ => false

/-- What an edit makes of the document. -/
def edited (enc : Text.Encoding) (d : Document) : Operation → Document
  | .applyEdit _ changes => changes.foldl (fun d change => d.applyChange enc change) d
  | .setVersion _ version => { d with version := some version }
  | .reparse _ => d.parse.1
  | _ => d

end Operation

/-! ## Documents -/

namespace Document

variable {d : Document} {enc : Text.Encoding}

/-- A parse touches the program only. -/
theorem parse_eq : d.parse.1 = { d with source := d.parse.1.source } := by
  unfold parse
  split <;> rfl

theorem uri_parse : d.parse.1.uri = d.uri := by rw [parse_eq]

theorem language_parse : d.parse.1.language = d.language := by rw [parse_eq]

theorem text_parse : d.parse.1.text = d.text := by rw [parse_eq]

/-- A change touches the text and the cursor only. -/
theorem exists_applyChange (enc : Text.Encoding) (d : Document) (change : Change) :
    ∃ text cursor, d.applyChange enc change = { d with text, cursor } := by
  unfold applyChange
  split
  · exact ⟨_, _, rfl⟩
  · split <;> exact ⟨_, _, rfl⟩

theorem exists_foldl_applyChange (enc : Text.Encoding) (d : Document) (changes : List Change) :
    ∃ text cursor, changes.foldl (fun d change => d.applyChange enc change) d = { d with text, cursor } := by
  induction changes generalizing d with
  | nil => exact ⟨d.text, d.cursor, rfl⟩
  | cons change changes ih =>
    obtain ⟨text, cursor, hstep⟩ := exists_applyChange enc d change
    rw [List.foldl_cons, hstep]
    exact ih _

theorem uri_edited {operation : Operation} : (operation.edited enc d).uri = d.uri := by
  cases operation with
  | applyEdit _ changes =>
    obtain ⟨_, _, h⟩ := exists_foldl_applyChange enc d changes
    rw [Operation.edited, h]
  | reparse => exact uri_parse
  | _ => rfl

end Document

namespace Workspace

variable {ws : Workspace} {uri : Uri} {d : Document} {operation : Operation}

/-! ## What an operation touches -/

theorem unindex_eq : ws.unindex uri = { ws with names := (ws.unindex uri).names } := by
  unfold unindex
  split
  · rfl
  · split <;> rfl

theorem close_eq : ws.close uri =
    { ws with opened := ws.opened.erase uri.text, names := (ws.close uri).names } := by
  unfold close
  split
  · rw [unindex_eq]
  · rfl

theorem opened_openDocument :
    (ws.openDocument d).1.opened = ws.opened.insert d.uri.text d.parse.1 := by
  rw [← Document.uri_parse]
  rfl

theorem opened_close : (ws.close uri).opened = ws.opened.erase uri.text := by rw [close_eq]

theorem folders_close : (ws.close uri).folders = ws.folders := by rw [close_eq]

theorem encoding_close : (ws.close uri).encoding = ws.encoding := by rw [close_eq]

theorem known_close : (ws.close uri).known = ws.known := by rw [close_eq]

/-- One turn of forgetting: a stale address leaves the index unless it is open. -/
def forgetDocument (ws : Workspace) (d : Document) : Workspace :=
  if ws.opened.contains d.uri.text then ws else ws.unindex d.uri

theorem forgetKnown_eq :
    ws.forgetKnown = ws.known.values.foldl forgetDocument { ws with known := .empty } := rfl

/-- Forgetting documents one by one touches the index only. -/
theorem exists_foldl_forgetDocument (ws : Workspace) (docs : List Document) :
    ∃ names, docs.foldl forgetDocument ws = { ws with names } := by
  induction docs generalizing ws with
  | nil => exact ⟨ws.names, rfl⟩
  | cons d docs ih =>
    rw [List.foldl_cons, forgetDocument]
    split
    · exact ih _
    · rw [unindex_eq]
      exact ih _

theorem opened_forgetKnown : ws.forgetKnown.opened = ws.opened := by
  obtain ⟨_, h⟩ := exists_foldl_forgetDocument { ws with known := .empty } ws.known.values
  rw [forgetKnown_eq, h]

theorem known_forgetKnown : ws.forgetKnown.known = .empty := by
  obtain ⟨_, h⟩ := exists_foldl_forgetDocument { ws with known := .empty } ws.known.values
  rw [forgetKnown_eq, h]

/-- An edit replaces the document if it is open, and is refused otherwise. -/
theorem run_edit (hedit : operation.isEdit) (huri : operation.uri? = some uri) :
    operation.run ws = (ws.opened.find? uri.text).elim ws fun d =>
      { ws with opened := ws.opened.insert uri.text (operation.edited ws.encoding d) } := by
  cases operation with
  | applyEdit target changes =>
    obtain rfl := Option.some.inj huri
    rw [Operation.run, applyEdit, entry]
    cases ws.opened.find? target.text <;> rfl
  | setVersion target version =>
    obtain rfl := Option.some.inj huri
    rw [Operation.run, setVersion]
    cases ws.opened.find? target.text <;> rfl
  | reparse target =>
    obtain rfl := Option.some.inj huri
    rw [Operation.run, reparse, entry]
    cases ws.opened.find? target.text <;> rfl
  | _ => cases hedit

/-! ## What is kept -/

section
variable {I : Workspace → Prop}

/-- **What forgetting and each source keep a scan keeps**, stopped or not. -/
theorem scan_induction {files : FileTree} {folders : List Uri} {settings : Settings}
    (hforget : I { ws with folders }.forgetKnown)
    (hadd : ∀ ws path uri text language, loadSource files path = .ok (uri, text) → I ws →
      I (ws.addKnown (.ofText uri language text none)).1) :
    I (ws.scan files folders settings).1 := by
  have hfolder : ∀ folder language ws, I ws → I (scanFolder files ws folder language) := by
    intro folder language ws h
    refine List.foldlRecOn _ _ h fun ws h path _ => ?_
    split
    · rename_i hload
      exact hadd ws path _ _ language hload h
    · exact h
  suffices h : ∀ rest ws, I ws → I (scanFolders files settings ws rest).1 from h _ _ hforget
  intro rest
  induction rest with
  | nil => exact fun _ h => h
  | cons folder rest ih =>
    intro ws h
    unfold scanFolders
    split
    · exact h
    · exact ih _ (hfolder _ _ _ (hfolder _ _ _ h))

/-- **What each of its steps keeps an operation keeps.** -/
theorem run_induction (operation : Operation) (h : I ws)
    (hopen : ∀ uri language text version, operation = .openText uri language text version →
      I (ws.openDocument (.ofText uri language text version)).1)
    (hclose : ∀ uri, I (ws.close uri))
    (hadd : ∀ uri language text version, operation = .addKnown uri language text version →
      I (ws.addKnown (.ofText uri language text version)).1)
    (hedit : ∀ (uri : Uri) d, ws.opened.find? uri.text = some d →
      I { ws with opened := ws.opened.insert uri.text (operation.edited ws.encoding d) })
    (hscan : ∀ files folders settings, I (ws.scan files folders settings).1) :
    I (operation.run ws) := by
  have hedited : ∀ uri, operation.isEdit → operation.uri? = some uri →
      I (operation.run ws) := by
    intro uri hisEdit huri
    rw [run_edit hisEdit huri]
    cases hfind : ws.opened.find? uri.text with
    | none => exact h
    | some d => exact hedit uri d hfind
  cases operation with
  | openText uri language text version => exact hopen uri language text version rfl
  | close uri => exact hclose uri
  | addKnown uri language text version => exact hadd uri language text version rfl
  | applyEdit uri => exact hedited uri rfl rfl
  | setVersion uri => exact hedited uri rfl rfl
  | reparse uri => exact hedited uri rfl rfl
  | scan files folders settings => exact hscan files folders settings

end

/-- The workspace after a run of operations from the empty one. -/
def after (operations : List Operation) : Workspace :=
  operations.foldl Operation.run .empty

/-- **What every operation keeps holds after every run.** -/
theorem after_induction {I : Workspace → Prop} (hempty : I .empty)
    (hstep : ∀ ws (operation : Operation), I ws → I (operation.run ws))
    (operations : List Operation) :
    I (after operations) :=
  List.foldlRecOn operations _ hempty fun ws h operation _ => hstep ws operation h

end Workspace

end RobotSource
