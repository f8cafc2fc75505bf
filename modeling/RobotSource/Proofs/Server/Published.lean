import RobotSource.Proofs.Workspace.LastProgram
import RobotSource.Server.Session
/-!
# Published diagnostics are current

An editor shows what was last published for a document, so what it shows is right only if every
change of a text is followed by its diagnostics. `Effect` says all that one message can do: it leaves
the opened documents alone and publishes nothing, or it opens or parses one of them and publishes
what comes of it, or it closes one and takes its diagnostics back. Each of these keeps what was last
published current (`IsCurrent.step`), so it is current after every session
(`published_current_after`). Which documents are open follows from the messages alone
(`isOpen_session`).
-/

namespace RobotSource

open List

/-- The diagnostics of a document: those of a parse of its text. -/
def Document.diagnostics (d : Document) : List Editor.Diagnostic :=
  statusDiagnostics ((Source.parse d.language d.text).map fun _ => ()) d.text

namespace Document

variable {d : Document}

theorem status_parse : d.parse.2 = (Source.parse d.language d.text).map fun _ => () := by
  unfold parse
  cases Source.parse d.language d.text <;> rfl

/-- A parse has the diagnostics of the document behind it. -/
theorem diagnostics_parse : d.parse.1.diagnostics = statusDiagnostics d.parse.2 d.text := by
  rw [diagnostics, language_parse, text_parse, status_parse]

/-- There are none exactly if the text parses. -/
theorem diagnostics_eq_nil_iff :
    d.diagnostics = [] ↔ ∃ source, Source.parse d.language d.text = .ok source := by
  rw [diagnostics]
  cases Source.parse d.language d.text with
  | ok source => exact ⟨fun _ => ⟨source, rfl⟩, fun _ => rfl⟩
  | error e =>
    refine ⟨fun h => ?_, fun ⟨_, h⟩ => ?_⟩
    · cases h
    · cases h

end Document

namespace Server

/-! ## What is published -/

/-- Diagnostics that the server has published for a document. -/
structure Publication where
  uri : Uri
  version : Option Int
  items : List Editor.Diagnostic

/-- The publication that a message is, if it is one. -/
def Outgoing.publication? : Outgoing → Option Publication
  | .diagnostics uri version items => some ⟨uri, version, items⟩
  | _ => none

/-- The publications among the messages, in their order. -/
def publications (sent : List Outgoing) : List Publication :=
  sent.filterMap Outgoing.publication?

/-- What was last published for a document. -/
def lastPublished? (uri : Uri) (sent : List Outgoing) : Option Publication :=
  (publications sent).reverse.find? (·.uri = uri)

variable {uri : Uri} {s : Server} {files : FileTree} {sent new : List Outgoing}
variable {before after : Table Document} {event : Option (Uri × Bool)}

theorem publications_append : publications (sent ++ new) = publications sent ++ publications new :=
  filterMap_append

theorem lastPublished?_append :
    lastPublished? uri (sent ++ new) = (lastPublished? uri new).or (lastPublished? uri sent) := by
  rw [lastPublished?, publications_append, reverse_append, find?_append]
  rfl

/-- Whether a notification opens a document, in a language that is known, or closes one. -/
def Notification.opensOrCloses? : Notification → Option (Uri × Bool)
  | .opened uri languageName _ _ =>
    ((Language.ofName? languageName).or uri.language?).map fun _ => (uri, true)
  | .closed uri => some (uri, false)
  | _ => none

/-- Whether a message opens or closes a document. -/
def Incoming.opensOrCloses? : Incoming → Option (Uri × Bool)
  | .notification method params => (Notification.read method params).opensOrCloses?
  | _ => none

/-- What one message does to the opened documents, and what it publishes. -/
inductive Effect (before after : Table Document) : Option (Uri × Bool) → List Publication → Prop
  | idle (h : after = before) : Effect before after none []
  | opened (uri : Uri) (d : Document)
      (h : ∀ key, after.find? key = if key = uri.text then some d else before.find? key) :
      Effect before after (some (uri, true)) [⟨uri, d.version, d.diagnostics⟩]
  | parsed (uri : Uri) (d : Document)
      (h : ∀ key, after.find? key = if key = uri.text then some d else before.find? key)
      (hopen : (before.find? uri.text).isSome = true) :
      Effect before after none [⟨uri, d.version, d.diagnostics⟩]
  | closed (uri : Uri)
      (h : ∀ key, after.find? key = if key = uri.text then none else before.find? key) :
      Effect before after (some (uri, false)) [⟨uri, none, []⟩]

/-- What was last published for a document is what a parse of its text gives, with its version; for
one that is not open it is nothing. -/
def IsCurrent (uri : Uri) (opened : Table Document) (sent : List Outgoing) : Prop :=
  match opened.find? uri.text with
  | some d => lastPublished? uri sent = some ⟨uri, d.version, d.diagnostics⟩
  | none => ∀ p, lastPublished? uri sent = some p → p.items = []

/-- **One message keeps what was last published current.** -/
theorem IsCurrent.step (h : IsCurrent uri before sent)
    (heffect : Effect before after event (publications new)) :
    IsCurrent uri after (sent ++ new) := by
  generalize hnew : publications new = published at heffect
  have hlast : lastPublished? uri (sent ++ new) =
      (published.reverse.find? (·.uri = uri)).or (lastPublished? uri sent) := by
    rw [lastPublished?_append, ← hnew]
    rfl
  rw [IsCurrent, hlast]
  cases heffect with
  | idle hafter =>
    rw [hafter]
    exact h
  | opened other d hafter | parsed other d hafter _ | closed other hafter =>
    rw [hafter]
    by_cases heq : uri = other
    · subst heq
      simp
    · have htext : uri.text ≠ other.text := fun htext => heq (congrArg Uri.mk htext)
      simpa [htext, Ne.symm heq, IsCurrent] using h

/-! ## What each handler does -/

theorem publications_publishStatus {d : Document} {status : ParseStatus}
    (hopen : s.workspace.opened.find? uri.text = some d)
    (hstatus : statusDiagnostics status d.text = d.diagnostics) :
    publications (s.publishStatus uri status) = [⟨uri, d.version, d.diagnostics⟩] := by
  rw [publishStatus, hopen, ← hstatus]
  cases status <;> rfl

theorem effect_opened (languageName : String) (version : Int) (text : String) :
    Effect s.workspace.opened (s.opened uri languageName version text).1.workspace.opened
      (Notification.opened uri languageName version text).opensOrCloses?
      (publications (s.opened uri languageName version text).2) := by
  rw [opened, Notification.opensOrCloses?]
  cases (Language.ofName? languageName).or uri.language? with
  | none => exact .idle rfl
  | some language =>
    obtain ⟨d, hd⟩ : ∃ d, d = Document.ofText uri language text (some version) := ⟨_, rfl⟩
    have huri : d.uri = uri := by rw [hd]; rfl
    simp only [Option.map_some, ← hd]
    have hafter (key : String) : (s.workspace.openDocument d).1.opened.find? key =
        if key = uri.text then some d.parse.1 else s.workspace.opened.find? key := by
      rw [Workspace.opened_openDocument, huri, Table.find?_insert]
    rw [publications_publishStatus (d := d.parse.1)]
    · exact .opened uri d.parse.1 hafter
    · exact (hafter uri.text).trans (if_pos rfl)
    · rw [Document.diagnostics_parse, Document.text_parse]
      rfl

theorem effect_closed : Effect s.workspace.opened (s.closed uri).1.workspace.opened
    (some (uri, false)) (publications (s.closed uri).2) := by
  refine .closed uri fun key => ?_
  rw [closed]
  simp only [Workspace.opened_close, Table.find?_erase]

/-- Parsing an opened document again, after the workspace has been changed at most in this
document. -/
theorem effect_reparse {ws ws' : Workspace} {status : ParseStatus} {settings : Settings}
    (hws : ∀ key, key ≠ uri.text → ws.opened.find? key = before.find? key)
    (hopen : (ws.opened.find? uri.text).isSome = (before.find? uri.text).isSome)
    (h : ws.reparse uri = .ok (ws', status)) :
    Effect before ws'.opened none (publications (publishStatus ⟨settings, ws'⟩ uri status)) := by
  cases hfind : ws.opened.find? uri.text with
  | none =>
    rw [Workspace.reparse_of_not_open hfind] at h
    cases h
  | some d =>
    rw [Workspace.reparse_of_open hfind] at h
    cases h
    rw [publications_publishStatus (d := d.parse.1)]
    · refine .parsed uri d.parse.1 (fun key => ?_) (by rw [← hopen, hfind, Option.isSome_some])
      rw [Table.find?_insert]
      split
      · rfl
      · rename_i hne
        exact hws key hne
    · exact Table.find?_insert_self
    · rw [Document.diagnostics_parse, Document.text_parse]

theorem effect_changed (version : Int) (changes : List Change) :
    Effect s.workspace.opened (s.changed uri version changes).1.workspace.opened none
      (publications (s.changed uri version changes).2) := by
  rw [changed]
  cases hfind : s.workspace.opened.find? uri.text with
  | none =>
    rw [Workspace.applyEdit_of_not_open hfind]
    exact .idle rfl
  | some d =>
    obtain ⟨edited, hedited⟩ : ∃ edited, s.workspace.applyEdit uri changes =
        .ok { s.workspace with opened := s.workspace.opened.insert uri.text edited } := by
      rw [Workspace.applyEdit, Workspace.entry, hfind]
      exact ⟨_, rfl⟩
    rw [hedited]
    simp only [Workspace.setVersion, Table.find?_insert_self]
    rw [Workspace.reparse_of_open Table.find?_insert_self]
    refine effect_reparse (fun key hne => ?_) ?_ (Workspace.reparse_of_open Table.find?_insert_self)
    · simp only [Table.find?_insert_of_ne hne]
    · rw [hfind, Table.find?_insert_self]
      rfl

theorem opened_rescan : (s.rescan files).1.workspace.opened = s.workspace.opened := by
  have hscan : (s.workspace.scan files s.workspace.folders s.settings).1.opened =
      s.workspace.opened :=
    Workspace.opened_scan files s.workspace.folders s.settings
  rw [rescan]
  split
  all_goals
    rename_i h
    rw [h] at hscan
    exact hscan

theorem publications_rescan : publications (s.rescan files).2 = [] := by
  rw [rescan]
  split <;> rfl

theorem effect_notify (n : Notification) :
    Effect s.workspace.opened (s.notify n).1.workspace.opened n.opensOrCloses?
      (publications (s.notify n).2) := by
  cases n with
  | opened uri languageName version text => exact effect_opened languageName version text
  | closed uri => exact effect_closed
  | changed uri version changes => exact effect_changed version changes
  | configurationChanged => exact .idle rfl
  | canceled id => exact .idle rfl
  | traceSet => exact .idle rfl
  | filesChanged => exact .idle rfl
  | malformed => exact .idle rfl
  | other method => exact .idle rfl

theorem effect_answer_reparse (id : RequestId) (uri? : Option Uri) :
    Effect s.workspace.opened (s.reparse id uri?).1.workspace.opened none
      (publications (s.reparse id uri?).2) := by
  cases uri? with
  | none => exact .idle rfl
  | some uri =>
    rw [reparse]
    split
    · exact .idle rfl
    · rename_i ws status h
      have hresult : publications [.result id .null] = [] := rfl
      rw [publications_append, hresult, append_nil]
      exact effect_reparse (fun _ _ => rfl) rfl h

theorem publication?_respond {α : Type} (id : RequestId) (encode : α → Json)
    (a : Except WorkspaceError α) : (respond id encode a).publication? = none := by
  cases a <;> rfl

theorem effect_answer (id : RequestId) (method : String) (q : Query) :
    Effect s.workspace.opened (s.answer files id method q).1.workspace.opened none
      (publications (s.answer files id method q).2) := by
  -- an answer to a question is no publication, whatever it says
  have hanswer {α : Type} (encode : α → Json) (a : Except WorkspaceError α) :
      Effect s.workspace.opened s.workspace.opened none (publications [respond id encode a]) := by
    rw [publications, filterMap_cons, publication?_respond]
    exact .idle rfl
  cases q with
  | shutdown => exact .idle rfl
  | completion uri place => exact hanswer _ _
  | hover uri place => exact hanswer _ _
  | definition uri place => exact hanswer _ _
  | symbols uri => exact hanswer _ _
  | formatting uri options => exact hanswer _ _
  | rescan =>
    rw [answer]
    simp only [publications_append, publications_rescan]
    exact .idle opened_rescan
  | reparse uri? => exact effect_answer_reparse id uri?
  | unknownCommand name => exact .idle rfl
  | malformed => exact .idle rfl
  | other => exact .idle rfl

theorem effect_receive (id : RequestId) (result : Option Json) :
    Effect s.workspace.opened (s.receive files id result).1.workspace.opened none
      (publications (s.receive files id result).2) := by
  unfold receive
  split
  · split
    · rw [configure]
      split
      · have hnone (settings : Settings) : publications (.log "source roots changed, rescanning" ::
            (rescan files { s with settings }).2) = [] :=
          publications_rescan
        rw [hnone]
        exact .idle opened_rescan
      · exact .idle rfl
    · exact .idle rfl
  · exact .idle rfl
  · exact .idle rfl

/-- **All that one message can do**, whatever it says. -/
theorem effect_step (files : FileTree) (s : Server) (message : Incoming) :
    Effect s.workspace.opened (s.step files message).1.workspace.opened message.opensOrCloses?
      (publications (s.step files message).2) := by
  cases message with
  | request id method params => exact effect_answer id method _
  | response id result => exact effect_receive id result
  | notification method params => exact effect_notify _

/-! ## Sessions -/

/-- The state behind the messages of a session, and what is sent. -/
def session (files : FileTree) (s : Server) : List Json → Server × List Outgoing
  | [] => (s, [])
  | j :: js =>
    match Incoming.shape j with
    | none => (s, [])
    | some message =>
      let (s, sent) := s.step files message
      if isLast message then (s, sent)
      else
        let (s, rest) := session files s js
        (s, sent ++ rest)

theorem run_eq_session (messages : List Json) :
    s.run files messages = (s.session files messages).2 := by
  induction messages generalizing s with
  | nil => rfl
  | cons j js ih =>
    rw [run, session]
    cases Incoming.shape j with
    | none => rfl
    | some message =>
      simp only
      split
      · rfl
      · rw [ih]

/-- **A session keeps what was last published current.** -/
theorem IsCurrent.session (messages : List Json) (h : IsCurrent uri s.workspace.opened sent) :
    IsCurrent uri (s.session files messages).1.workspace.opened
      (sent ++ (s.session files messages).2) := by
  induction messages generalizing s sent with
  | nil =>
    rw [Server.session, append_nil]
    exact h
  | cons j js ih =>
    rw [Server.session]
    cases Incoming.shape j with
    | none =>
      rw [append_nil]
      exact h
    | some message =>
      have hstep := h.step (effect_step files s message)
      simp only
      split
      · exact hstep
      · rw [← append_assoc]
        exact ih hstep

/-- The messages that the server handles: up to the last one, or to one that is no message. -/
def handled : List Json → List Incoming
  | [] => []
  | j :: js =>
    match Incoming.shape j with
    | none => []
    | some message => message :: if isLast message then [] else handled js

/-- A document is open behind the messages: one of them opens it in a known language, and none
closes it since. -/
def StaysOpen (uri : Uri) : List Incoming → Prop
  | [] => False
  | m :: ms =>
    m.opensOrCloses? = some (uri, true) ∧ (∀ m ∈ ms, m.opensOrCloses? ≠ some (uri, false)) ∨
      StaysOpen uri ms

/-- A document is open behind a message that opens it, or if it was open and is not closed. -/
theorem Effect.isSome_find? {published : List Publication}
    (h : Effect before after event published) : (after.find? uri.text).isSome ↔
      event = some (uri, true) ∨ (before.find? uri.text).isSome ∧ event ≠ some (uri, false) := by
  cases h with
  | idle h => simp [h]
  | opened other d h | parsed other d h hopen | closed other h =>
    rw [h]
    by_cases heq : uri = other
    · subst heq
      simp [*]
    · have htext : uri.text ≠ other.text := fun htext => heq (congrArg Uri.mk htext)
      simp [htext, Ne.symm heq]

/-- **Which documents are open follows from the messages.** -/
theorem isOpen_session (messages : List Json) :
    ((s.session files messages).1.workspace.opened.find? uri.text).isSome ↔
      StaysOpen uri (handled messages) ∨ (s.workspace.opened.find? uri.text).isSome ∧
        ∀ m ∈ handled messages, m.opensOrCloses? ≠ some (uri, false) := by
  induction messages generalizing s with
  | nil => simp [session, handled, StaysOpen]
  | cons j js ih =>
    rw [session, handled]
    cases Incoming.shape j with
    | none => simp [StaysOpen]
    | some message =>
      have hstep := effect_step files s message
      simp only [StaysOpen, forall_mem_cons]
      split
      · simp only [StaysOpen, not_mem_nil]
        rw [hstep.isSome_find?]
        tauto
      · rw [ih, hstep.isSome_find?]
        tauto

/-- Nothing is open and nothing published before the first message is answered. -/
theorem opened_welcome {id : RequestId} {params : Json} {greetings : List Outgoing}
    (h : welcome? files id params = some (s, greetings)) :
    s.workspace.opened = .empty ∧ publications greetings = [] := by
  rw [welcome?] at h
  obtain ⟨client, -, h⟩ := Option.bind_eq_some_iff.1 h
  split at h
  · cases h
    exact ⟨rfl, rfl⟩
  · simp only [Option.pure_def, Option.some.injEq, Prod.mk.injEq] at h
    obtain ⟨rfl, rfl⟩ := h
    refine ⟨opened_rescan, ?_⟩
    rw [publications_append, publications_rescan]
    rfl

/-- **Published diagnostics are current.** Whatever an editor sends, what was last published for an
opened document are the diagnostics of its current text, none exactly if that text parses, with its
current version; and what was last published for a document that is not open, if anything was, is
empty. A document is open exactly if it was opened in a known language, and not closed since. -/
theorem published_current_after (files : FileTree) (id : RequestId) (params : Json)
    {s₀ : Server} {greetings : List Outgoing}
    (hwelcome : welcome? files id params = some (s₀, greetings)) (messages : List Json)
    (uri : Uri) :
    let s := (s₀.session files messages).1
    let sent := greetings ++ s₀.run files messages
    (∀ d, s.workspace.entry uri = .ok d →
      ∃ published, lastPublished? uri sent = some published ∧ published.version = d.version ∧
        published.items =
          statusDiagnostics ((Source.parse d.language d.text).map fun _ => ()) d.text ∧
        (published.items = [] ↔ ∃ source, Source.parse d.language d.text = .ok source)) ∧
    (s.workspace.entry uri = .error (.notOpen uri) →
      ∀ published, lastPublished? uri sent = some published → published.items = []) ∧
    ((∃ d, s.workspace.entry uri = .ok d) ↔ StaysOpen uri (handled messages)) := by
  intro s sent
  obtain ⟨hempty, hnone⟩ := opened_welcome hwelcome
  have hcurrent : IsCurrent uri s.workspace.opened sent := by
    have hstart : IsCurrent uri s₀.workspace.opened greetings := by
      rw [IsCurrent, hempty, lastPublished?, hnone]
      intro p hp
      cases hp
    have h : IsCurrent uri s.workspace.opened _ := hstart.session messages
    rwa [← run_eq_session] at h
  have hopen : (s.workspace.opened.find? uri.text).isSome ↔ StaysOpen uri (handled messages) := by
    have hsession : ((s₀.session files messages).1.workspace.opened.find? uri.text).isSome ↔ _ :=
      isOpen_session messages
    rw [hempty, Table.find?_empty] at hsession
    simpa using hsession
  rw [← hopen]
  rw [IsCurrent] at hcurrent
  rw [Workspace.entry]
  cases hfind : s.workspace.opened.find? uri.text with
  | some d =>
    rw [hfind] at hcurrent
    refine ⟨fun d' hd' => ?_, fun h => ?_, iff_of_true ⟨d, rfl⟩ rfl⟩
    · cases hd'
      exact ⟨_, hcurrent, rfl, rfl, Document.diagnostics_eq_nil_iff⟩
    · cases h
  | none =>
    rw [hfind] at hcurrent
    refine ⟨fun d' hd' => ?_, fun _ => hcurrent, by simp⟩
    cases hd'

/-- A text that a change breaks: the last publication has the diagnostics of the broken text, and
carries the version of the change. -/
theorem published_current_after_breaking_change :
    let uri : Uri := ⟨"file:///a.ls"⟩
    let params := Json.object [("capabilities", .object [])]
    let messages := [
      Json.object [("method", .string "textDocument/didOpen"), ("params", .object [("textDocument",
        .object [("uri", .string "file:///a.ls"), ("languageId", .string "tp"),
          ("version", .integer 1), ("text", .string "/PROG A\n/MN\n/END")])])],
      Json.object [("method", .string "textDocument/didChange"), ("params", .object [
        ("textDocument", .object [("uri", .string "file:///a.ls"), ("version", .integer 2)]),
        ("contentChanges", .array [.object [("text", .string "/PROG")]])])]]
    ∃ s₀ greetings d published,
      welcome? .empty (.number 0) params = some (s₀, greetings) ∧
      (s₀.session .empty messages).1.workspace.entry uri = .ok d ∧ d.text = "/PROG" ∧
      lastPublished? uri (greetings ++ s₀.run .empty messages) = some published ∧
      published.version = some 2 ∧ published.items ≠ [] := by
  intro uri params messages
  have hview : (welcome? .empty (.number 0) params).map (fun (s₀, _) =>
      ((s₀.session .empty messages).1.workspace.opened.find? uri.text).map fun d =>
        (d.text, d.version, d.diagnostics.length)) = some (some ("/PROG", some 2, 1)) := by
    decide +kernel
  obtain ⟨⟨s₀, greetings⟩, hwelcome, hfind⟩ := Option.map_eq_some_iff.1 hview
  obtain ⟨d, hd, heq⟩ := Option.map_eq_some_iff.1 hfind
  obtain ⟨htext, hversion, hlength⟩ : d.text = "/PROG" ∧ d.version = some 2 ∧
      d.diagnostics.length = 1 := by simpa using heq
  have hentry : (s₀.session .empty messages).1.workspace.entry uri = .ok d := by
    rw [Workspace.entry, hd]
  obtain ⟨published, hlast, hv, hitems, -⟩ :=
    (published_current_after .empty (.number 0) params hwelcome messages uri).1 d hentry
  refine ⟨s₀, greetings, d, published, hwelcome, hentry, htext, hlast, hv.trans hversion, ?_⟩
  intro hnil
  have hdiagnostics : d.diagnostics = [] := hitems.symm.trans hnil
  rw [hdiagnostics] at hlength
  cases hlength

end Server

end RobotSource
