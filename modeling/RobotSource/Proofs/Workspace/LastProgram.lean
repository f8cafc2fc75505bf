import RobotSource.Proofs.Workspace.Index
/-!
# The last program that parsed

An editor asks about a document while its text is broken, so an opened document keeps the program of
the last text that parsed. Which texts those are is a matter of the run and not of the document:
`attempts` follows a run and notes each text on which the document was opened or parsed again, the
latest first, and starts afresh where the document is opened. The invariant `KeepsLastProgram` says
that the stored program is that of the first of these texts that parses in the document's language.

Only opening and parsing again touch the stored program. Everything else leaves the opened documents
alone (`opened_scan`), or replaces one by another with the same program and language
(`KeepsLastProgram.replaceOpened`).
-/

namespace RobotSource

open Parsing Text

variable {d : Document} {uri : Uri} {ws : Workspace} {texts : List String}

/-- The program of the first text that parses. -/
def Source.firstParsed? (language : Language) (texts : List String) : Option Source :=
  texts.findSome? fun text => (Source.parse language text).toOption

theorem Source.parse_cases {language : Language} {text : String} {s : Source}
    (h : Source.parse language text = .ok s) :
    (∃ p, language = .pendant ∧ s = .pendant p ∧ Listing.Program.parse text = .ok p) ∨
      ∃ p, language = .karel ∧ s = .karel p ∧ Karel.Program.parse text = .ok p := by
  cases language with
  | pendant =>
    rw [Source.parse] at h
    cases hparse : Listing.Program.parse text <;> rw [hparse] at h <;> cases h
    exact .inl ⟨_, rfl, rfl, rfl⟩
  | karel =>
    rw [Source.parse] at h
    cases hparse : Karel.Program.parse text <;> rw [hparse] at h <;> cases h
    exact .inr ⟨_, rfl, rfl, rfl⟩

theorem Source.language_of_firstParsed? {language : Language} {s : Source}
    (h : Source.firstParsed? language texts = some s) : s.language = language := by
  obtain ⟨text, -, htext⟩ := List.exists_of_findSome?_eq_some h
  cases hparse : Source.parse language text with
  | error e =>
    rw [hparse] at htext
    cases htext
  | ok s' =>
    rw [hparse] at htext
    cases htext
    rcases Source.parse_cases hparse with ⟨p, rfl, rfl, -⟩ | ⟨p, rfl, rfl, -⟩ <;> rfl

/-! ## Documents -/

namespace Document

/-- A parse stores the program of the text, and failing that keeps the one there was. -/
theorem source_parse :
    d.parse.1.source = (Source.parse d.language d.text).toOption.or d.source := by
  unfold parse
  cases Source.parse d.language d.text <;> rfl

/-- A parse that fails leaves the document as it is. -/
theorem parse_eq_of_error {e : SyntaxError} (h : d.parse.2 = .error e) : d.parse.1 = d := by
  unfold parse at h ⊢
  split at h
  · cases h
  · rfl

end Document

namespace Workspace

/-! ## What the operations do to the opened documents -/

/-- A scan, stopped or not, is about known documents only. -/
theorem opened_scan (files : FileTree) (folders : List Uri) (settings : Settings) :
    (ws.scan files folders settings).1.opened = ws.opened :=
  scan_induction (I := fun ws' => ws'.opened = ws.opened) opened_forgetKnown fun _ _ _ _ _ _ h => h

/-! ## Refusals and failed parses -/

theorem applyEdit_of_not_open (h : ws.opened.find? uri.text = none) (changes : List Change) :
    ws.applyEdit uri changes = .error (.notOpen uri) := by
  rw [applyEdit, entry, h]
  rfl

theorem reparse_of_not_open (h : ws.opened.find? uri.text = none) :
    ws.reparse uri = .error (.notOpen uri) := by
  rw [reparse, entry, h]
  rfl

theorem reparse_of_open (h : ws.opened.find? uri.text = some d) :
    ws.reparse uri = .ok ({ ws with opened := ws.opened.insert uri.text d.parse.1 }, d.parse.2) := by
  rw [reparse, entry, h]
  rfl

/-- **A parse that fails leaves the whole workspace as it is.** -/
theorem eq_of_reparse_error {ws' : Workspace} {e : SyntaxError}
    (h : ws.reparse uri = .ok (ws', .error e)) : ws' = ws := by
  cases hfind : ws.opened.find? uri.text with
  | none =>
    rw [reparse_of_not_open hfind] at h
    cases h
  | some d =>
    rw [reparse_of_open hfind, Except.ok.injEq, Prod.mk.injEq] at h
    obtain ⟨rfl, hstatus⟩ := h
    rw [Document.parse_eq_of_error hstatus, Table.insert_of_find? hfind]

end Workspace

/-! ## The texts of a run -/

/-- The texts on which a document was parsed since it was opened, the latest first, after one more
operation. -/
def Operation.note (uri : Uri) (ws : Workspace) (texts : List String) : Operation → List String
  | .openText opened _ text _ => if opened.text = uri.text then [text] else texts
  | .reparse parsed =>
    if parsed.text = uri.text then ((ws.opened.find? uri.text).map (·.text)).toList ++ texts
    else texts
  | _ => texts

namespace Workspace

/-- The texts on which a document was parsed in a run since it was opened, the latest first. -/
def attempts (uri : Uri) (ws : Workspace) (texts : List String) : List Operation → List String
  | [] => texts
  | operation :: rest =>
    attempts uri (operation.run ws) (operation.note uri ws texts) rest

/-- If the document is open, its program is that of the latest of the texts that parses. -/
def KeepsLastProgram (uri : Uri) (ws : Workspace) (texts : List String) : Prop :=
  ∀ d, ws.opened.find? uri.text = some d → d.source = Source.firstParsed? d.language texts

namespace KeepsLastProgram

theorem empty (enc : Encoding) :
    KeepsLastProgram uri { Workspace.empty with encoding := enc } texts := by
  intro d hd
  cases hd

theorem of_opened {ws' : Workspace} (h : KeepsLastProgram uri ws texts)
    (hopened : ws'.opened = ws.opened) : KeepsLastProgram uri ws' texts := by
  intro d hd
  exact h d (hopened ▸ hd)

/-- Another document may be replaced by any, this one by one of the same program and language. -/
theorem replaceOpened {other : Uri} {e : Document} (h : KeepsLastProgram uri ws texts)
    (hfind : ws.opened.find? other.text = some d) (he : e.source = d.source ∧ e.language = d.language) :
    KeepsLastProgram uri { ws with opened := ws.opened.insert other.text e } texts := by
  intro d' hd'
  rw [Table.find?_insert] at hd'
  split at hd'
  · rename_i heq
    cases hd'
    rw [he.1, he.2]
    exact h d (heq ▸ hfind)
  · exact h d' hd'

theorem openText (h : KeepsLastProgram uri ws texts) (other : Uri) (language : Language)
    (text : String) (version : Option Int) :
    let operation := Operation.openText other language text version
    KeepsLastProgram uri (operation.run ws) (operation.note uri ws texts) := by
  intro operation d hd
  simp only [operation, Operation.run, opened_openDocument, Table.find?_insert] at hd
  simp only [operation, Operation.note]
  by_cases heq : other.text = uri.text
  · have hself : uri.text = (Document.ofText other language text version).uri.text := heq.symm
    rw [if_pos hself] at hd
    cases hd
    rw [if_pos heq, Document.source_parse, Document.language_parse]
    -- nothing is stored before the first parse
    simp [Source.firstParsed?, Document.ofText]
  · have hother : ¬uri.text = (Document.ofText other language text version).uri.text := Ne.symm heq
    rw [if_neg hother] at hd
    rw [if_neg heq]
    exact h d hd

theorem close (h : KeepsLastProgram uri ws texts) (other : Uri) :
    KeepsLastProgram uri (ws.close other) texts := by
  intro d hd
  rw [opened_close, Table.find?_erase] at hd
  split at hd
  · cases hd
  · exact h d hd

/-- So do the changes of the text and the notes of the version. -/
theorem edit {operation : Operation} {other : Uri} (h : KeepsLastProgram uri ws texts)
    (hedit : operation.isEdit) (huri : operation.uri? = some other)
    (hsame : ∀ d, (operation.edited ws.encoding d).source = d.source ∧
      (operation.edited ws.encoding d).language = d.language) :
    KeepsLastProgram uri (operation.run ws) texts := by
  rw [run_edit hedit huri]
  cases hfind : ws.opened.find? other.text with
  | none => exact h
  | some d => exact h.replaceOpened hfind (hsame d)

/-- Parsing again notes the current text: its program is stored if it parses, and otherwise the
earlier texts count as before. -/
theorem reparse (h : KeepsLastProgram uri ws texts) (other : Uri) :
    let operation := Operation.reparse other
    KeepsLastProgram uri (operation.run ws) (operation.note uri ws texts) := by
  intro operation
  simp only [operation, Operation.run, Operation.note]
  cases hfind : ws.opened.find? other.text with
  | none =>
    rw [reparse_of_not_open hfind]
    by_cases heq : other.text = uri.text
    · rw [if_pos heq, ← heq, hfind]
      exact h
    · rw [if_neg heq]
      exact h
  | some d =>
    rw [reparse_of_open hfind]
    intro d' hd'
    simp only [Table.find?_insert] at hd'
    by_cases heq : other.text = uri.text
    · rw [if_pos heq.symm] at hd'
      cases hd'
      rw [if_pos heq, ← heq, hfind, Document.source_parse, Document.language_parse,
        h d (heq ▸ hfind)]
      simp only [Source.firstParsed?, Option.map_some, Option.toList_some, List.singleton_append,
        List.findSome?_cons]
      cases (Source.parse d.language d.text).toOption <;> rfl
    · rw [if_neg (Ne.symm heq)] at hd'
      rw [if_neg heq]
      exact h d' hd'

/-- **Every operation keeps the last program that parsed.** -/
theorem run (h : KeepsLastProgram uri ws texts) (operation : Operation) :
    KeepsLastProgram uri (operation.run ws) (operation.note uri ws texts) := by
  cases operation with
  | openText other language text version => exact h.openText other language text version
  | close other => exact h.close other
  | addKnown other language text version => exact h.of_opened rfl
  | applyEdit other changes =>
    refine h.edit rfl rfl fun d => ?_
    obtain ⟨_, _, heq⟩ := Document.exists_foldl_applyChange ws.encoding d changes
    rw [Operation.edited, heq]
    exact ⟨rfl, rfl⟩
  | setVersion other version => exact h.edit rfl rfl fun _ => ⟨rfl, rfl⟩
  | reparse other => exact h.reparse other
  | scan files folders settings => exact h.of_opened (opened_scan files folders settings)

/-- **So does every run.** -/
theorem foldl_run (operations : List Operation) :
    ∀ {ws : Workspace} {texts : List String}, KeepsLastProgram uri ws texts →
      KeepsLastProgram uri (operations.foldl Operation.run ws) (attempts uri ws texts operations) := by
  induction operations with
  | nil => exact fun h => h
  | cons operation rest ih => exact fun h => ih (h.run operation)

end KeepsLastProgram

/-- **An opened document holds the last program that parsed.** After every run from an empty
workspace, the program of an opened document is that of the latest text that parses in its language,
among those on which it was opened or parsed again since it was last opened; it has none if none of
them parses. The program is a pendant program exactly if that is the language of the document. A
parse that fails changes nothing, and on a document that is not open neither changes nor a parse are
accepted, and nothing changes either. -/
theorem last_program_after (enc : Encoding) (operations : List Operation) (uri : Uri) :
    let start := { Workspace.empty with encoding := enc }
    let ws := operations.foldl Operation.run start
    (∀ d, ws.opened.find? uri.text = some d →
      d.source = (attempts uri start [] operations).findSome?
        (fun text => (Source.parse d.language text).toOption) ∧
      ∀ source, d.source = some source →
        ((∃ program, source = .pendant program) ↔ d.language = .pendant)) ∧
    (∀ ws' e, ws.reparse uri = .ok (ws', .error e) → ws' = ws) ∧
    (ws.opened.find? uri.text = none →
      (∀ changes, ws.applyEdit uri changes = .error (.notOpen uri) ∧
        Operation.run ws (.applyEdit uri changes) = ws) ∧
      ws.reparse uri = .error (.notOpen uri) ∧ Operation.run ws (.reparse uri) = ws) := by
  intro start ws
  have hlast : KeepsLastProgram uri ws (attempts uri start [] operations) :=
    KeepsLastProgram.foldl_run operations (.empty enc)
  refine ⟨fun d hd => ⟨hlast d hd, fun source hsource => ?_⟩, fun _ _ => eq_of_reparse_error,
    fun hclosed => ⟨fun changes => ⟨applyEdit_of_not_open hclosed changes, ?_⟩,
      reparse_of_not_open hclosed, ?_⟩⟩
  · have hlanguage : source.language = d.language :=
      Source.language_of_firstParsed? ((hlast d hd).symm.trans hsource)
    rw [← hlanguage]
    cases source <;> simp [Source.language]
  · rw [Operation.run, applyEdit_of_not_open hclosed]
  · rw [Operation.run, reparse_of_not_open hclosed]

/-- A text that is broken by an edit and parsed again: the document holds the program of the text it
was opened with. -/
theorem last_program_after_broken_edit :
    let uri : Uri := ⟨"file:///a.ls"⟩
    let listing := "/PROG A\n/MN\n/END"
    let operations : List Operation :=
      [.openText uri .pendant listing none, .applyEdit uri [⟨none, "/PROG"⟩], .reparse uri]
    ∃ d, (operations.foldl Operation.run .empty).opened.find? uri.text = some d ∧
      d.text = "/PROG" ∧ d.source.map Source.name = some "A" ∧
      d.source = ["/PROG", listing].findSome?
        fun text => (Source.parse d.language text).toOption := by
  intro uri listing operations
  have hview : ((operations.foldl Operation.run .empty).opened.find? uri.text).map
      (fun d => (d.text, d.source.map Source.name)) = some ("/PROG", some "A") := by
    decide +kernel
  have htexts : attempts uri .empty [] operations = ["/PROG", listing] := by
    decide +kernel
  obtain ⟨d, hd, heq⟩ := Option.map_eq_some_iff.1 hview
  have hlast := ((last_program_after .utf16 operations uri).1 d hd).1
  exact ⟨d, hd, congrArg Prod.fst heq, congrArg Prod.snd heq, htexts ▸ hlast⟩

end Workspace

end RobotSource
