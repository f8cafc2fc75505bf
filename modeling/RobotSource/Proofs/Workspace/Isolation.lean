import RobotSource.Proofs.Workspace.LastProgram
/-!
# A document that is opened and closed again

What an editor does to one document while it is open leaves no trace once the document is closed:
neither in the workspace nor in the answers to what was done to other documents meanwhile. Two runs
are followed side by side, one with the session of the document and one without it (`Beside`). They
agree but for the document itself; and where the document is not known as well, the index of the
first run lists its address somewhere among those of the second. An operation on another document
keeps this and has the same answer in both runs (`Beside.run_other`); one of the session changes the
first run only, and keeps it too (`Beside.run_own`). Once the document is closed nothing is left to
differ in (`Beside.eq_of_closed`).
-/

namespace RobotSource

open List

/-! ## Operations and their answers -/

namespace Operation

variable {d : Document} {version : Option Int} {language : Language}

/-- Whether an operation is about the document of an address. -/
def isOn (uri : Uri) (operation : Operation) : Bool :=
  operation.uri? == some uri

/-- What an operation answers: whether it is refused, and how a text that it parses was parsed. -/
def answer (ws : Workspace) : Operation → Except WorkspaceError (Option ParseStatus)
  | .openText uri language text version =>
    .ok (some (ws.openDocument (.ofText uri language text version)).2)
  | .close _ => .ok none
  | .addKnown uri language text version =>
    .ok (some (ws.addKnown (.ofText uri language text version)).2)
  | .applyEdit uri changes => (ws.applyEdit uri changes).map fun _ => none
  | .setVersion _ _ => .ok none
  | .reparse uri => (ws.reparse uri).map fun result => some result.2
  | .scan files folders settings => (ws.scan files folders settings).2.map fun _ => none

end Operation

namespace Workspace

variable {ws ws' : Workspace} {uri other : Uri} {key text : String}
variable {operation : Operation} {operations : List Operation}

/-- The operations of a run, each with its answer. -/
def answers (ws : Workspace) :
    List Operation → List (Operation × Except WorkspaceError (Option ParseStatus))
  | [] => []
  | operation :: rest => (operation, operation.answer ws) :: answers (operation.run ws) rest

/-- The workspaces that can come about: by operations from the empty one, with folders and encoding
set at any time. -/
inductive Reachable : Workspace → Prop
  | empty : Reachable .empty
  | run {ws : Workspace} (operation : Operation) : Reachable ws → Reachable (operation.run ws)
  | configure {ws : Workspace} (folders : List Uri) (encoding : Text.Encoding) :
    Reachable ws → Reachable { ws with folders, encoding }

theorem Reachable.indexed (h : Reachable ws) : Indexed ws := by
  induction h with
  | empty => exact .empty
  | run operation _ ih => exact ih.run operation
  | configure folders encoding _ ih => exact ⟨ih.opened_uri, ih.known_uri, ih.lists⟩

/-! ## Edits -/

/-- The answer to an edit depends on the document alone. -/
theorem answer_edit (hedit : operation.isEdit) (huri : operation.uri? = some uri)
    (hfind : ws.opened.find? uri.text = ws'.opened.find? uri.text) :
    operation.answer ws = operation.answer ws' := by
  cases operation with
  | applyEdit target changes =>
    obtain rfl := Option.some.inj huri
    rw [Operation.answer, Operation.answer, applyEdit, applyEdit, entry, entry, hfind]
    cases ws'.opened.find? target.text <;> rfl
  | setVersion target version => rfl
  | reparse target =>
    obtain rfl := Option.some.inj huri
    rw [Operation.answer, Operation.answer, reparse, reparse, entry, entry, hfind]
    cases ws'.opened.find? target.text <;> rfl
  | _ => cases hedit

/-! ## The addresses under a name -/

/-- Taking out an address takes it out everywhere, as it stands under its own name only. -/
theorem listed_unindex_eq_filter {P : String → Prop} (h : ListsExactly ws.names P) :
    (ws.unindex uri).listed key = (ws.listed key).filter (· != uri.text) := by
  rw [listed_unindex]
  split
  · rfl
  · rename_i hkey
    refine (filter_eq_self.2 fun t ht => bne_iff_ne.2 ?_).symm
    rintro rfl
    exact hkey (h.mem_listed_iff.1 ht).2.symm

theorem listed_openDocument :
    (ws.openDocument d).1.listed key = (ws.index d.uri).listed key := by
  rw [← Document.uri_parse (d := d)]
  rfl

theorem listed_addKnown :
    (ws.addKnown d).1.listed key = (ws.index d.uri).listed key := by
  rw [← Document.uri_parse (d := d)]
  rfl

theorem listed_close (h : Indexed ws) :
    (ws.close uri).listed key =
      if ws.opened.contains uri.text && !ws.known.contains uri.text then
        (ws.listed key).filter (· != uri.text)
      else ws.listed key := by
  rw [close]
  split
  · exact listed_unindex_eq_filter h.lists
  · rfl

/-- An index without empty lists is determined by the lists. -/
theorem names_eq_of_listed (h : Indexed ws) (h' : Indexed ws')
    (hlisted : ∀ key, ws.listed key = ws'.listed key) : ws.names = ws'.names := by
  refine Table.ext_find? fun key => ?_
  have hkey := hlisted key
  have hne := h.lists.nonempty key
  have hne' := h'.lists.nonempty key
  rw [listed, listed] at hkey
  cases hfind : ws.names.find? key <;> cases hfind' : ws'.names.find? key <;> simp_all

/-! ## Two runs side by side -/

/-- Two tables that agree but for one key, which the second does not have. -/
structure AgreeBut (key : String) (t t' : Table Document) : Prop where
  agree : ∀ k, k ≠ key → t.find? k = t'.find? k
  absent : t'.find? key = none

namespace AgreeBut

variable {t t' : Table Document} {k : String} {d : Document}

theorem insert (h : AgreeBut key t t') (hk : k ≠ key) :
    AgreeBut key (t.insert k d) (t'.insert k d) where
  agree k' hk' := by rw [Table.find?_insert, Table.find?_insert, h.agree k' hk']
  absent := by rw [Table.find?_insert_of_ne hk.symm, h.absent]

theorem erase (h : AgreeBut key t t') : AgreeBut key (t.erase k) (t'.erase k) where
  agree k' hk' := by rw [Table.find?_erase, Table.find?_erase, h.agree k' hk']
  absent := by rw [Table.find?_erase, h.absent, ite_self]

theorem insert_own (h : AgreeBut key t t') : AgreeBut key (t.insert key d) t' where
  agree k' hk' := by rw [Table.find?_insert_of_ne hk', h.agree k' hk']
  absent := h.absent

theorem erase_own (h : AgreeBut key t t') : AgreeBut key (t.erase key) t' where
  agree k' hk' := by rw [Table.find?_erase, if_neg hk', h.agree k' hk']
  absent := h.absent

end AgreeBut

/-- Whether an address stays in the index while the document of the given address is not open: any
other does, and this one if the document is known. -/
def staysListed (ws : Workspace) (uri : Uri) (text : String) : Bool :=
  text != uri.text || ws.known.contains text

theorem staysListed_of_ne (h : text ≠ uri.text) : ws.staysListed uri text := by
  rw [staysListed, bne_iff_ne.2 h, Bool.true_or]

theorem staysListed_close : (ws.close other).staysListed uri = ws.staysListed uri := by
  funext t
  rw [staysListed, staysListed, known_close]

/-- The first workspace is the second with the document of an address open as well, or closed
again. -/
structure Beside (uri : Uri) (ws ws' : Workspace) : Prop where
  indexed : Indexed ws
  indexed' : Indexed ws'
  folders : ws.folders = ws'.folders
  encoding : ws.encoding = ws'.encoding
  known : ws.known = ws'.known
  opened : AgreeBut uri.text ws.opened ws'.opened
  listed : ∀ key, (ws.listed key).filter (ws.staysListed uri) = ws'.listed key

namespace Beside

theorem refl (h : Indexed ws) (hclosed : ws.opened.find? uri.text = none) : Beside uri ws ws where
  indexed := h
  indexed' := h
  folders := rfl
  encoding := rfl
  known := rfl
  opened := ⟨fun _ _ => rfl, hclosed⟩
  listed key := by
    refine filter_eq_self.2 fun t ht => ?_
    obtain ⟨hopen | hknown, -⟩ := (h.lists.mem_iff key t).1 ht
    · refine staysListed_of_ne fun heq => ?_
      rw [Table.contains, heq, hclosed] at hopen
      cases hopen
    · rw [staysListed, hknown, Bool.or_true]

/-- **Once the document is closed, the two workspaces are the same.** -/
theorem eq_of_closed (h : Beside uri ws ws') (hclosed : ws.opened.find? uri.text = none) :
    ws = ws' := by
  have hopened : ws.opened = ws'.opened := by
    refine Table.ext_find? fun k => ?_
    by_cases hk : k = uri.text
    · rw [hk, hclosed, h.opened.absent]
    · exact h.opened.agree k hk
  have hnames : ws.names = ws'.names := by
    refine names_eq_of_listed h.indexed h.indexed' fun key => ?_
    rw [← h.listed key, (refl h.indexed hclosed).listed key]
  obtain ⟨folders, encoding, opened, known, names⟩ := ws
  exact Workspace.mk.injEq .. ▸ ⟨h.folders, h.encoding, hopened, h.known, hnames⟩

/-! ## Steps of both runs -/

theorem find?_opened (h : Beside uri ws ws') (hne : other.text ≠ uri.text) :
    ws.opened.find? other.text = ws'.opened.find? other.text :=
  h.opened.agree _ hne

/-- Entering another address adds it to both lists, or to none. -/
theorem filter_listed_index {keep : String → Bool} (hkeep : keep other.text)
    (h : (ws.listed key).filter keep = ws'.listed key) :
    ((ws.index other).listed key).filter keep = (ws'.index other).listed key := by
  have hmem : other.text ∈ ws'.listed key ↔ other.text ∈ ws.listed key := by
    rw [← h, mem_filter, and_iff_left hkeep]
  rw [listed_index, listed_index]
  by_cases hnew : key = nameKey other ∧ other.text ∉ ws.listed key
  · rw [if_pos hnew, if_pos ⟨hnew.1, fun hmem' => hnew.2 (hmem.1 hmem')⟩, filter_append, h,
      filter_singleton, hkeep, cond_true]
  · rw [if_neg hnew, if_neg fun hnew' => hnew ⟨hnew'.1, fun hmem' => hnew'.2 (hmem.2 hmem')⟩, h]

theorem openDocument (h : Beside uri ws ws') (hne : d.uri.text ≠ uri.text) :
    Beside uri (ws.openDocument d).1 (ws'.openDocument d).1 where
  indexed := h.indexed.openDocument d
  indexed' := h.indexed'.openDocument d
  folders := h.folders
  encoding := h.encoding
  known := h.known
  opened := by
    rw [opened_openDocument, opened_openDocument]
    exact h.opened.insert hne
  listed key := by
    rw [listed_openDocument, listed_openDocument]
    exact filter_listed_index (staysListed_of_ne hne) (h.listed key)

theorem addKnown (h : Beside uri ws ws') (hne : d.uri.text ≠ uri.text) :
    Beside uri (ws.addKnown d).1 (ws'.addKnown d).1 where
  indexed := h.indexed.addKnown d
  indexed' := h.indexed'.addKnown d
  folders := h.folders
  encoding := h.encoding
  known := by simp only [Workspace.addKnown, known_index, h.known]
  opened := h.opened
  listed key := by
    have hstays : (ws.addKnown d).1.staysListed uri = ws.staysListed uri := by
      funext t
      by_cases ht : t = uri.text
      · have hne' : t ≠ d.parse.1.uri.text := by rw [Document.uri_parse, ht]; exact hne.symm
        simp only [staysListed, Workspace.addKnown, known_index, Table.contains,
          Table.find?_insert_of_ne hne']
      · rw [staysListed_of_ne ht, staysListed_of_ne ht]
    rw [hstays, listed_addKnown, listed_addKnown]
    exact filter_listed_index (staysListed_of_ne hne) (h.listed key)

theorem close (h : Beside uri ws ws') (hne : other.text ≠ uri.text) :
    Beside uri (ws.close other) (ws'.close other) where
  indexed := h.indexed.close other
  indexed' := h.indexed'.close other
  folders := by rw [folders_close, folders_close, h.folders]
  encoding := by rw [encoding_close, encoding_close, h.encoding]
  known := by rw [known_close, known_close, h.known]
  opened := by
    rw [opened_close, opened_close]
    exact h.opened.erase
  listed key := by
    have hcontains : ws.opened.contains other.text = ws'.opened.contains other.text := by
      rw [Table.contains, Table.contains, h.find?_opened hne]
    rw [staysListed_close, listed_close h.indexed, listed_close h.indexed', hcontains, h.known, ← h.listed key]
    split
    · rw [filter_comm]
    · rfl

/-- An edit of another document is refused in both runs, or replaces the same document by the same
one. -/
theorem edit (h : Beside uri ws ws') (hne : other.text ≠ uri.text) (hedit : operation.isEdit)
    (huri : operation.uri? = some other) : operation.answer ws = operation.answer ws' ∧
      Beside uri (operation.run ws) (operation.run ws') := by
  have hfind := h.find?_opened hne
  refine ⟨answer_edit hedit huri hfind, ?_⟩
  have hindexed := h.indexed.run operation
  have hindexed' := h.indexed'.run operation
  rw [run_edit hedit huri] at hindexed hindexed'
  rw [run_edit hedit huri, run_edit hedit huri]
  cases hd : ws'.opened.find? other.text with
  | none =>
    rw [hfind.trans hd]
    exact h
  | some d =>
    rw [hfind.trans hd] at hindexed ⊢
    rw [hd] at hindexed'
    have hopened := h.opened.insert (d := operation.edited ws.encoding d) hne
    exact { h with
      indexed := hindexed
      indexed' := hindexed'
      opened := h.encoding ▸ hopened }

/-- **An operation on another document has the same answer in both runs**, and they stay side by
side. -/
theorem run_other (h : Beside uri ws ws') (huri : operation.uri? = some other)
    (hne : other.text ≠ uri.text) : operation.answer ws = operation.answer ws' ∧
      Beside uri (operation.run ws) (operation.run ws') := by
  cases operation with
  | openText target language text version =>
    obtain rfl := Option.some.inj huri
    exact ⟨rfl, h.openDocument hne⟩
  | close target =>
    obtain rfl := Option.some.inj huri
    exact ⟨rfl, h.close hne⟩
  | addKnown target language text version =>
    obtain rfl := Option.some.inj huri
    exact ⟨rfl, h.addKnown hne⟩
  | applyEdit => exact h.edit hne rfl huri
  | setVersion => exact h.edit hne rfl huri
  | reparse => exact h.edit hne rfl huri
  | scan => cases huri

/-! ## Steps of the session -/

theorem editOwn (h : Beside uri ws ws') (hedit : operation.isEdit)
    (huri : operation.uri? = some uri) : Beside uri (operation.run ws) ws' := by
  have hindexed := h.indexed.run operation
  rw [run_edit hedit huri] at hindexed ⊢
  cases hd : ws.opened.find? uri.text with
  | none => exact h
  | some d =>
    rw [hd] at hindexed
    exact { h with indexed := hindexed, opened := h.opened.insert_own }

/-- Where the document is known its address is listed already; otherwise the address does not
count. -/
theorem openOwn (h : Beside uri ws ws') (huri : d.uri = uri) :
    Beside uri (ws.openDocument d).1 ws' where
  indexed := h.indexed.openDocument d
  indexed' := h.indexed'
  folders := h.folders
  encoding := h.encoding
  known := h.known
  opened := by
    rw [opened_openDocument, huri]
    exact h.opened.insert_own
  listed key := by
    have hstays : (ws.openDocument d).1.staysListed uri = ws.staysListed uri := rfl
    rw [hstays, listed_openDocument, listed_index, huri, ← h.listed key]
    split
    · rename_i hnew
      -- an address that is not listed yet belongs to a document that is not known
      have hunknown : ws.staysListed uri uri.text = false := by
        rw [staysListed, bne_self_eq_false, Bool.false_or, ← Bool.not_eq_true]
        intro hknown
        exact hnew.2 ((h.indexed.lists.mem_iff key uri.text).2 ⟨.inr hknown, hnew.1.symm⟩)
      rw [filter_append, filter_singleton, hunknown, cond_false, append_nil]
    · rfl

theorem closeOwn (h : Beside uri ws ws') : Beside uri (ws.close uri) ws' where
  indexed := h.indexed.close uri
  indexed' := h.indexed'
  folders := folders_close.trans h.folders
  encoding := encoding_close.trans h.encoding
  known := known_close.trans h.known
  opened := by
    rw [opened_close]
    exact h.opened.erase_own
  listed key := by
    rw [staysListed_close, listed_close h.indexed, ← h.listed key]
    split
    · rename_i hgone
      -- what is kept of the list did not hold the address before
      simp only [Bool.and_eq_true, Bool.not_eq_true'] at hgone
      rw [filter_filter]
      refine filter_congr fun t _ => ?_
      by_cases ht : t = uri.text
      · simp [staysListed, ht, hgone.2]
      · simp [staysListed, ht]
    · rfl

/-- **An operation of the session keeps the second run as it is.** -/
theorem run_own (h : Beside uri ws ws') (huri : operation.uri? = some uri)
    (hknown : ∀ language text version, operation ≠ .addKnown uri language text version) :
    Beside uri (operation.run ws) ws' := by
  cases operation with
  | openText target language text version =>
    obtain rfl := Option.some.inj huri
    exact h.openOwn rfl
  | close target =>
    obtain rfl := Option.some.inj huri
    exact h.closeOwn
  | addKnown target language text version =>
    obtain rfl := Option.some.inj huri
    exact absurd rfl (hknown language text version)
  | applyEdit => exact h.editOwn rfl huri
  | setVersion => exact h.editOwn rfl huri
  | reparse => exact h.editOwn rfl huri
  | scan => cases huri

end Beside

/-! ## Whole runs -/

theorem answers_append (ws : Workspace) (first second : List Operation) :
    answers ws (first ++ second) =
      answers ws first ++ answers (first.foldl Operation.run ws) second := by
  induction first generalizing ws with
  | nil => rfl
  | cons operation rest ih => rw [cons_append, answers, ih]; rfl

theorem filter_answers {p : Operation → Bool} (h : ∀ operation ∈ operations, p operation)
    (ws : Workspace) : (answers ws operations).filter (p ·.1) = answers ws operations := by
  induction operations generalizing ws with
  | nil => rfl
  | cons operation rest ih =>
    obtain ⟨hoperation, hrest⟩ := forall_mem_cons.1 h
    rw [answers, filter_cons, if_pos hoperation, ih hrest]

/-- **Runs with and without the session stay side by side**, and what is done to other documents has
the same answers in both. -/
theorem Beside.foldl_run (h : Beside uri ws ws')
    (hsingle : ∀ operation ∈ operations, operation.uri?.isSome)
    (hsession : ∀ operation ∈ operations, operation.isOn uri →
      ∀ language text version, operation ≠ .addKnown uri language text version) :
    let others := operations.filter fun operation => !operation.isOn uri
    Beside uri (operations.foldl Operation.run ws) (others.foldl Operation.run ws') ∧
      (answers ws operations).filter (fun a => !a.1.isOn uri) = answers ws' others := by
  induction operations generalizing ws ws' with
  | nil => exact ⟨h, rfl⟩
  | cons operation rest ih =>
    obtain ⟨hsome, hsingle⟩ := forall_mem_cons.1 hsingle
    obtain ⟨hown, hsession⟩ := forall_mem_cons.1 hsession
    obtain ⟨other, hother⟩ := Option.isSome_iff_exists.1 hsome
    cases hon : operation.isOn uri with
    | true =>
      have hstep := h.run_own (beq_iff_eq.1 hon) (hown hon)
      simpa only [answers, filter_cons, hon, Bool.not_true, Bool.false_eq_true, if_false,
        foldl_cons] using ih hstep hsingle hsession
    | false =>
      have hne : other.text ≠ uri.text := by
        intro heq
        have hsame : other = uri := congrArg Uri.mk heq
        rw [Operation.isOn, hother, hsame, beq_self_eq_true] at hon
        cases hon
      obtain ⟨hanswer, hstep⟩ := h.run_other hother hne
      obtain ⟨hrun, hanswers⟩ := ih hstep hsingle hsession
      simp only [answers, filter_cons, hon, Bool.not_false, if_true, foldl_cons]
      exact ⟨hrun, by rw [hanswer, hanswers]⟩

/-- A session ends with its close: up to there nothing makes the document known, and behind it
nothing is about the document. -/
theorem exists_closing {edits : List Operation}
    (hsession : operations.filter (·.isOn uri) =
      .openText uri language text version :: edits ++ [.close uri])
    (hedits : ∀ operation ∈ edits, operation.isEdit) :
    ∃ first behind, operations = first ++ behind ∧ (∃ before, first = before ++ [.close uri]) ∧
      (∀ operation ∈ first, operation.isOn uri →
        ∀ language text version, operation ≠ .addKnown uri language text version) ∧
      ∀ operation ∈ behind, (!operation.isOn uri) = true := by
  obtain ⟨before, rest, rfl, hbefore, hrest⟩ := filter_eq_append_iff.1 hsession
  obtain ⟨between, behind, rfl, hbetween, -, hbehind⟩ := filter_eq_cons_iff.1 hrest
  refine ⟨before ++ between ++ [.close uri], behind, by simp, ⟨_, rfl⟩, ?_,
    by simpa using filter_eq_nil_iff.1 hbehind⟩
  rintro operation hmem hon language' text' version' rfl
  rw [mem_append, mem_append] at hmem
  obtain (hmem | hmem) | hmem := hmem
  · -- the operations of the session are its opening and its edits
    have hin := mem_filter.2 ⟨hmem, hon⟩
    rw [hbefore] at hin
    rcases mem_cons.1 hin with heq | hin
    · cases heq
    · cases hedits _ hin
  · exact hbetween _ hmem hon
  · cases mem_singleton.1 hmem

/-- **A document that is opened and closed again leaves no trace.** In a workspace in which it is not
open, let a run open it, change, version and parse it any number of times, and close it at last, with
any operations on other documents in between, before and after. The run ends in the workspace that
the operations on the other documents lead to by themselves, the order of the addresses under each
name included, and each of these has the same answer as by itself. -/
theorem session_leaves_no_trace (hws : Reachable ws) (hclosed : ws.opened.contains uri.text = false)
    {operations edits : List Operation}
    (hsession : operations.filter (·.isOn uri) =
      .openText uri language text version :: edits ++ [.close uri])
    (hedits : ∀ operation ∈ edits, operation.isEdit = true)
    (hothers : ∀ operation ∈ operations, operation.uri?.isSome = true) :
    let others := operations.filter fun operation => !operation.isOn uri
    operations.foldl Operation.run ws = others.foldl Operation.run ws ∧
      (answers ws operations).filter (fun a => !a.1.isOn uri) = answers ws others := by
  obtain ⟨first, behind, rfl, ⟨before, hlast⟩, hfirst, hbehind⟩ := exists_closing hsession hedits
  have hnone : ws.opened.find? uri.text = none := by
    simpa [Table.contains] using hclosed
  obtain ⟨hbeside, hanswers⟩ := (Beside.refl hws.indexed hnone).foldl_run
    (fun operation hmem => hothers operation (mem_append_left _ hmem)) hfirst
  -- at the close the two workspaces are one, and from there on so are the runs
  have heq := hbeside.eq_of_closed (by
    rw [hlast, foldl_append, foldl_cons, foldl_nil, Operation.run, opened_close,
      Table.find?_erase, if_pos rfl])
  intro others
  have hsplit : others = first.filter (fun operation => !operation.isOn uri) ++ behind := by
    simp only [others, filter_append, filter_eq_self.2 hbehind]
  rw [hsplit, foldl_append, foldl_append, answers_append, answers_append,
    filter_append, hanswers, heq, filter_answers hbehind]
  exact ⟨rfl, rfl⟩

/-- A listing is opened, broken and closed again while a Karel program of the same name is known and
another one is opened, so that three addresses share one list of the index. -/
theorem session_leaves_no_trace_shared_name :
    let uri : Uri := ⟨"file:///ws/a.ls"⟩
    let known : Uri := ⟨"file:///ws/A.kl"⟩
    let opened : Uri := ⟨"file:///lib/a.kl"⟩
    let ws := Operation.run .empty (.addKnown known .karel "PROGRAM A\nBEGIN\nEND A\n" none)
    let operations : List Operation :=
      [.openText uri .pendant "/PROG A\n/MN\n/POS\n/END\n" none,
        .openText opened .karel "PROGRAM" none, .applyEdit uri [⟨none, "/PROG"⟩], .reparse uri,
        .reparse opened, .close uri, .setVersion opened 2]
    let others : List Operation :=
      [.openText opened .karel "PROGRAM" none, .reparse opened, .setVersion opened 2]
    ((operations.take 2).foldl Operation.run ws).names.find? "a" =
        some [known.text, uri.text, opened.text] ∧
      operations.foldl Operation.run ws = others.foldl Operation.run ws ∧
      (answers ws operations).filter (fun a => !a.1.isOn uri) = answers ws others := by
  intro uri known opened ws operations others
  refine ⟨by decide +kernel, ?_⟩
  have hothers : others = operations.filter fun operation => !operation.isOn uri := by rfl
  rw [hothers]
  have hsession : operations.filter (·.isOn uri) =
      .openText uri .pendant "/PROG A\n/MN\n/POS\n/END\n" none ::
        [.applyEdit uri [⟨none, "/PROG"⟩], .reparse uri] ++ [.close uri] := by rfl
  exact session_leaves_no_trace (.run _ .empty) (by decide +kernel) hsession (by decide) (by decide)

end Workspace

end RobotSource
