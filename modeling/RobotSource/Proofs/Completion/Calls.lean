import RobotSource.Completion.Items
import RobotSource.Proofs.Parsing.Capitals
import RobotSource.Proofs.Uri.Characters
import RobotSource.Proofs.Workspace.LastProgram
/-!
# Completion of calls

Behind `CALL` and `RUN` every name of the workspace is offered once, in upper case. Which document
an offer describes and which one the name is looked up as are two choices: the offer takes the first
document of the name in the order of the addresses, the lookup prefers one that is open. They are
the same document exactly if no document of the name has an address before that of the one looked up
(`Workspace.find?_eq_some_iff_least`).

Names are compared in upper case here and in lower case by the lookup. The two agree on names in
ASCII (`upper_eq_upper_iff`), and the names of a workspace are: an address is read from a text or
made from the path of a file (`Workspace.Plain.after`).
-/

namespace RobotSource

open Parsing Text Uri List

/-! ## Upper and lower case -/

section LetterCase

variable {s t : String}
variable {x : Char}

theorem upperCase_of_lt (h : x.toNat < 128) : upperCase x = [x.toUpper] := by
  rw [upperCase, if_pos h]

theorem lower_of_isAscii (h : IsAscii s) : lower s = String.ofList (s.toList.map Char.toLower) := by
  rw [lower, map_eq_flatMap]
  exact congrArg String.ofList (flatMap_congr fun x hx => lowerCase_of_lt (h x hx))

theorem upper_of_isAscii (h : IsAscii s) : upper s = String.ofList (s.toList.map Char.toUpper) := by
  rw [upper, map_eq_flatMap]
  exact congrArg String.ofList (flatMap_congr fun x hx => upperCase_of_lt (h x hx))

theorem isAscii_upper (h : IsAscii s) : IsAscii (upper s) := by
  rw [upper_of_isAscii h]
  refine isAscii_ofList.2 fun x hx => ?_
  obtain ⟨y, hy, rfl⟩ := mem_map.1 hx
  exact toUpper_lt (h y hy)

theorem lower_upper (h : IsAscii s) : lower (upper s) = lower s := by
  rw [lower_of_isAscii (isAscii_upper h), lower_of_isAscii h, upper_of_isAscii h,
    String.toList_ofList, map_map]
  exact congrArg String.ofList (map_congr_left fun x _ => toLower_toUpper x)

theorem upper_lower (h : IsAscii s) : upper (lower s) = upper s := by
  have hlower : IsAscii (lower s) := by
    rw [lower_of_isAscii h]
    exact isAscii_ofList.2 (Ascii.map_toLower h)
  rw [upper_of_isAscii hlower, upper_of_isAscii h, lower_of_isAscii h, String.toList_ofList,
    map_map]
  exact congrArg String.ofList (map_congr_left fun x hx => toUpper_toLower (h x hx))

/-- **In ASCII two names are the same in upper case exactly if they are in lower case.** -/
theorem upper_eq_upper_iff (hs : IsAscii s) (ht : IsAscii t) :
    upper s = upper t ↔ lower s = lower t := by
  constructor
  · intro h
    rw [← lower_upper hs, h, lower_upper ht]
  · intro h
    rw [← upper_lower hs, h, upper_lower ht]

end LetterCase

/-! ## The addresses of a workspace -/

/-- The address under which an operation enters a document that the editor names. -/
def Operation.entered? : Operation → Option Uri
  | .openText uri _ _ _ => some uri
  | .addKnown uri _ _ _ => some uri
  | _ => none

namespace Workspace

variable {ws : Workspace} {uri : Uri} {d : Document} {name : String}

/-- All addresses of the workspace are ASCII. -/
def Plain (ws : Workspace) : Prop :=
  ∀ text, ws.Holds text → IsAscii text

namespace Plain

theorem of_holds {ws' : Workspace} (h : Plain ws) (hsub : ∀ text, ws'.Holds text → ws.Holds text) :
    Plain ws' :=
  fun text htext => h text (hsub text htext)

theorem addKnown (h : Plain ws) (hd : IsAscii d.uri.text) : Plain (ws.addKnown d).1 := by
  intro text htext
  simp only [Holds, Workspace.addKnown, opened_index, known_index, Table.contains_insert,
    Document.uri_parse] at htext
  rcases htext with hopen | hknown | rfl
  · exact h text (.inl hopen)
  · exact h text (.inr hknown)
  · exact hd

theorem openDocument (h : Plain ws) (hd : IsAscii d.uri.text) : Plain (ws.openDocument d).1 := by
  intro text htext
  simp only [Holds, Workspace.openDocument, opened_index, known_index, Table.contains_insert,
    Document.uri_parse] at htext
  rcases htext with (hopen | rfl) | hknown
  · exact h text (.inl hopen)
  · exact hd
  · exact h text (.inr hknown)

theorem close (h : Plain ws) : Plain (ws.close uri) := by
  refine h.of_holds fun text htext => ?_
  rw [Holds, opened_close, known_close, Table.contains_erase] at htext
  exact htext.imp And.left id

/-- A document may take the place of one that is open. -/
theorem replaceOpened {e : Document} (h : Plain ws)
    (hfind : ws.opened.find? uri.text = some d) :
    Plain { ws with opened := ws.opened.insert uri.text e } := by
  refine h.of_holds fun text htext => ?_
  simp only [Holds, Table.contains_insert] at htext
  rcases htext with (hopen | rfl) | hknown
  · exact .inl hopen
  · exact .inl (Table.contains_iff.2 ⟨d, hfind⟩)
  · exact .inr hknown

/-- A source is loaded under the address of its path. -/
theorem isAscii_of_loadSource {files : FileTree} {path text : String}
    (h : loadSource files path = .ok (uri, text)) : IsAscii uri.text := by
  unfold loadSource at h
  split at h
  · cases h
  · split at h
    · cases h
      exact isAscii_ofFilePath _
    · cases h
  · cases h

/-- An operation keeps the addresses ASCII if the one it enters is. -/
theorem run (h : Plain ws) (operation : Operation)
    (hentered : ∀ uri, operation.entered? = some uri → IsAscii uri.text) :
    Plain (operation.run ws) := by
  refine run_induction operation h (fun uri _ _ _ heq => h.openDocument (hentered uri (heq ▸ rfl)))
    (fun _ => h.close) (fun uri _ _ _ heq => h.addKnown (hentered uri (heq ▸ rfl)))
    (fun _ _ hfind => h.replaceOpened hfind) fun files folders settings => ?_
  refine scan_induction (h.of_holds fun text htext => ?_)
    fun _ _ _ _ _ hload h => h.addKnown (isAscii_of_loadSource hload)
  rw [Holds, opened_forgetKnown, known_forgetKnown] at htext
  exact .inl (htext.resolve_right Bool.false_ne_true)

/-- **The addresses are ASCII after every run that enters only addresses that can be read.** -/
theorem after {operations : List Operation}
    (h : ∀ operation ∈ operations, ∀ uri, operation.entered? = some uri →
      ∃ input, Uri.parse input = .ok uri) : Plain (after operations) := by
  have hempty : Plain .empty := by
    intro text htext
    simp [Holds, Workspace.empty, Table.contains] at htext
  suffices hrun : ∀ ws, Plain ws → Plain (operations.foldl Operation.run ws) from hrun _ hempty
  induction operations with
  | nil => exact fun _ hws => hws
  | cons operation rest ih =>
    intro ws hws
    obtain ⟨hfirst, hrest⟩ := forall_mem_cons.1 h
    refine ih hrest _ (hws.run operation fun uri huri => ?_)
    obtain ⟨input, hinput⟩ := hfirst uri huri
    exact isAscii_of_parse hinput

end Plain

/-- The names of documents are ASCII where the addresses are. -/
theorem Indexed.isAscii_of_mem_documents (h : Indexed ws) (hplain : Plain ws)
    (hd : d ∈ ws.documents) : IsAscii d.bareName :=
  isAscii_bareName (hplain _ (h.exists_mem_documents_iff.1 ⟨d, hd, rfl⟩))

/-! ## Two choices -/

/-- In a list that is in order the first element that fits is the least. -/
theorem find?_eq_some_iff_least {l : List Document} {p : Document → Bool}
    (hsorted : l.Pairwise fun a b => a.uri.text < b.uri.text) (hd : d ∈ l) (hp : p d) :
    l.find? p = some d ↔ ∀ e ∈ l, p e → ¬e.uri.text < d.uri.text := by
  rw [find?_eq_some_iff_append]
  constructor
  · rintro ⟨-, before, behind, rfl, hbefore⟩ e he hpe hlt
    rw [pairwise_append, pairwise_cons] at hsorted
    rcases mem_append.1 he with he | he
    · have := hbefore e he
      rw [hpe] at this
      cases this
    · rcases mem_cons.1 he with rfl | he
      · exact String.lt_irrefl _ hlt
      · exact String.lt_irrefl _ (String.lt_trans hlt (hsorted.2.1.1 e he))
  · intro hleast
    obtain ⟨before, behind, rfl⟩ := append_of_mem hd
    refine ⟨hp, before, behind, rfl, fun e he => ?_⟩
    rw [pairwise_append] at hsorted
    have hlt := hsorted.2.2 e he d mem_cons_self
    rw [Bool.not_eq_true']
    exact Bool.not_eq_true _ ▸ fun hpe => hleast e (mem_append_left _ he) hpe hlt

end Workspace

namespace Completion

variable {ws : Workspace} {settings : Settings} {tokens : List (List Char)} {label : String}

/-- Documents entered under their keys, unless the key is taken. -/
def firstOf (key : Document → String) (t : Table Document) (d : Document) : Table Document :=
  if t.contains (key d) then t else t.insert (key d) d

/-- **Under each key stands the first document that has it.** -/
theorem find?_foldl_firstOf {key : Document → String} {docs : List Document} {t : Table Document} :
    (docs.foldl (firstOf key) t).find? label =
      (t.find? label).or (docs.find? (key · == label)) := by
  induction docs generalizing t with
  | nil => simp
  | cons d docs ih =>
    rw [foldl_cons, ih, firstOf]
    by_cases htaken : t.contains (key d)
    · rw [if_pos htaken]
      obtain ⟨e, he⟩ := Table.contains_iff.1 htaken
      by_cases hkey : key d = label
      · rw [← hkey, he, Option.some_or, Option.some_or]
      · rw [find?_cons_of_neg (by simpa using hkey)]
    · rw [if_neg htaken, Table.find?_insert]
      by_cases hkey : key d = label
      · have hnone : t.find? label = none := by
          rw [← hkey, ← Option.not_isSome_iff_eq_none]
          exact htaken
        rw [if_pos hkey.symm, hnone, find?_cons_of_pos (by simpa using hkey), Option.some_or,
          Option.none_or]
      · rw [if_neg (Ne.symm hkey), find?_cons_of_neg (by simpa using hkey)]

theorem callItems_eq (hcase : settings.lowerCase = false) :
    callItems settings ws =
      (ws.documents.foldl (firstOf fun d => upper d.bareName) .empty).entries.map
        fun entry => callItem entry.1 entry.2 := by
  simp only [callItems, hcase]
  rfl

/-- **An offer is that of the first document of its name.** -/
theorem mem_callItems_iff (hcase : settings.lowerCase = false) {item : Editor.Completion} :
    item ∈ callItems settings ws ↔
      ∃ d, ws.documents.find? (upper ·.bareName == item.label) = some d ∧
        item = callItem item.label d := by
  rw [callItems_eq hcase, mem_map]
  constructor
  · rintro ⟨⟨name, d⟩, hmem, rfl⟩
    rw [Table.mem_entries_iff, find?_foldl_firstOf, Table.find?_empty, Option.none_or] at hmem
    exact ⟨d, hmem, rfl⟩
  · rintro ⟨d, hd, hitem⟩
    refine ⟨(item.label, d), ?_, hitem.symm⟩
    rw [Table.mem_entries_iff, find?_foldl_firstOf, Table.find?_empty, Option.none_or]
    exact hd

/-- Offers are in strict order of their labels. -/
theorem callItems_sorted (hcase : settings.lowerCase = false) :
    (callItems settings ws).Pairwise fun a b => a.label < b.label := by
  rw [callItems_eq hcase]
  exact pairwise_map.2 (Table.sorted _)

/-- A name is offered exactly if a document has it. -/
theorem exists_mem_callItems_iff (hcase : settings.lowerCase = false) :
    (∃ item ∈ callItems settings ws, item.label = label) ↔
      ∃ d ∈ ws.documents, upper d.bareName = label := by
  constructor
  · rintro ⟨item, hitem, rfl⟩
    obtain ⟨d, hd, -⟩ := (mem_callItems_iff hcase).1 hitem
    exact ⟨d, mem_of_find?_eq_some hd, by simpa using find?_some hd⟩
  · rintro ⟨d, hd, hname⟩
    obtain ⟨first, hfirst⟩ : ∃ e, ws.documents.find? (upper ·.bareName == label) = some e := by
      rw [← Option.isSome_iff_exists, find?_isSome]
      exact ⟨d, hd, by simpa using hname⟩
    exact ⟨callItem label first, (mem_callItems_iff hcase).2 ⟨first, hfirst, rfl⟩, rfl⟩

theorem calls_eq {token : List Char} (hlast : tokens.getLast? = some token)
    (hcall : sameCharsIgnoringCase token "CALL".toList = true ∨
      sameCharsIgnoringCase token "RUN".toList = true) :
    calls settings ws tokens = callItems settings ws := by
  rw [calls, hlast]
  exact if_pos (Bool.or_eq_true _ _ ▸ hcall)

/-- **What is offered behind `CALL` and `RUN` after every run.** Each name of the documents, in
upper case, is offered exactly once, in the order of the names. An offer describes the first
document of its name in the order of the addresses. The name is always found: as a document of that
name, an opened one whenever there is one. The two are the same document, and the offer then
describes the document that the name is looked up as, exactly if no document of the name has an
address before that of the one that is found. -/
theorem calls_exact_after (operations : List Operation)
    (hread : ∀ operation ∈ operations, ∀ uri, operation.entered? = some uri →
      ∃ input, Uri.parse input = .ok uri)
    (hcase : settings.lowerCase = false) {token : List Char}
    (hlast : tokens.getLast? = some token)
    (hcall : sameCharsIgnoringCase token "CALL".toList = true ∨
      sameCharsIgnoringCase token "RUN".toList = true) :
    let ws := Workspace.after operations
    let offers := calls settings ws tokens
    offers.Pairwise (fun a b => a.label < b.label) ∧
    (∀ label, (∃ item ∈ offers, item.label = label) ↔
      ∃ d ∈ ws.documents, upper d.bareName = label) ∧
    ∀ item ∈ offers, ∃ shown found,
      ws.documents.find? (upper ·.bareName == item.label) = some shown ∧
      item = callItem item.label shown ∧
      ws.find? item.label = some found ∧
      found ∈ ws.documents ∧ upper found.bareName = item.label ∧
      ((∃ e ∈ ws.opened.values, upper e.bareName = item.label) → found ∈ ws.opened.values) ∧
      (shown = found ↔
        ∀ d ∈ ws.documents, upper d.bareName = item.label → ¬d.uri.text < found.uri.text) := by
  intro ws offers
  have h := Workspace.Indexed.after operations
  have hplain := Workspace.Plain.after hread
  have hoffers : offers = callItems settings ws := calls_eq hlast hcall
  rw [hoffers]
  refine ⟨callItems_sorted hcase, fun _ => exists_mem_callItems_iff hcase, fun item hitem => ?_⟩
  obtain ⟨shown, hshown, hitem⟩ := (mem_callItems_iff hcase).1 hitem
  have hmem := mem_of_find?_eq_some hshown
  have hlabel : upper shown.bareName = item.label := by simpa using find?_some hshown
  have hascii := h.isAscii_of_mem_documents hplain hmem
  -- a document has the label in upper case exactly if the lookup compares it equal
  have hsame : ∀ d ∈ ws.documents,
      lower d.bareName = lower item.label ↔ upper d.bareName = item.label := by
    intro d hd
    rw [← hlabel, lower_upper hascii,
      upper_eq_upper_iff (h.isAscii_of_mem_documents hplain hd) hascii]
  obtain ⟨found, hfound⟩ : ∃ found, ws.find? item.label = some found := by
    rw [← Option.ne_none_iff_exists']
    intro hnone
    exact h.find?_eq_none_iff.1 hnone shown hmem ((hsame shown hmem).2 hlabel)
  obtain ⟨hfmem, hfname, hfopen⟩ := h.find?_spec hfound
  have hflabel := (hsame found hfmem).1 hfname
  refine ⟨shown, found, hshown, hitem, hfound, hfmem, hflabel, ?_, ?_⟩
  · rintro ⟨e, he, hename⟩
    exact hfopen ⟨e, he, (hsame e (h.mem_documents_of_opened he)).2 hename⟩
  · rw [← Option.some_inj, ← hshown,
      Workspace.find?_eq_some_iff_least h.documents_sorted hfmem (by simpa using hflabel)]
    simp only [beq_iff_eq]
    exact Iff.rfl

/-- A program that is open is offered as itself where a known program of its name has an address
behind it. -/
theorem calls_exact_after_open_first :
    let pick : Uri := ⟨"file:///ws/tp/pick.ls"⟩
    let other : Uri := ⟨"file:///ws/z/pick.kl"⟩
    let ws := Workspace.after [.addKnown other .karel "PROGRAM pick\nBEGIN\nEND pick\n" none,
      .openText pick .pendant "/PROG PICK\n/MN\n   1:  !AR[1]: row ;\n/POS\n/END\n" none]
    ∃ item ∈ calls {} ws ["call".toList], ∃ found, ws.find? "PICK" = some found ∧
      found.uri = pick ∧ item = callItem "PICK" found := by
  intro pick other ws
  have hother : ∃ input, Uri.parse input = .ok other :=
    ⟨other.text, by decide⟩
  have hpick : ∃ input, Uri.parse input = .ok pick :=
    ⟨pick.text, by decide⟩
  have hdocs : ws.documents.map (fun d => (d.uri.text, upper d.bareName)) =
      [(pick.text, "PICK"), (other.text, "PICK")] := by decide +kernel
  have hlookup : (ws.find? "PICK").map (·.uri) = some pick := by decide +kernel
  obtain ⟨-, hnames, hoffers⟩ := @calls_exact_after {} ["call".toList]
    [.addKnown other .karel "PROGRAM pick\nBEGIN\nEND pick\n" none,
      .openText pick .pendant "/PROG PICK\n/MN\n   1:  !AR[1]: row ;\n/POS\n/END\n" none]
    (by simpa [Operation.entered?] using ⟨hother, hpick⟩) rfl _ rfl (.inl (by decide))
  obtain ⟨d, hd, hname⟩ : ∃ d ∈ ws.documents, upper d.bareName = "PICK" := by
    have hmem : (pick.text, "PICK") ∈
        ws.documents.map (fun d => (d.uri.text, upper d.bareName)) := by
      rw [hdocs]
      exact mem_cons_self
    obtain ⟨d, hd, heq⟩ := mem_map.1 hmem
    exact ⟨d, hd, (Prod.mk.inj heq).2⟩
  obtain ⟨item, hitem, hlabel⟩ := (hnames "PICK").2 ⟨d, hd, hname⟩
  obtain ⟨shown, found, -, hshown, hfound, -, -, -, hsame⟩ := hoffers item hitem
  rw [hlabel] at hshown hfound hsame
  have huri : found.uri = pick := by
    rw [hfound, Option.map_some, Option.some.injEq] at hlookup
    exact hlookup
  have hfirst : shown = found := by
    refine hsame.2 fun e he _ => ?_
    have hmem := mem_map_of_mem (f := fun d => (d.uri.text, upper d.bareName)) he
    rw [hdocs] at hmem
    rw [huri]
    rcases mem_cons.1 hmem with heq | hmem
    · rw [(Prod.mk.inj heq).1]
      exact String.lt_irrefl _
    · rw [(Prod.mk.inj (mem_singleton.1 hmem)).1]
      decide
  rw [hfirst] at hshown
  exact ⟨item, hitem, found, hfound, huri, hshown⟩

/-- A program that is open is offered as a known one of its name whose address comes before it: the
offer describes a Karel program, the lookup finds the pendant program. -/
theorem calls_offers_other_document :
    let pick : Uri := ⟨"file:///ws/tp/pick.ls"⟩
    let other : Uri := ⟨"file:///ws/karel/pick.kl"⟩
    let ws := Workspace.after [.addKnown other .karel "PROGRAM pick\nBEGIN\nEND pick\n" none,
      .openText pick .pendant
        "/PROG PICK\n/MN\n   1:  !AR[1]: row ;\n   2:  PAUSE ;\n/POS\n/END\n" none]
    (calls {} ws ["CALL".toList]).map (fun item => (item.label, item.detail, item.documentation)) =
        [("PICK", some "KAREL program", none)] ∧
      (ws.find? "PICK").map (fun d => (d.language, d.header)) = some (.pendant, "AR[1]: row") := by
  decide +kernel

end Completion

end RobotSource
