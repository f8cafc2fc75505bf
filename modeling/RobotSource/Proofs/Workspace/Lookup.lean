import RobotSource.Proofs.Workspace.Index
/-!
# Lookups of one language

A name is looked up among the documents of one language: first among the opened documents, then
among the known ones. The second search does not ask whether a known document is open as well, so it
can answer with one that the list of documents does not show: the known copy of a document that is
open in the other language (`Hidden`). Nothing else is answered that is not shown, and whatever is
shown is found (`Indexed.isSome_findOf?_iff`, `Indexed.findOf?_spec`). Where documents are open in
the language in which they are known, no document is hidden, and the lookup answers from the list of
documents alone.
-/

namespace RobotSource.Workspace

open Text

variable {ws : Workspace} {uri : Uri} {d : Document} {name : String} {language : Language}

/-- A document that the lookup of one language searches for. -/
def Fits (d : Document) (name : String) (language : Language) : Prop :=
  d.language = language ∧ lower d.bareName = lower name

/-- The known copy of a document that is open in the other language. -/
def Hidden (ws : Workspace) (d : Document) : Prop :=
  ws.known.find? d.uri.text = some d ∧
    ∃ o, ws.opened.find? d.uri.text = some o ∧ o.language ≠ d.language

/-- Every document that is open is open in the language in which it is known. -/
def LanguagesAgree (ws : Workspace) : Prop :=
  ∀ text o k, ws.opened.find? text = some o → ws.known.find? text = some k →
    o.language = k.language

theorem LanguagesAgree.not_hidden (h : ws.LanguagesAgree) : ¬ws.Hidden d := by
  rintro ⟨hknown, o, hopen, hne⟩
  exact hne (h _ o d hopen hknown)

/-- A search through the addresses of a name for a document of a language. -/
def searchIn (ws : Workspace) (table : Table Document) (name : String) (language : Language) :
    Option Document :=
  ((ws.addresses name).filterMap table.find?).find? (·.language == language)

theorem findOf?_eq :
    ws.findOf? name language =
      (ws.searchIn ws.opened name language).or (ws.searchIn ws.known name language) := rfl

theorem searchIn_eq_none_iff {table : Table Document} :
    ws.searchIn table name language = none ↔
      ∀ text ∈ ws.addresses name, ∀ e, table.find? text = some e → e.language ≠ language := by
  simp only [searchIn, List.find?_eq_none, List.mem_filterMap, beq_iff_eq]
  constructor
  · intro h text htext e he
    exact h e ⟨text, htext, he⟩
  · rintro h e ⟨text, htext, he⟩
    exact h text htext e he

theorem searchIn_eq_some {table : Table Document} (h : ws.searchIn table name language = some d) :
    d.language = language ∧ ∃ text ∈ ws.addresses name, table.find? text = some d := by
  have hmem := List.mem_of_find?_eq_some h
  have hlanguage := List.find?_some h
  rw [beq_iff_eq] at hlanguage
  exact ⟨hlanguage, List.mem_filterMap.1 hmem⟩

namespace Indexed

/-- A hidden document is not shown: its address answers with the opened one. -/
theorem not_mem_documents_of_hidden (h : Indexed ws) (hd : ws.Hidden d) : d ∉ ws.documents := by
  obtain ⟨-, o, hopen, hne⟩ := hd
  intro hmem
  have hget := h.mem_documents_iff.1 hmem
  rw [get?, hopen, Option.some_or, Option.some.injEq] at hget
  exact hne (congrArg Document.language hget)

/-- **What is found has the name and the language, and is shown unless it is hidden.** An opened
document is preferred. -/
theorem findOf?_spec (h : Indexed ws) (hfind : ws.findOf? name language = some d) :
    Fits d name language ∧ (d ∈ ws.documents ↔ ¬ws.Hidden d) ∧
      ((∃ e ∈ ws.opened.values, Fits e name language) → d ∈ ws.opened.values) := by
  rw [findOf?_eq] at hfind
  rcases Option.or_eq_some_iff.1 hfind with hopen | ⟨hnone, hknown⟩
  · obtain ⟨hlanguage, text, htext, hd⟩ := searchIn_eq_some hopen
    obtain rfl := h.opened_uri _ _ hd
    have hopened := h.mem_opened_iff.2 hd
    have hshown := h.mem_documents_of_opened hopened
    exact ⟨⟨hlanguage, (h.mem_addresses_iff.1 htext).2⟩, iff_of_true hshown
      fun hhidden => h.not_mem_documents_of_hidden hhidden hshown, fun _ => hopened⟩
  · obtain ⟨hlanguage, text, htext, hd⟩ := searchIn_eq_some hknown
    obtain rfl := h.known_uri _ _ hd
    rw [searchIn_eq_none_iff] at hnone
    refine ⟨⟨hlanguage, (h.mem_addresses_iff.1 htext).2⟩, ?_, ?_⟩
    · constructor
      · exact fun hshown hhidden => h.not_mem_documents_of_hidden hhidden hshown
      · -- a document of another language at the address would hide this one
        intro hvisible
        rw [h.mem_documents_iff, get?]
        cases hopen : ws.opened.find? d.uri.text with
        | none => rw [Option.none_or, hd]
        | some o =>
          have hne := hnone _ htext o hopen
          exact absurd ⟨hd, o, hopen, fun heq => hne (heq.trans hlanguage)⟩ hvisible
    · rintro ⟨e, he, helanguage, hename⟩
      have hlisted := h.uri_mem_addresses (h.mem_documents_of_opened he) hename
      exact absurd helanguage (hnone _ hlisted e (h.mem_opened_iff.1 he))

/-- A document of the tables that fits is found, or another one before it. -/
theorem isSome_findOf?_of_find? (h : Indexed ws) (hfits : Fits d name language)
    (hd : ws.opened.find? d.uri.text = some d ∨ ws.known.find? d.uri.text = some d) :
    (ws.findOf? name language).isSome := by
  have hlisted : d.uri.text ∈ ws.addresses name := by
    refine h.mem_addresses_iff.2 ⟨?_, hfits.2⟩
    exact hd.imp (fun hopen => Table.contains_iff.2 ⟨d, hopen⟩)
      fun hknown => Table.contains_iff.2 ⟨d, hknown⟩
  by_contra hnone
  rw [Option.not_isSome_iff_eq_none, findOf?_eq, Option.or_eq_none_iff, searchIn_eq_none_iff,
    searchIn_eq_none_iff] at hnone
  rcases hd with hopen | hknown
  · exact hnone.1 _ hlisted d hopen hfits.1
  · exact hnone.2 _ hlisted d hknown hfits.1

/-- **A name is found in a language exactly if a document that is shown fits, or a hidden one.** -/
theorem isSome_findOf?_iff (h : Indexed ws) :
    (ws.findOf? name language).isSome ↔
      ∃ d, Fits d name language ∧ (d ∈ ws.documents ∨ ws.Hidden d) := by
  constructor
  · intro hfind
    obtain ⟨d, hd⟩ := Option.isSome_iff_exists.1 hfind
    obtain ⟨hfits, hshown, -⟩ := h.findOf?_spec hd
    by_cases hhidden : ws.Hidden d
    · exact ⟨d, hfits, .inr hhidden⟩
    · exact ⟨d, hfits, .inl (hshown.2 hhidden)⟩
  · rintro ⟨d, hfits, hshown | hhidden⟩
    · refine h.isSome_findOf?_of_find? hfits ?_
      rcases Option.or_eq_some_iff.1 (h.mem_documents_iff.1 hshown) with hopen | ⟨-, hknown⟩
      · exact .inl hopen
      · exact .inr hknown
    · exact h.isSome_findOf?_of_find? hfits (.inr hhidden.1)

end Indexed

/-- **What the lookup of one language answers after every run.** A name is found in a language
exactly if a document of that name, in any case, and of that language is shown, or is the known copy
of a document that is open in the other language. What is found is such a document, an opened one
whenever there is one, and it is shown unless it is such a copy. So as long as every document is
open in the language in which it is known, a name is found exactly if the documents show it in the
language, and what is found is shown. -/
theorem findOf?_exact_after (operations : List Operation) (name : String) (language : Language) :
    let ws := after operations
    ((ws.findOf? name language).isSome ↔
      ∃ d, (d.language = language ∧ lower d.bareName = lower name) ∧
        (d ∈ ws.documents ∨ ws.Hidden d)) ∧
    (∀ d, ws.findOf? name language = some d →
      d.language = language ∧ lower d.bareName = lower name ∧ (d ∈ ws.documents ↔ ¬ws.Hidden d) ∧
      ((∃ e ∈ ws.opened.values, e.language = language ∧ lower e.bareName = lower name) →
        d ∈ ws.opened.values)) ∧
    (ws.LanguagesAgree →
      ((ws.findOf? name language).isSome ↔
        ∃ d ∈ ws.documents, d.language = language ∧ lower d.bareName = lower name) ∧
      ∀ d, ws.findOf? name language = some d → d ∈ ws.documents) := by
  intro ws
  have h := Indexed.after operations
  refine ⟨h.isSome_findOf?_iff, fun d hd => ?_, fun hagree => ⟨?_, fun d hd => ?_⟩⟩
  · obtain ⟨⟨hlanguage, hname⟩, hshown, hopened⟩ := h.findOf?_spec hd
    exact ⟨hlanguage, hname, hshown, hopened⟩
  · rw [h.isSome_findOf?_iff]
    constructor
    · rintro ⟨d, hfits, hshown | hhidden⟩
      · exact ⟨d, hshown, hfits⟩
      · exact absurd hhidden hagree.not_hidden
    · rintro ⟨d, hshown, hfits⟩
      exact ⟨d, hfits, .inl hshown⟩
  · exact (h.findOf?_spec hd).2.1.2 hagree.not_hidden

/-- A known program that is open in its language is found and shown. -/
theorem findOf?_exact_after_agreeing :
    let ws := after [.addKnown ⟨"file:///ws/a.ls"⟩ .pendant "/PROG A\n/MN\n/POS\n/END\n" none,
      .openText ⟨"file:///ws/a.ls"⟩ .pendant "/PROG A\n/MN\n/POS\n/END\n" (some 1)]
    ws.LanguagesAgree ∧ ∃ d, ws.findOf? "A" .pendant = some d ∧ d ∈ ws.documents := by
  intro ws
  have hpendant : ∀ d ∈ ws.opened.values ++ ws.known.values, d.language = .pendant := by
    decide +kernel
  have hagree : ws.LanguagesAgree := by
    intro text o k ho hk
    rw [hpendant o (List.mem_append_left _ (Table.mem_values_iff.2 ⟨text, ho⟩)),
      hpendant k (List.mem_append_right _ (Table.mem_values_iff.2 ⟨text, hk⟩))]
  obtain ⟨hfound, hshown⟩ := (findOf?_exact_after _ "A" .pendant).2.2 hagree
  have hfits : ∃ d ∈ ws.documents, d.language = .pendant ∧ lower d.bareName = lower "A" := by
    decide +kernel
  obtain ⟨d, hd⟩ := Option.isSome_iff_exists.1 (hfound.2 hfits)
  exact ⟨hagree, d, hd, hshown d hd⟩

/-- A known pendant program that is open as a Karel program is found as the pendant program that no
document shows. -/
theorem findOf?_finds_hidden :
    let uri : Uri := ⟨"file:///ws/a.ls"⟩
    let ws := after [.addKnown uri .pendant "/PROG A\n/MN\n/POS\n/END\n" none,
      .openText uri .karel "PROGRAM a\nBEGIN\nEND a\n" none]
    (ws.findOf? "a" .pendant).isSome = true ∧ ws.documents.map (·.language) = [.karel] := by
  decide +kernel

end RobotSource.Workspace
