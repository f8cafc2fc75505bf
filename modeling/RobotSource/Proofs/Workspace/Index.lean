import Mathlib.Data.List.Nodup
import Mathlib.Tactic.Common
import RobotSource.Proofs.Table
import RobotSource.Proofs.Workspace.Operation
/-!
# The index of names

The index lists under each name the addresses of the documents that have it: every document of the
workspace, opened or known, once and under its own name only, and no name without documents
(`Indexed`). Each operation keeps this. What entering and taking out an address does to the index is
said once, for an index that lists exactly the addresses of some set (`ListsExactly.index`,
`ListsExactly.unindex`); the operations then only have to name the set.

From the invariant follow the lookups: a name is found exactly when a document has it, and an opened
document is preferred (`Indexed.find?_eq_none_iff`, `Indexed.find?_spec`), and the list of documents
holds one entry for each address, in order (`Indexed.documents_sorted`,
`Indexed.mem_documents_iff`).
-/

namespace RobotSource.Workspace

open Text List

variable {ws : Workspace} {uri : Uri} {d : Document} {key text : String}

/-! ## The addresses under a name -/

/-- The addresses that the index lists under a key. -/
def listed (ws : Workspace) (key : String) : List String :=
  (ws.names.find? key).getD []

theorem listed_index :
    (ws.index uri).listed key =
      if key = nameKey uri ∧ uri.text ∉ ws.listed key then ws.listed key ++ [uri.text]
      else ws.listed key := by
  by_cases hkey : key = nameKey uri
  · subst hkey
    simp only [listed, index, Table.find?_insert_self, Option.getD_some, contains_iff_mem]
    split <;> simp_all
  · rw [if_neg fun h => hkey h.1, listed, index, Table.find?_insert_of_ne hkey, listed]

/-- What is left under its name where an address is taken out. -/
theorem find?_names_unindex :
    (ws.unindex uri).names.find? key =
      if key = nameKey uri then
        let rest := (ws.listed key).filter (· != uri.text)
        if rest = [] then none else some rest
      else ws.names.find? key := by
  by_cases hkey : key = nameKey uri
  · subst hkey
    rw [if_pos rfl, listed, unindex]
    cases hfind : ws.names.find? (nameKey uri) with
    | none => simp [hfind]
    | some uris =>
      simp only [Option.getD_some]
      cases huris : uris.filter (· != uri.text) with
      | nil => simp [Table.find?_erase]
      | cons u us => simp
  · rw [if_neg hkey, unindex]
    split
    · rfl
    · split
      · rw [Table.find?_erase, if_neg hkey]
      · exact Table.find?_insert_of_ne hkey

theorem listed_unindex :
    (ws.unindex uri).listed key =
      if key = nameKey uri then (ws.listed key).filter (· != uri.text) else ws.listed key := by
  rw [listed, find?_names_unindex]
  by_cases hkey : key = nameKey uri
  · rw [if_pos hkey, if_pos hkey]
    cases (ws.listed key).filter (· != uri.text) <;> rfl
  · rw [if_neg hkey, if_neg hkey, listed]

/-! ## An index of a set of addresses -/

/-- The index lists exactly the addresses of a set: each of them once, under its name, and no name
without addresses. -/
structure ListsExactly (names : Table (List String)) (P : String → Prop) : Prop where
  mem_iff : ∀ key text, text ∈ (names.find? key).getD [] ↔ P text ∧ nameKey ⟨text⟩ = key
  nodup : ∀ key, ((names.find? key).getD []).Nodup
  nonempty : ∀ key, names.find? key ≠ some []

namespace ListsExactly

variable {P Q : String → Prop}

theorem congr {names : Table (List String)} (h : ListsExactly names P) (hPQ : ∀ t, P t ↔ Q t) :
    ListsExactly names Q :=
  ⟨fun key text => by rw [h.mem_iff, hPQ], h.nodup, h.nonempty⟩

theorem empty : ListsExactly .empty fun _ => False :=
  ⟨by simp, by simp, by simp⟩

theorem mem_listed_iff (h : ListsExactly ws.names P) :
    text ∈ ws.listed key ↔ P text ∧ nameKey ⟨text⟩ = key :=
  h.mem_iff key text

/-- **Entering an address adds it to the set.** -/
theorem index (h : ListsExactly ws.names P) (uri : Uri) :
    ListsExactly (ws.index uri).names fun t => P t ∨ t = uri.text := by
  have hmem : ∀ key t, t ∈ (ws.index uri).listed key ↔
      (P t ∨ t = uri.text) ∧ nameKey ⟨t⟩ = key := by
    intro key t
    have hself : uri.text ∈ ws.listed key ↔ P uri.text ∧ nameKey uri = key := h.mem_listed_iff
    rw [listed_index]
    by_cases ht : t = uri.text
    · subst ht
      change _ ↔ _ ∧ nameKey uri = key
      grind
    · have hother : t ∈ ws.listed key ↔ P t ∧ nameKey ⟨t⟩ = key := h.mem_listed_iff
      split <;> simp [ht, hother]
  refine ⟨hmem, fun key => ?_, fun key hfind => ?_⟩
  · change ((ws.index uri).listed key).Nodup
    rw [listed_index]
    split
    · rename_i hnew
      exact (h.nodup key).append (nodup_singleton _) (by simpa [listed] using hnew.2)
    · exact h.nodup key
  · by_cases hkey : key = nameKey uri
    · have hself := (hmem key uri.text).2 ⟨.inr rfl, hkey.symm⟩
      rw [listed, hfind] at hself
      cases hself
    · rw [Workspace.index, Table.find?_insert_of_ne hkey] at hfind
      exact h.nonempty key hfind

/-- **Taking an address out removes it from the set.** -/
theorem unindex (h : ListsExactly ws.names P) (uri : Uri) :
    ListsExactly (ws.unindex uri).names fun t => P t ∧ t ≠ uri.text := by
  refine ⟨fun key t => ?_, fun key => ?_, fun key hfind => ?_⟩
  · change t ∈ (ws.unindex uri).listed key ↔ _
    rw [listed_unindex]
    split
    · simp only [mem_filter, bne_iff_ne, h.mem_listed_iff, and_right_comm]
    · rename_i hkey
      rw [h.mem_listed_iff, and_right_comm, iff_self_and]
      rintro ⟨-, hname⟩ rfl
      exact hkey hname.symm
  · change ((ws.unindex uri).listed key).Nodup
    rw [listed_unindex]
    split
    · exact (h.nodup key).filter _
    · exact h.nodup key
  · rw [find?_names_unindex] at hfind
    split at hfind
    · rw [Option.ite_none_left_eq_some, Option.some.injEq] at hfind
      exact hfind.1 hfind.2
    · exact h.nonempty key hfind

end ListsExactly

/-! ## The invariant -/

/-- Whether the workspace has a document of an address, opened or known. -/
def Holds (ws : Workspace) (text : String) : Prop :=
  ws.opened.contains text = true ∨ ws.known.contains text = true

/-- Every document stands under its own address, and the index lists exactly the documents. -/
structure Indexed (ws : Workspace) : Prop where
  opened_uri : ∀ text d, ws.opened.find? text = some d → d.uri.text = text
  known_uri : ∀ text d, ws.known.find? text = some d → d.uri.text = text
  lists : ListsExactly ws.names ws.Holds

@[simp] theorem opened_index : (ws.index uri).opened = ws.opened := rfl

@[simp] theorem known_index : (ws.index uri).known = ws.known := rfl

@[simp] theorem opened_unindex : (ws.unindex uri).opened = ws.opened := by rw [unindex_eq]

@[simp] theorem known_unindex : (ws.unindex uri).known = ws.known := by rw [unindex_eq]

/-! ## Operations on one document -/

namespace Indexed

theorem empty : Indexed .empty :=
  ⟨by simp [Workspace.empty], by simp [Workspace.empty],
    ListsExactly.empty.congr fun t => by simp [Holds, Workspace.empty, Table.contains]⟩

theorem openDocument (h : Indexed ws) (d : Document) : Indexed (ws.openDocument d).1 := by
  refine ⟨fun text e he => ?_, h.known_uri, (ListsExactly.index h.lists _).congr fun t => ?_⟩
  · simp only [Workspace.openDocument, opened_index, Table.find?_insert] at he
    split at he
    · rename_i htext
      cases he
      exact htext.symm
    · exact h.opened_uri text e he
  · simp only [Holds, Workspace.openDocument, opened_index, known_index, Table.contains_insert]
    exact or_right_comm

theorem addKnown (h : Indexed ws) (d : Document) : Indexed (ws.addKnown d).1 := by
  refine ⟨h.opened_uri, fun text e he => ?_, (ListsExactly.index h.lists _).congr fun t => ?_⟩
  · simp only [Workspace.addKnown, known_index, Table.find?_insert] at he
    split at he
    · rename_i htext
      cases he
      exact htext.symm
    · exact h.known_uri text e he
  · simp only [Holds, Workspace.addKnown, opened_index, known_index, Table.contains_insert]
    exact or_assoc

/-- Closing takes the address out of the index only if nothing else stands under it. -/
theorem close (h : Indexed ws) (uri : Uri) : Indexed (ws.close uri) := by
  have hopened : ∀ text e, (ws.opened.erase uri.text).find? text = some e → e.uri.text = text := by
    intro text e he
    rw [Table.find?_erase] at he
    split at he
    · cases he
    · exact h.opened_uri text e he
  unfold Workspace.close
  split
  · rename_i hgone
    simp only [Bool.and_eq_true, Bool.not_eq_true'] at hgone
    let closed := { ws with opened := ws.opened.erase uri.text }
    have hlists : ListsExactly closed.names ws.Holds := h.lists
    refine ⟨by simpa using hopened, by simpa using h.known_uri, ?_⟩
    refine (hlists.unindex uri).congr fun t => ?_
    simp only [Holds, opened_unindex, known_unindex, Table.contains_erase, or_and_right]
    refine or_congr_right (and_iff_left_of_imp fun hknown heq => ?_)
    rw [heq, hgone.2] at hknown
    cases hknown
  · rename_i hstays
    refine ⟨hopened, h.known_uri, h.lists.congr fun t => ?_⟩
    simp only [Holds, Table.contains_erase]
    by_cases heq : t = uri.text
    · subst heq
      simp only [Bool.and_eq_true, Bool.not_eq_true', not_and, Bool.not_eq_false] at hstays
      simp only [ne_eq, not_true, and_false, false_or, or_iff_right_iff_imp]
      exact hstays
    · simp [heq]

/-- An opened document may be replaced by any other of its address. -/
theorem replaceOpened {e : Document} (h : Indexed ws) (hfind : ws.opened.find? uri.text = some d)
    (he : e.uri = d.uri) : Indexed { ws with opened := ws.opened.insert uri.text e } := by
  have huri : e.uri.text = uri.text := by rw [he, h.opened_uri _ _ hfind]
  refine ⟨fun text e' he' => ?_, h.known_uri, h.lists.congr fun t => ?_⟩
  · rw [Table.find?_insert] at he'
    split at he'
    · rename_i htext
      cases he'
      rw [huri, htext]
    · exact h.opened_uri text e' he'
  · simp only [Holds, Table.contains_insert]
    have hself : t = uri.text → ws.opened.contains t :=
      fun heq => Table.contains_iff.2 ⟨d, heq ▸ hfind⟩
    rw [or_iff_left_of_imp hself]

end Indexed

/-! ## Scans -/

/-- Where every document stands under its own address, the addresses are the keys. -/
theorem map_values_uri {t : Table Document}
    (h : ∀ text d, t.find? text = some d → d.uri.text = text) :
    t.values.map (·.uri.text) = t.keys := by
  rw [Table.values, Table.keys, map_map]
  refine map_congr_left fun p hp => ?_
  exact h p.1 p.2 (Table.mem_entries_iff.1 hp)

/-- Forgetting documents one by one leaves the opened ones in the index. -/
theorem ListsExactly.foldl_forgetDocument {P : String → Prop} (h : ListsExactly ws.names P)
    (docs : List Document) : ListsExactly (docs.foldl forgetDocument ws).names
      fun t => P t ∧ (ws.opened.contains t = true ∨ ∀ d ∈ docs, t ≠ d.uri.text) := by
  induction docs generalizing ws P with
  | nil => exact h.congr fun t => by simp
  | cons d docs ih =>
    rw [foldl_cons, forgetDocument]
    split
    · rename_i hopen
      refine (ih h).congr fun t => ?_
      rw [forall_mem_cons]
      grind
    · rename_i hclosed
      refine (ih (h.unindex d.uri)).congr fun t => ?_
      rw [forall_mem_cons, opened_unindex]
      grind

namespace Indexed

theorem forgetKnown (h : Indexed ws) : Indexed ws.forgetKnown := by
  have hlists : ListsExactly { ws with known := .empty }.names ws.Holds := h.lists
  refine ⟨?_, ?_, (hlists.foldl_forgetDocument ws.known.values).congr fun t => ?_⟩
  · rw [opened_forgetKnown]
    exact h.opened_uri
  · rw [known_forgetKnown]
    intro text d hd
    cases hd
  · rw [Holds, Holds, opened_forgetKnown, known_forgetKnown]
    constructor
    · rintro ⟨hopen | hknown, hstays⟩
      · exact .inl hopen
      · -- what is known and not open has been forgotten
        obtain ⟨d, hd⟩ := Table.contains_iff.1 hknown
        refine .inl (hstays.resolve_right fun hne => ?_)
        exact hne d (Table.mem_values_iff.2 ⟨t, hd⟩) (h.known_uri t d hd).symm
    · exact fun hopen => ⟨.inl (hopen.resolve_right Bool.false_ne_true),
        .inl (hopen.resolve_right Bool.false_ne_true)⟩

/-- **Every operation keeps the index exact**, a scan also where it is stopped. -/
theorem run (h : Indexed ws) (operation : Operation) : Indexed (operation.run ws) := by
  refine run_induction operation h (fun _ _ _ _ _ => h.openDocument _) h.close
    (fun _ _ _ _ _ => h.addKnown _) (fun _ _ hfind => h.replaceOpened hfind Document.uri_edited)
    fun files folders settings => scan_induction ?_ fun _ _ _ _ _ _ h => h.addKnown _
  have hfolders : Indexed { ws with folders } := ⟨h.opened_uri, h.known_uri, h.lists⟩
  exact hfolders.forgetKnown

/-- **The index is exact after every run.** -/
theorem after (operations : List Operation) : Indexed (after operations) :=
  after_induction empty (fun _ operation h => h.run operation) operations

/-! ## Lookups -/

variable {name : String}

/-- What the workspace answers for an address stands under it. -/
theorem uri_of_get? (h : Indexed ws) (hget : ws.get? uri = some d) : d.uri = uri := by
  rcases Option.or_eq_some_iff.1 hget with hopen | ⟨-, hknown⟩
  · exact congrArg Uri.mk (h.opened_uri _ _ hopen)
  · exact congrArg Uri.mk (h.known_uri _ _ hknown)

/-- **The documents are what `get?` answers for their addresses.** -/
theorem mem_documents_iff (h : Indexed ws) : d ∈ ws.documents ↔ ws.get? d.uri = some d := by
  rw [documents, Table.mem_values_iff]
  constructor
  · rintro ⟨text, htext⟩
    rw [Table.find?_union] at htext
    have huri : d.uri = ⟨text⟩ := h.uri_of_get? htext
    rwa [huri]
  · exact fun hget => ⟨d.uri.text, by rw [Table.find?_union]; exact hget⟩

/-- Documents come in the order of their addresses. -/
theorem documents_sorted (h : Indexed ws) :
    ws.documents.Pairwise fun a b => a.uri.text < b.uri.text := by
  have huri : ∀ text e, (ws.known.union ws.opened).find? text = some e → e.uri.text = text := by
    intro text e he
    rw [Table.find?_union] at he
    have huri : e.uri = ⟨text⟩ := h.uri_of_get? he
    rw [huri]
  have hkeys := Table.keys_pairwise (t := ws.known.union ws.opened)
  rw [← map_values_uri huri] at hkeys
  exact pairwise_map.1 hkeys

/-- An address has a document exactly if the workspace holds it. -/
theorem exists_mem_documents_iff (h : Indexed ws) :
    (∃ d ∈ ws.documents, d.uri = uri) ↔ ws.Holds uri.text := by
  rw [Holds, Table.contains_iff, Table.contains_iff]
  constructor
  · rintro ⟨d, hd, rfl⟩
    rcases Option.or_eq_some_iff.1 (h.mem_documents_iff.1 hd) with hopen | ⟨-, hknown⟩
    · exact .inl ⟨d, hopen⟩
    · exact .inr ⟨d, hknown⟩
  · intro hholds
    obtain ⟨d, hget⟩ : ∃ d, ws.get? uri = some d := by
      cases hopen : ws.opened.find? uri.text with
      | some d => exact ⟨d, by rw [get?, hopen, Option.some_or]⟩
      | none =>
        rcases hholds with ⟨d, hd⟩ | ⟨d, hd⟩
        · rw [hopen] at hd
          cases hd
        · exact ⟨d, by rw [get?, hopen, Option.none_or, hd]⟩
    have huri := h.uri_of_get? hget
    exact ⟨d, h.mem_documents_iff.2 (huri.symm ▸ hget), huri⟩

theorem mem_addresses_iff (h : Indexed ws) :
    text ∈ ws.addresses name ↔ ws.Holds text ∧ nameKey ⟨text⟩ = lower name :=
  h.lists.mem_iff (lower name) text

/-- A document of the name is listed under it. -/
theorem uri_mem_addresses (h : Indexed ws) (hd : d ∈ ws.documents)
    (hname : lower d.bareName = lower name) : d.uri.text ∈ ws.addresses name :=
  h.mem_addresses_iff.2 ⟨h.exists_mem_documents_iff.1 ⟨d, hd, rfl⟩, hname⟩

theorem mem_opened_iff (h : Indexed ws) :
    d ∈ ws.opened.values ↔ ws.opened.find? d.uri.text = some d := by
  rw [Table.mem_values_iff]
  constructor
  · rintro ⟨text, htext⟩
    rwa [h.opened_uri _ _ htext]
  · exact fun hd => ⟨_, hd⟩

/-- An opened document is shown. -/
theorem mem_documents_of_opened (h : Indexed ws) (hd : d ∈ ws.opened.values) : d ∈ ws.documents := by
  rw [h.mem_documents_iff, get?, h.mem_opened_iff.1 hd, Option.some_or]

/-- **What is found is a document of the name, an opened one if there is one.** -/
theorem find?_spec (h : Indexed ws) (hfind : ws.find? name = some d) :
    d ∈ ws.documents ∧ lower d.bareName = lower name ∧
      ((∃ e ∈ ws.opened.values, lower e.bareName = lower name) → d ∈ ws.opened.values) := by
  rw [find?] at hfind
  rcases Option.or_eq_some_iff.1 hfind with hopen | ⟨hnone, hknown⟩
  · obtain ⟨text, hmem, htext⟩ := exists_of_findSome?_eq_some hopen
    obtain rfl := h.opened_uri _ _ htext
    have hd := h.mem_opened_iff.2 htext
    exact ⟨h.mem_documents_of_opened hd, (h.mem_addresses_iff.1 hmem).2, fun _ => hd⟩
  · obtain ⟨text, hmem, htext⟩ := exists_of_findSome?_eq_some hknown
    obtain rfl := h.known_uri _ _ htext
    have hclosed := findSome?_eq_none_iff.1 hnone
    refine ⟨h.mem_documents_iff.2 ?_, (h.mem_addresses_iff.1 hmem).2, ?_⟩
    · rw [get?, hclosed _ hmem, Option.none_or, htext]
    · -- an opened document of the name would have been found first
      rintro ⟨e, he, hename⟩
      have hlisted := h.uri_mem_addresses (h.mem_documents_of_opened he) hename
      have hopen := h.mem_opened_iff.1 he
      rw [hclosed _ hlisted] at hopen
      cases hopen

/-- **A name is not found exactly when no document has it.** -/
theorem find?_eq_none_iff (h : Indexed ws) :
    ws.find? name = none ↔ ∀ d ∈ ws.documents, lower d.bareName ≠ lower name := by
  constructor
  · intro hfind d hd hname
    have hmem := h.uri_mem_addresses hd hname
    rw [find?, Option.or_eq_none_iff, findSome?_eq_none_iff, findSome?_eq_none_iff]
      at hfind
    have hget := h.mem_documents_iff.1 hd
    rw [get?, hfind.1 _ hmem, hfind.2 _ hmem] at hget
    cases hget
  · intro hnone
    cases hfind : ws.find? name with
    | none => rfl
    | some d =>
      obtain ⟨hd, hname, -⟩ := h.find?_spec hfind
      exact absurd hname (hnone d hd)

end Indexed

/-- **The index and the lookups are exact after every run.** An address occurs under a name exactly
if the workspace holds it and the name is its own in lower case; it occurs there once, and no name
is left without addresses. So a name is not found exactly when no document has it in any case, and
what is found is a document of that name, an opened one whenever there is one. The documents are in
strict order of their addresses, one for each address that the workspace holds, and each is what its
address answers. -/
theorem index_exact_after (operations : List Operation) :
    let ws := after operations
    (∀ key text, text ∈ (ws.names.find? key).getD [] ↔
      (ws.opened.contains text = true ∨ ws.known.contains text = true) ∧
        lower (Uri.mk text).bareName = key) ∧
    (∀ key uris, ws.names.find? key = some uris → uris.Nodup ∧ uris ≠ []) ∧
    (∀ name, ws.find? name = none ↔ ∀ d ∈ ws.documents, lower d.bareName ≠ lower name) ∧
    (∀ name d, ws.find? name = some d → d ∈ ws.documents ∧ lower d.bareName = lower name ∧
      ((∃ e ∈ ws.opened.values, lower e.bareName = lower name) → d ∈ ws.opened.values)) ∧
    ws.documents.Pairwise (fun a b => a.uri.text < b.uri.text) ∧
    (∀ uri, (∃ d ∈ ws.documents, d.uri = uri) ↔
      ws.opened.contains uri.text = true ∨ ws.known.contains uri.text = true) ∧
    ∀ d ∈ ws.documents, ws.get? d.uri = some d := by
  intro ws
  have h := Indexed.after operations
  refine ⟨h.lists.mem_iff, fun key uris hfind => ⟨?_, ?_⟩, fun _ => h.find?_eq_none_iff,
    fun _ _ => h.find?_spec, h.documents_sorted, fun _ => h.exists_mem_documents_iff,
    fun _ => h.mem_documents_iff.1⟩
  · have hnodup := h.lists.nodup key
    rwa [hfind] at hnodup
  · rintro rfl
    exact h.lists.nonempty key hfind

end RobotSource.Workspace
