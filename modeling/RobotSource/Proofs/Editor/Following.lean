import Mathlib.Data.Option.Basic
import RobotSource.Proofs.Editor.Place
import RobotSource.Proofs.Table
import RobotSource.Workspace.Basic
/-!
# Following an editor's changes

The user of an editor replaces its whole text, or the characters between two offsets; the editor
sends each change with the places of its offsets, as it counts them at that moment. The stored text
of an opened document follows: after every change it is the editor's text, however the changes are
spread over notifications (`follow_keeps_text`). One change at a time this is `text_applyChange`;
that a place names its offset is `offsetOf?_placeOf`, which is where offsets among the carriage
returns at the end of a line are left out.
-/

namespace RobotSource

open Text Editor

/-! ## The editor's side -/

/-- A change as the user makes it: of everything, or of the characters between two offsets. -/
inductive UserChange where
  | replaceAll (new : String)
  | replace (first last : Nat) (new : String)
deriving DecidableEq, Repr

namespace UserChange

/-- The editor's text after the change. -/
def apply (text : List Char) : UserChange → List Char
  | .replaceAll new => new.toList
  | .replace first last new => text.take first ++ new.toList ++ text.drop last

/-- The change as the editor sends it, with places for the offsets. -/
def sent (enc : Encoding) (text : List Char) : UserChange → Change
  | .replaceAll new => ⟨none, new⟩
  | .replace first last new => ⟨some ⟨placeOf enc text first, placeOf enc text last⟩, new⟩

/-- The offsets lie in the text, in order, and not among the carriage returns at the end of a
line. -/
def Legal (text : List Char) : UserChange → Prop
  | .replaceAll _ => True
  | .replace first last _ =>
    first ≤ last ∧ last ≤ text.length ∧ ¬ InReturns text first ∧ ¬ InReturns text last

instance (text : List Char) : (change : UserChange) → Decidable (change.Legal text)
  | .replaceAll _ => .isTrue trivial
  | .replace _ _ _ => inferInstanceAs (Decidable (_ ∧ _ ∧ ¬ _ ∧ ¬ _))

end UserChange

/-- The editor's text after some changes. -/
def userText (text : List Char) (changes : List UserChange) : List Char :=
  changes.foldl UserChange.apply text

/-- Changes as they are sent, each with the places of the text that it is made to. -/
def sentChanges (enc : Encoding) (text : List Char) : List UserChange → List Change
  | [] => []
  | change :: rest => change.sent enc text :: sentChanges enc (change.apply text) rest

/-- Every change is legal for the text that it is made to. -/
def AllLegal (text : List Char) : List UserChange → Prop
  | [] => True
  | change :: rest => change.Legal text ∧ AllLegal (change.apply text) rest

instance decidableAllLegal (text : List Char) : (changes : List UserChange) →
    Decidable (AllLegal text changes)
  | [] => .isTrue trivial
  | change :: rest =>
    have := decidableAllLegal (change.apply text) rest
    inferInstanceAs (Decidable (_ ∧ _))

/-- Sends the changes of each call to a workspace as one notification, call after call. -/
def Workspace.follow (ws : Workspace) (uri : Uri) (text : List Char) :
    List (List UserChange) → Except WorkspaceError Workspace
  | [] => .ok ws
  | call :: rest => do
    let ws ← ws.applyEdit uri (sentChanges ws.encoding text call)
    ws.follow uri (userText text call) rest

variable {enc : Encoding} {text : List Char} {a b : List UserChange}

theorem userText_append : userText text (a ++ b) = userText (userText text a) b :=
  List.foldl_append

theorem allLegal_append :
    AllLegal text (a ++ b) ↔ AllLegal text a ∧ AllLegal (userText text a) b := by
  induction a generalizing text with
  | nil => simp [AllLegal, userText]
  | cons change a ih => simp [AllLegal, userText, ih, and_assoc]

/-! ## One change, and the changes of one call -/

namespace Document

/-- A legal replacement is never refused, and cuts where the user cut. -/
theorem replaceRange?_placeOf (enc : Encoding) {first last : Nat} (new : List Char)
    (hle : first ≤ last)
    (hlast : last ≤ text.length) (hf : ¬ InReturns text first) (hl : ¬ InReturns text last) :
    ∃ cursor, replaceRange? enc text ⟨placeOf enc text first, placeOf enc text last⟩ new =
      some (text.take first ++ new ++ text.drop last, cursor) := by
  refine ⟨advance enc (boundary enc text (placeOf enc text first)) new, ?_⟩
  simp [replaceRange?, offsetOf?_placeOf (hle.trans hlast) hf, offsetOf?_placeOf hlast hl, hle]

/-- **One change keeps the stored text the editor's text.** -/
theorem text_applyChange {d : Document} {change : UserChange} (htext : d.text.toList = text)
    (h : change.Legal text) :
    (d.applyChange enc (change.sent enc text)).text.toList = change.apply text := by
  subst htext
  cases change with
  | replaceAll new => rfl
  | replace first last new =>
    obtain ⟨hle, hlast, hf, hl⟩ := h
    obtain ⟨cursor, hcut⟩ := replaceRange?_placeOf enc new.toList hle hlast hf hl
    simp only [applyChange, UserChange.sent, hcut, UserChange.apply, String.toList_ofList]

/-- So do the changes of one call, each of them made to the text that the one before has left. -/
theorem text_foldl_applyChange (enc : Encoding) {changes : List UserChange} :
    ∀ {d : Document} {text : List Char}, d.text.toList = text → AllLegal text changes →
      ((sentChanges enc text changes).foldl (fun d c => d.applyChange enc c) d).text.toList =
        userText text changes := by
  induction changes with
  | nil => intro d text htext _; exact htext
  | cons change rest ih =>
    intro d text htext hlegal
    exact ih (text_applyChange htext hlegal.1) hlegal.2

end Document

/-! ## Calls, one after the other -/

namespace Workspace

variable {ws : Workspace} {uri : Uri} {d : Document}

theorem entry_eq_ok_iff : ws.entry uri = .ok d ↔ ws.opened.find? uri.text = some d := by
  rw [entry]
  cases ws.opened.find? uri.text <;> simp

/-- What a call makes of an opened document. -/
theorem applyEdit_of_entry (h : ws.entry uri = .ok d) (changes : List Change) :
    ws.applyEdit uri changes = .ok { ws with
      opened := ws.opened.insert uri.text
        (changes.foldl (fun d change => d.applyChange ws.encoding change) d) } := by
  rw [applyEdit, h]
  rfl

/-- **A call keeps the stored text the editor's text**, and the way of counting places. -/
theorem applyEdit_sentChanges {changes : List UserChange} (h : ws.entry uri = .ok d)
    (htext : d.text.toList = text) (hlegal : AllLegal text changes) :
    ∃ ws' d', ws.applyEdit uri (sentChanges ws.encoding text changes) = .ok ws' ∧
      ws'.entry uri = .ok d' ∧ d'.text.toList = userText text changes := by
  refine ⟨_, _, applyEdit_of_entry h _, ?_,
    Document.text_foldl_applyChange ws.encoding htext hlegal⟩
  rw [entry_eq_ok_iff, Table.find?_insert_self]

theorem follow_calls {calls : List (List UserChange)} :
    ∀ {ws : Workspace} {d : Document} {text : List Char}, ws.entry uri = .ok d →
      d.text.toList = text → AllLegal text calls.flatten →
      ∃ ws' d', ws.follow uri text calls = .ok ws' ∧ ws'.entry uri = .ok d' ∧
        d'.text.toList = userText text calls.flatten := by
  induction calls with
  | nil => intro ws d text hopen htext _; exact ⟨ws, d, rfl, hopen, htext⟩
  | cons call rest ih =>
    intro ws d text hopen htext hlegal
    rw [List.flatten_cons, allLegal_append] at hlegal
    obtain ⟨ws₁, d₁, hcall, hopen₁, htext₁⟩ := applyEdit_sentChanges hopen htext hlegal.1
    obtain ⟨ws₂, d₂, hrest, hopen₂, htext₂⟩ := ih hopen₁ htext₁ hlegal.2
    refine ⟨ws₂, d₂, ?_, hopen₂, ?_⟩
    · rw [follow, hcall]
      exact hrest
    · rw [htext₂, List.flatten_cons, userText_append]

/-- **The stored text is the editor's text after every change**: however many of the changes have
been made, and however they were spread over calls, the document is still open and its text is what
the user sees. -/
theorem follow_keeps_text (ws : Workspace) (uri : Uri) (d : Document) (changes : List UserChange)
    (calls : List (List UserChange)) (hopen : ws.entry uri = .ok d)
    (hlegal : AllLegal d.text.toList changes) (hcalls : calls.flatten <+: changes) :
    ∃ ws' d', ws.follow uri d.text.toList calls = .ok ws' ∧ ws'.entry uri = .ok d' ∧
      d'.text = String.ofList (userText d.text.toList calls.flatten) := by
  obtain ⟨later, rfl⟩ := hcalls
  obtain ⟨ws', d', hrun, hopen', htext⟩ := follow_calls hopen rfl (allLegal_append.1 hlegal).1
  exact ⟨ws', d', hrun, hopen', by rw [← htext, String.ofList_toList]⟩

/-- Two calls to a text with a character of two units and a carriage return before its line feed. -/
theorem follow_keeps_text_over_breaks :
    let d := Document.ofText ⟨"file:///a.ls"⟩ .pendant "x😀y\r\nz" none
    let ws := { Workspace.empty with opened := Table.empty.insert d.uri.text d }
    let calls := [[UserChange.replace 2 3 "\nq"], [.replace 1 3 "", .replace 4 5 "é"]]
    AllLegal d.text.toList calls.flatten ∧
      ∃ ws' d', ws.follow d.uri d.text.toList calls = .ok ws' ∧ ws'.entry d.uri = .ok d' ∧
        d'.text = String.ofList (userText d.text.toList calls.flatten) := by
  intro d ws calls
  have hlegal : AllLegal d.text.toList calls.flatten := by decide
  have hopen : ws.entry d.uri = .ok d := entry_eq_ok_iff.2 Table.find?_insert_self
  exact ⟨hlegal, follow_keeps_text ws d.uri d _ calls hopen hlegal (List.prefix_refl _)⟩

end Workspace

end RobotSource
