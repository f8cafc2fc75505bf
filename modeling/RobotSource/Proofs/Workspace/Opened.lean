import RobotSource.Proofs.Workspace.Isolation
/-!
# What holds of every opened document

An opened document has come about from a text that was parsed, by changes of its text, notes of its
version and further parses. What holds of a text that has not been parsed yet and is kept by each of
these steps (`Document.Invariant`) holds of every opened document of every workspace that can come
about (`Reachable.opened`).
-/

namespace RobotSource

open Text

/-- What a fresh document has and every step in its life keeps. -/
structure Document.Invariant (P : Document → Prop) : Prop where
  ofText : ∀ uri language text version, P (.ofText uri language text version)
  applyChange : ∀ (enc : Encoding) d change, P d → P (d.applyChange enc change)
  setVersion : ∀ d version, P d → P { d with version := some version }
  parse : ∀ d, P d → P d.parse.1

namespace Document.Invariant

variable {P : Document → Prop} {d : Document}

theorem foldl_applyChange (hP : Invariant P) (enc : Encoding) (changes : List Change) (hd : P d) :
    P (changes.foldl (fun d change => d.applyChange enc change) d) := by
  induction changes generalizing d with
  | nil => exact hd
  | cons change changes ih => exact ih (hP.applyChange enc d change hd)

/-- An edit keeps the invariant, whichever it is. -/
theorem edited (hP : Invariant P) (enc : Encoding) (operation : Operation) (hd : P d) :
    P (operation.edited enc d) := by
  cases operation with
  | applyEdit _ changes => exact hP.foldl_applyChange enc changes hd
  | setVersion _ version => exact hP.setVersion d version hd
  | reparse _ => exact hP.parse d hd
  | _ => exact hd

end Document.Invariant

namespace Workspace

variable {ws : Workspace} {P : Document → Prop} {key : String} {d : Document}

/-- **One operation keeps what holds of all opened documents.** -/
theorem opened_run (hP : Document.Invariant P) (operation : Operation)
    (h : ∀ key d, ws.opened.find? key = some d → P d) :
    ∀ key d, (operation.run ws).opened.find? key = some d → P d := by
  -- what is inserted may be any document with the property
  have hinsert {uri : Uri} {e : Document} (he : P e) :
      ∀ key d, (ws.opened.insert uri.text e).find? key = some d → P d := by
    intro key d hfind
    rw [Table.find?_insert] at hfind
    split at hfind
    · cases hfind
      exact he
    · exact h key d hfind
  refine run_induction (I := fun ws => ∀ key d, ws.opened.find? key = some d → P d) operation h
    (fun uri language text version _ => ?_) (fun uri key d hfind => ?_) (fun _ _ _ _ _ => h)
    (fun uri e hfind => hinsert (hP.edited ws.encoding operation (h uri.text e hfind)))
    fun files folders settings => by rwa [opened_scan]
  · rw [opened_openDocument]
    exact hinsert (hP.parse _ (hP.ofText uri language text version))
  · rw [opened_close, Table.find?_erase] at hfind
    split at hfind
    · cases hfind
    · exact h key d hfind

/-- **So does every run**: an invariant of documents holds of every document that is open. -/
theorem Reachable.opened (hP : Document.Invariant P) (hws : Reachable ws) :
    ∀ key d, ws.opened.find? key = some d → P d := by
  induction hws with
  | empty =>
    intro key d hfind
    cases hfind
  | run operation _ ih => exact opened_run hP operation ih
  | configure folders encoding _ ih => exact ih

end Workspace

end RobotSource
