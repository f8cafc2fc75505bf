import RobotSource.Proofs.Editor.Change
import RobotSource.Proofs.Editor.Following
/-!
# Places in order are decoded in order

Places are ordered by line, then by character. Decoding keeps the order (`offsetOf?_mono`): within a
line because more units reach over more characters, and from one line to a later one because no place
is decoded beyond the end of its line. So a range whose places are in order is refused only if it ends
on no line (`Change.cut?_eq_none_iff`). A change that is refused might as well not have been sent
(`Workspace.applyEdit_of_refused`).
-/

namespace RobotSource

open Text Editor

theorem Text.Encoding.charsWithin_mono {enc : Encoding} {cs : List Char} {m n : Nat} (h : m ≤ n) :
    enc.charsWithin cs m ≤ enc.charsWithin cs n := by
  induction cs generalizing m n with
  | nil => exact Nat.le_refl 0
  | cons c cs ih =>
    rw [charsWithin, charsWithin]
    by_cases hm : m = 0
    · simp [hm]
    · rw [if_neg hm, if_neg (by omega)]
      exact Nat.succ_le_succ (ih (Nat.sub_le_sub_right h _))

namespace Editor

/-- Places are ordered by line, then by character. -/
instance : LE Position :=
  ⟨fun p q => p.line < q.line ∨ p.line = q.line ∧ p.character ≤ q.character⟩

instance (p q : Position) : Decidable (p ≤ q) :=
  inferInstanceAs (Decidable (_ ∨ _))

variable {enc : Encoding} {text : List Char} {p q : Position} {m n : Nat}

theorem Position.le_iff :
    p ≤ q ↔ p.line < q.line ∨ p.line = q.line ∧ p.character ≤ q.character := Iff.rfl

/-- Along the lines: either both places are on the first of them, or only the earlier one is, or both
are behind it. -/
theorem offsetInLines?_mono {lines : List (List Char)} {l l' k k' : Nat}
    (hp : offsetInLines? enc lines l k = some m) (hq : offsetInLines? enc lines l' k' = some n)
    (hle : l < l' ∨ l = l' ∧ k ≤ k') : m ≤ n := by
  induction lines generalizing l l' m n with
  | nil => cases hp
  | cons line lines ih =>
    cases l with
    | zero =>
      obtain rfl := Option.some.inj hp
      cases l' with
      | zero =>
        obtain rfl := Option.some.inj hq
        exact Encoding.charsWithin_mono (by omega)
      | succ l' =>
        obtain ⟨n, -, rfl⟩ := Option.map_eq_some_iff.1 hq
        have hcode : (dropEndWhile (· == '\r') line).length ≤ line.length :=
          dropEndWhile_isPrefix.length_le
        have hwithin := enc.charsWithin_le_length (dropReturns line) k
        rw [dropReturns] at hwithin ⊢
        omega
    | succ l =>
      cases l' with
      | zero => omega
      | succ l' =>
        obtain ⟨m, hm, rfl⟩ := Option.map_eq_some_iff.1 hp
        obtain ⟨n, hn, rfl⟩ := Option.map_eq_some_iff.1 hq
        exact Nat.add_le_add_left (ih hm hn (by omega)) _

/-- **Decoding keeps the order of places.** -/
theorem offsetOf?_mono (hle : p ≤ q) (hp : offsetOf? enc text p = some m)
    (hq : offsetOf? enc text q = some n) : m ≤ n :=
  offsetInLines?_mono hp hq hle

theorem exists_offsetOf? (enc : Encoding) (h : p.line < (splitLines text).length) :
    ∃ n, offsetOf? enc text p = some n := by
  refine Option.ne_none_iff_exists'.1 fun hnone => ?_
  have := offsetOf?_eq_none_iff.1 hnone
  omega

end Editor

/-- **A range in order is refused exactly if it ends on no line.** -/
theorem Change.cut?_eq_none_iff {enc : Encoding} {text : List Char} {change : Change}
    {range : Editor.Range} (hrange : change.range = some range) (hle : range.start ≤ range.stop) :
    change.cut? enc text = none ↔ (splitLines text).length ≤ range.stop.line := by
  constructor
  · intro hnone
    refine Nat.le_of_not_lt fun hlast => ?_
    have hfirst : range.start.line < (splitLines text).length := by
      rw [Editor.Position.le_iff] at hle
      omega
    obtain ⟨first, hfirst⟩ := exists_offsetOf? enc hfirst
    obtain ⟨last, hlast⟩ := exists_offsetOf? enc hlast
    have hcut := (cut?_of_range hrange).2 ⟨hfirst, hlast, offsetOf?_mono hle hfirst hlast⟩
    rw [hnone] at hcut
    cases hcut
  · intro hout
    refine Option.eq_none_iff_forall_not_mem.2 fun ⟨first, last⟩ hcut => ?_
    have hlast := ((cut?_of_range hrange).1 hcut).2.1
    rw [offsetOf?_eq_none_iff.2 hout] at hlast
    cases hlast

/-- **A change that is refused makes no difference**, whatever comes before and behind it. -/
theorem Workspace.applyEdit_of_refused {ws : Workspace} {uri : Uri} {d : Document}
    {earlier : List Change} {change : Change} (later : List Change) (hopen : ws.entry uri = .ok d)
    (h : change.cut? ws.encoding
      (earlier.foldl (fun d c => d.applyChange ws.encoding c) d).text.toList = none) :
    ws.applyEdit uri (earlier ++ change :: later) = ws.applyEdit uri (earlier ++ later) := by
  rw [applyEdit_of_entry hopen, applyEdit_of_entry hopen, List.foldl_append, List.foldl_cons,
    Document.applyChange_of_refused h, List.foldl_append]

end RobotSource
