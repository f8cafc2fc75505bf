import RobotSource.Proofs.Editor.RangeOrder
/-!
# Changes carried out on bytes

A text in memory is cut at byte offsets. Unlike a cut between characters such a cut can go wrong: the
offset may lie inside a character or past the end of the text, or the second of two may lie before the
first. `cutAt` and `replaceBytes` stop with a fault there, and a fault is what a client's position must
never bring about.

Decoding, changes, the line of the cursor and the conversion to characters are carried out on bytes
here as well, with every cut checked. None of them ever faults, and each of them gives what it gives
when characters are counted (`Document.applyChangeInBytes_eq` and its like). The reason is
`byteOffsetOf?_eq`: the byte offset of a place is the size of the characters that it leaves before it.
-/

namespace RobotSource

open Text Editor Parsing List

/-! ## Sizes in bytes -/

namespace Parsing

variable {u v text : List Char} {m n : Nat}

theorem utf8Length_append : utf8Length (u ++ v) = utf8Length u + utf8Length v := by
  induction u with
  | nil => rw [nil_append, utf8Length, Nat.zero_add]
  | cons c u ih => rw [cons_append, utf8Length, utf8Length, ih, Nat.add_assoc]

theorem utf8Length_ofList (text : List Char) :
    utf8Length text = (String.ofList text).utf8ByteSize := by
  induction text with
  | nil => rfl
  | cons c text ih =>
    rw [utf8Length, ih, String.ofList_cons, String.utf8ByteSize_append, String.utf8ByteSize_singleton]

/-- More characters take more bytes. -/
theorem utf8Length_take_lt (hmn : m < n) (hn : n ≤ text.length) :
    utf8Length (text.take m) < utf8Length (text.take n) := by
  have hm : m < text.length := by omega
  have hnext : text.take m ++ [text[m]] <+: text.take n := by
    rw [← take_succ_eq_append_getElem hm]
    exact take_prefix_take_left hmn
  obtain ⟨more, hmore⟩ := hnext
  have hpos := Char.utf8Size_pos text[m]
  rw [← hmore, utf8Length_append, utf8Length_append, utf8Length]
  omega

theorem utf8Length_take_le_iff (hm : m ≤ text.length) (hn : n ≤ text.length) :
    utf8Length (text.take m) ≤ utf8Length (text.take n) ↔ m ≤ n := by
  constructor
  · intro hle
    refine Nat.le_of_not_lt fun hlt => ?_
    have := utf8Length_take_lt hlt hm
    omega
  · intro hle
    rcases Nat.lt_or_eq_of_le hle with hlt | rfl
    · exact (utf8Length_take_lt hlt hn).le
    · exact Nat.le_refl _

/-- Bytes are counted off in whole characters where a character ends. -/
theorem charsInBytes_append_utf8Length : charsInBytes (utf8Length u) (u ++ v) = some u.length := by
  induction u with
  | nil => rw [utf8Length, charsInBytes, length_nil]
  | cons c u ih =>
    obtain ⟨k, hk⟩ : ∃ k, utf8Length (c :: u) = k + 1 := by
      have := Char.utf8Size_pos c
      exact ⟨utf8Length (c :: u) - 1, by rw [utf8Length]; omega⟩
    have hsize : k + 1 = c.utf8Size + utf8Length u := hk.symm
    rw [hk, cons_append, charsInBytes, if_pos (by omega), hsize, Nat.add_sub_cancel_left, ih]
    rfl

theorem utf8Length_of_charsInBytes {k : Nat} (h : charsInBytes n text = some k) :
    utf8Length (text.take k) = n := by
  induction text generalizing n k with
  | nil =>
    cases n with
    | zero => rw [take_nil, utf8Length]
    | succ n => cases h
  | cons c text ih =>
    cases n with
    | zero =>
      obtain rfl := Option.some.inj h
      rfl
    | succ n =>
      rw [charsInBytes] at h
      split at h
      · obtain ⟨k, hk, rfl⟩ := Option.map_eq_some_iff.1 h
        rw [take_succ_cons, utf8Length, ih hk]
        omega
      · cases h

end Parsing

/-! ## Checked cuts -/

namespace Editor

/-- What can be wrong with a cut. -/
inductive CutFault where
  /-- the offset lies inside a character or past the end of the text -/
  | offBoundary (offset : Nat)
  /-- the second offset lies before the first -/
  | reversed (first last : Nat)
deriving DecidableEq, Repr

/-- The text before a byte offset, and the text from it on. -/
def cutAt (text : List Char) (offset : Nat) : Except CutFault (List Char × List Char) :=
  match charsInBytes offset text with
  | some n => .ok (text.take n, text.drop n)
  | none => .error (.offBoundary offset)

/-- The text with what stands between two byte offsets replaced. -/
def replaceBytes (text : List Char) (first last : Nat) (new : List Char) :
    Except CutFault (List Char) :=
  if first ≤ last then do
    let (before, _) ← cutAt text first
    let (_, behind) ← cutAt text last
    return before ++ new ++ behind
  else .error (.reversed first last)

variable {enc : Encoding} {u v text line : List Char} {n : Nat}

theorem cutAt_append : cutAt (u ++ v) (utf8Length u) = .ok (u, v) := by
  simp only [cutAt, charsInBytes_append_utf8Length, take_left, drop_left]

theorem cutAt_take : cutAt text (utf8Length (text.take n)) = .ok (text.take n, text.drop n) := by
  have h := cutAt_append (u := text.take n) (v := text.drop n)
  rwa [take_append_drop] at h

/-- **A cut goes through exactly where the bytes before it are text.** -/
theorem exists_cutAt_iff {s : String} :
    (∃ parts, cutAt s.toList n = .ok parts) ↔ (⟨n⟩ : String.Pos.Raw).IsValid s := by
  rw [String.Pos.Raw.isValid_iff_exists_append]
  constructor
  · rintro ⟨parts, hparts⟩
    rw [cutAt] at hparts
    split at hparts
    · rename_i k hk
      refine ⟨String.ofList (s.toList.take k), String.ofList (s.toList.drop k), ?_, ?_⟩
      · rw [← String.ofList_append, take_append_drop, String.ofList_toList]
      · rw [String.Pos.Raw.ext_iff, ← utf8Length_of_charsInBytes hk, utf8Length_ofList]
        rfl
    · cases hparts
  · rintro ⟨before, behind, rfl, hn⟩
    have hsize : n = utf8Length before.toList := by
      rw [utf8Length_ofList, String.ofList_toList]
      exact congrArg String.Pos.Raw.byteIdx hn
    rw [hsize, String.toList_append]
    exact ⟨_, cutAt_append⟩

theorem replaceBytes_take {first last : Nat} {new : List Char} (hle : first ≤ last)
    (hlast : last ≤ text.length) :
    replaceBytes text (utf8Length (text.take first)) (utf8Length (text.take last)) new =
      .ok (text.take first ++ new ++ text.drop last) := by
  rw [replaceBytes, if_pos ((utf8Length_take_le_iff (hle.trans hlast) hlast).2 hle), cutAt_take,
    cutAt_take]
  rfl

/-! ## Decoding to bytes -/

/-- How many bytes of the line lie before the given number of units. -/
def bytesWithin (enc : Encoding) : List Char → Nat → Nat
  | [], _ => 0
  | c :: cs, n => if n = 0 then 0 else c.utf8Size + bytesWithin enc cs (n - enc.units c)

/-- The number of bytes before a place, counted over the given lines, each with its line feed. -/
def byteOffsetInLines? (enc : Encoding) : List (List Char) → (line character : Nat) → Option Nat
  | [], _, _ => none
  | line :: _, 0, character => some (bytesWithin enc (dropReturns line) character)
  | line :: rest, n + 1, character =>
    (byteOffsetInLines? enc rest n character).map (utf8Length line + 1 + ·)

/-- The number of bytes of the text before a place. -/
def byteOffsetOf? (enc : Encoding) (text : List Char) (p : Position) : Option Nat :=
  byteOffsetInLines? enc (splitLines text) p.line p.character

/-- The part of a line before a place in it, cut off at its byte. -/
def lineBeforeInBytes (enc : Encoding) (line : List Char) (character : Nat) :
    Except CutFault (List Char) := do
  let code := dropReturns line
  let (before, _) ← cutAt code (bytesWithin enc code character)
  return before

theorem bytesWithin_eq (cs : List Char) (n : Nat) :
    bytesWithin enc cs n = utf8Length (cs.take (enc.charsWithin cs n)) := by
  induction cs generalizing n with
  | nil => rfl
  | cons c cs ih =>
    rw [bytesWithin, Encoding.charsWithin]
    split
    · rfl
    · rw [ih, take_succ_cons, utf8Length]

theorem byteOffsetInLines?_eq (lines : List (List Char)) (l k : Nat) :
    byteOffsetInLines? enc lines l k =
      (offsetInLines? enc lines l k).map fun n =>
        utf8Length ((joinLines ['\n'] lines).take n) := by
  induction lines generalizing l with
  | nil => rfl
  | cons line lines ih =>
    cases l with
    | zero =>
      -- a place on the first line is decoded within it
      obtain ⟨more, hmore⟩ : dropReturns line <+: joinLines ['\n'] (line :: lines) := by
        refine dropEndWhile_isPrefix.trans ?_
        cases lines with
        | nil => exact prefix_rfl
        | cons next lines =>
          rw [joinLines_cons (by simp)]
          exact prefix_append _ _
      rw [byteOffsetInLines?, offsetInLines?, Option.map_some, bytesWithin_eq, ← hmore,
        take_append_of_le_length (enc.charsWithin_le_length _ _)]
    | succ l =>
      rw [byteOffsetInLines?, offsetInLines?, ih, Option.map_map, Option.map_map]
      cases lines with
      | nil => rfl
      | cons next lines =>
        refine congrArg (Option.map · _) (funext fun n => ?_)
        -- the first line and its line feed are taken whole
        have htake : (joinLines ['\n'] (line :: next :: lines)).take (line.length + 1 + n) =
            line ++ '\n' :: (joinLines ['\n'] (next :: lines)).take n := by
          rw [joinLines_cons (cons_ne_nil next lines), Nat.add_assoc,
            take_length_add_append, Nat.add_comm 1 n, singleton_append,
            take_succ_cons]
        simp only [Function.comp_apply, htake, utf8Length_append, utf8Length]
        rw [Nat.add_assoc]
        rfl

/-- **The byte offset of a place is the size of the characters before it.** -/
theorem byteOffsetOf?_eq (text : List Char) (p : Position) :
    byteOffsetOf? enc text p =
      (offsetOf? enc text p).map fun n => utf8Length (text.take n) := by
  rw [byteOffsetOf?, byteOffsetInLines?_eq, joinLines_splitLines, offsetOf?]

/-- **A line is never cut inside a character.** -/
theorem lineBeforeInBytes_eq (line : List Char) (character : Nat) :
    lineBeforeInBytes enc line character = .ok (Document.lineBefore enc line character) := by
  rw [lineBeforeInBytes, bytesWithin_eq]
  simp only [cutAt_take, Document.lineBefore]
  rfl

end Editor

/-! ## Documents on bytes -/

namespace Document

/-- Follows a change of the text with byte offsets. -/
def applyChangeInBytes (enc : Encoding) (d : Document) (change : Change) :
    Except CutFault Document :=
  match change.range with
  | none =>
    .ok { d with text := change.text, cursor := some (advance enc ⟨0, 0⟩ change.text.toList) }
  | some range =>
    let text := d.text.toList
    match byteOffsetOf? enc text range.start, byteOffsetOf? enc text range.stop with
    | some first, some last =>
      if first ≤ last then do
        let line := (splitLines text)[range.start.line]?.getD []
        let before ← lineBeforeInBytes enc line range.start.character
        let text ← replaceBytes text first last change.text.toList
        return { d with
          text := String.ofList text
          cursor := some (advance enc ⟨range.start.line, enc.count before⟩ change.text.toList) }
      else .ok d
    | _, _ => .ok d

/-- The line of the cursor up to the cursor, cut off at its byte. -/
def cursorLineInBytes (enc : Encoding) (d : Document) : Except CutFault (Option String) :=
  match d.cursor with
  | none => .ok none
  | some p =>
    match (splitLines d.text.toList)[p.line]? with
    | none => .ok none
    | some line => (lineBeforeInBytes enc line p.character).map fun l => some (String.ofList l)

/-- A place counted in characters, by way of the bytes before it. -/
def charPositionInBytes (enc : Encoding) (text : String) (p : Editor.Position) :
    Except CutFault Editor.Position :=
  match (splitLines text.toList)[p.line]? with
  | none => .ok p
  | some line => (lineBeforeInBytes enc line p.character).map fun l => ⟨p.line, l.length⟩

variable {enc : Encoding}

/-- **A change never cuts where it must not.** -/
theorem applyChangeInBytes_eq (enc : Encoding) (d : Document) (change : Change) :
    d.applyChangeInBytes enc change = .ok (d.applyChange enc change) := by
  cases hrange : change.range with
  | none => simp only [applyChangeInBytes, applyChange, hrange]
  | some range =>
    simp only [applyChangeInBytes, applyChange, hrange, byteOffsetOf?_eq, replaceRange?]
    cases hfirst : offsetOf? enc d.text.toList range.start with
    | none => rfl
    | some first =>
      cases hlast : offsetOf? enc d.text.toList range.stop with
      | none => rfl
      | some last =>
        obtain ⟨-, -, -, -, -, -, -, hfirstLe⟩ := exists_of_offsetOf? hfirst
        obtain ⟨-, -, -, -, -, -, -, hlastLe⟩ := exists_of_offsetOf? hlast
        -- both ways the offsets are found to be in order, or both ways they are not
        have hiff := utf8Length_take_le_iff hfirstLe hlastLe
        by_cases hle : first ≤ last
        · simp only [Option.map_some, if_pos (hiff.2 hle), lineBeforeInBytes_eq,
            replaceBytes_take hle hlastLe, Option.bind_eq_bind, Option.bind_some, guard, if_pos hle]
          rfl
        · simp only [Option.map_some, if_neg (mt hiff.1 hle), Option.bind_eq_bind, Option.bind_some,
            guard, if_neg hle]
          rfl

/-- **Neither does the line of the cursor.** -/
theorem cursorLineInBytes_eq (enc : Encoding) (d : Document) :
    d.cursorLineInBytes enc = .ok (d.cursorLine? enc) := by
  unfold cursorLineInBytes cursorLine?
  cases d.cursor with
  | none => rfl
  | some p =>
    simp only [Option.bind_some, lineBeforeInBytes_eq]
    cases (splitLines d.text.toList)[p.line]? <;> rfl

/-- **Nor the conversion of a place to characters.** -/
theorem charPositionInBytes_eq (enc : Encoding) (text : String) (p : Editor.Position) :
    charPositionInBytes enc text p = .ok (charPosition enc text p) := by
  unfold charPositionInBytes charPosition
  simp only [lineBeforeInBytes_eq]
  cases (splitLines text.toList)[p.line]? <;> rfl

end Document

/-! ## Ranges of a client -/

/-- Two places in order are decoded to byte offsets in order, none of them inside a character. -/
theorem Editor.exists_byteOffsetOf? (enc : Encoding) {text : String} {p q : Position} {m n : Nat}
    (hp : offsetOf? enc text.toList p = some m) (hq : offsetOf? enc text.toList q = some n)
    (hmn : m ≤ n) :
    ∃ first last, byteOffsetOf? enc text.toList p = some first ∧
      byteOffsetOf? enc text.toList q = some last ∧ first ≤ last ∧ last ≤ text.utf8ByteSize ∧
      (⟨first⟩ : String.Pos.Raw).IsValid text ∧ (⟨last⟩ : String.Pos.Raw).IsValid text := by
  have hn : n ≤ text.toList.length := by
    obtain ⟨-, -, -, -, -, -, -, hn⟩ := exists_of_offsetOf? hq
    exact hn
  refine ⟨utf8Length (text.toList.take m), utf8Length (text.toList.take n), ?_, ?_,
    (utf8Length_take_le_iff (hmn.trans hn) hn).2 hmn, ?_, exists_cutAt_iff.1 ⟨_, cutAt_take⟩,
    exists_cutAt_iff.1 ⟨_, cutAt_take⟩⟩
  · rw [byteOffsetOf?_eq, hp, Option.map_some]
  · rw [byteOffsetOf?_eq, hq, Option.map_some]
  · have hsize := utf8Length_ofList text.toList
    rw [String.ofList_toList] at hsize
    rw [← hsize]
    calc utf8Length (text.toList.take n)
        ≤ utf8Length (text.toList.take text.toList.length) :=
          (utf8Length_take_le_iff hn (Nat.le_refl _)).2 hn
      _ = utf8Length text.toList := by rw [take_length]

/-- **Ranges are decoded in order and safely.** Two places in order, on lines that exist, are decoded
to offsets in order within the text, in characters and in bytes, and the byte offsets lie between
characters. So a range in order is refused exactly if it ends on no line; and a change that is refused
leaves the document as it is, and the changes behind it are made as if it had not been sent. No place,
whatever it is, makes a change, the line of the cursor or the conversion to characters cut a text where
it cannot be cut. -/
theorem Workspace.range_decoding_safe :
    (∀ (enc : Encoding) (text : String) (p q : Editor.Position), p ≤ q →
      p.line < (splitLines text.toList).length → q.line < (splitLines text.toList).length →
      (∃ m n, offsetOf? enc text.toList p = some m ∧ offsetOf? enc text.toList q = some n ∧
        m ≤ n ∧ n ≤ text.toList.length) ∧
      ∃ first last, byteOffsetOf? enc text.toList p = some first ∧
        byteOffsetOf? enc text.toList q = some last ∧ first ≤ last ∧ last ≤ text.utf8ByteSize ∧
        (⟨first⟩ : String.Pos.Raw).IsValid text ∧ (⟨last⟩ : String.Pos.Raw).IsValid text) ∧
    (∀ (ws : Workspace) (uri : Uri) (d : Document) (earlier later : List Change) (change : Change)
      (range : Editor.Range), ws.entry uri = .ok d → change.range = some range →
      let found := earlier.foldl (fun d c => d.applyChange ws.encoding c) d
      (range.start ≤ range.stop → (change.cut? ws.encoding found.text.toList = none ↔
        (splitLines found.text.toList).length ≤ range.stop.line)) ∧
      (change.cut? ws.encoding found.text.toList = none →
        found.applyChange ws.encoding change = found ∧
        ws.applyEdit uri (earlier ++ change :: later) = ws.applyEdit uri (earlier ++ later))) ∧
    (∀ (enc : Encoding) (d : Document),
      (∀ change, d.applyChangeInBytes enc change = .ok (d.applyChange enc change)) ∧
      d.cursorLineInBytes enc = .ok (d.cursorLine? enc) ∧
      ∀ p, Document.charPositionInBytes enc d.text p = .ok (Document.charPosition enc d.text p)) := by
  refine ⟨?_, ?_, ?_⟩
  · intro enc text p q hle hp hq
    obtain ⟨m, hm⟩ := exists_offsetOf? enc hp
    obtain ⟨n, hn⟩ := exists_offsetOf? enc hq
    have hmn := offsetOf?_mono hle hm hn
    obtain ⟨-, -, -, -, -, -, -, hlength⟩ := exists_of_offsetOf? hn
    exact ⟨⟨m, n, hm, hn, hmn, hlength⟩, exists_byteOffsetOf? enc hm hn hmn⟩
  · intro ws uri d earlier later change range hopen hrange found
    exact ⟨Change.cut?_eq_none_iff hrange, fun hrefused =>
      ⟨Document.applyChange_of_refused hrefused, applyEdit_of_refused later hopen hrefused⟩⟩
  · exact fun enc d => ⟨d.applyChangeInBytes_eq enc, d.cursorLineInBytes_eq enc,
      Document.charPositionInBytes_eq enc d.text⟩

/-- A place inside a character of two units, one far behind the end of its line, and a change that
ends on no line between two others. -/
theorem Workspace.range_decoding_safe_inside_pair :
    let d := Document.ofText ⟨"file:///a.ls"⟩ .pendant "a😀\r\né" none
    let ws := { Workspace.empty with opened := Table.empty.insert d.uri.text d }
    let first : Change := ⟨some ⟨⟨0, 2⟩, ⟨1, 99⟩⟩, "x"⟩
    let beyond : Change := ⟨some ⟨⟨0, 0⟩, ⟨1, 0⟩⟩, "y"⟩
    let last : Change := ⟨some ⟨⟨0, 0⟩, ⟨0, 0⟩⟩, "z"⟩
    ((⟨5⟩ : String.Pos.Raw).IsValid d.text ∧ (⟨9⟩ : String.Pos.Raw).IsValid d.text) ∧
      byteOffsetOf? .utf16 d.text.toList ⟨0, 2⟩ = some 5 ∧
      byteOffsetOf? .utf16 d.text.toList ⟨1, 99⟩ = some 9 ∧
      ws.applyEdit d.uri [first, beyond, last] = ws.applyEdit d.uri [first, last] := by
  intro d ws first beyond last
  have hp : byteOffsetOf? .utf16 d.text.toList ⟨0, 2⟩ = some 5 := by decide
  have hq : byteOffsetOf? .utf16 d.text.toList ⟨1, 99⟩ = some 9 := by decide
  obtain ⟨-, a, b, ha, hb, -, -, hfirst, hlast⟩ :=
    range_decoding_safe.1 .utf16 d.text ⟨0, 2⟩ ⟨1, 99⟩ (by decide) (by decide) (by decide)
  rw [hp] at ha
  rw [hq] at hb
  obtain rfl := Option.some.inj ha
  obtain rfl := Option.some.inj hb
  have hopen : ws.entry d.uri = .ok d := entry_eq_ok_iff.2 Table.find?_insert_self
  refine ⟨⟨hfirst, hlast⟩, hp, hq, ?_⟩
  obtain ⟨hiff, hskip⟩ := range_decoding_safe.2.1 ws d.uri d [first] [last] beyond _ hopen rfl
  exact (hskip ((hiff (by decide)).2 (by decide))).2

end RobotSource
