import Mathlib.Data.Option.Basic
import Mathlib.Order.Basic
import RobotSource.Proofs.Parsing.Reading
import RobotSource.Proofs.Parsing.Words
import RobotSource.Proofs.Text.Lines
/-!
# Cursors of one text

A parser moves its cursor forward over the text. `Passes` says which text lies between two cursors,
and `Over` that it consists of characters of a given kind; both are followed through every parser by
way of `Reads`. A cursor is one of a given text (`Cursor.Of`) if it stands behind some beginning of
it. The positions that such cursors hold are places in the rows of the text: `rowSlice?_of` reads off
the row the very characters that lie between two of them.
-/

namespace RobotSource

/-! ## The order of positions -/

namespace Position

variable {p q : Position} {u : List Char}

theorem lt_iff : p < q ↔ p.line < q.line ∨ p.line = q.line ∧ p.column < q.column := Iff.rfl

theorem le_iff : p ≤ q ↔ p.line < q.line ∨ p.line = q.line ∧ p.column ≤ q.column := by
  obtain ⟨l, k⟩ := p
  obtain ⟨l', k'⟩ := q
  change (_ ∨ _) ↔ _
  simp only [lt_iff, mk.injEq]
  omega

instance : PartialOrder Position where
  le_refl p := le_iff.2 (.inr ⟨rfl, Nat.le_refl _⟩)
  le_trans p q r h h' := by
    simp only [le_iff] at h h' ⊢
    omega
  lt_iff_le_not_ge p q := by
    simp only [lt_iff, le_iff]
    omega
  le_antisymm p q h h' := by
    obtain ⟨l, k⟩ := p
    obtain ⟨l', k'⟩ := q
    simp only [le_iff, mk.injEq] at h h' ⊢
    omega

/-- Within a row only the column moves on. -/
theorem afterAll_of_notMem (h : '\n' ∉ u) : p.afterAll u = ⟨p.line, p.column + u.length⟩ := by
  induction u generalizing p with
  | nil => rfl
  | cons x u ih =>
    have hx : x ≠ '\n' := fun heq => h (heq ▸ List.mem_cons_self)
    rw [afterAll_cons, ih (List.not_mem_of_not_mem_cons h), after, if_neg hx,
      List.length_cons, Nat.add_assoc, Nat.add_comm 1]

theorem lt_after (p : Position) (x : Char) : p < p.after x := by
  rw [lt_iff, after]
  split <;> simp

theorem le_afterAll (p : Position) (u : List Char) : p ≤ p.afterAll u := by
  induction u generalizing p with
  | nil => exact le_refl p
  | cons x u ih => exact (lt_after p x).le.trans (ih _)

end Position

namespace Parsing

open Text List

/-! ## From one cursor to another -/

/-- The second cursor stands behind the text `u` at the first. -/
structure Passes (u : List Char) (c r : Cursor) : Prop where
  rest : c.rest = u ++ r.rest
  position : r.position = c.position.afterAll u

namespace Passes

variable {u v : List Char} {c c' r : Cursor}

theorem refl (c : Cursor) : Passes [] c c := ⟨rfl, rfl⟩

theorem trans (h : Passes u c c') (h' : Passes v c' r) : Passes (u ++ v) c r :=
  ⟨by rw [h.rest, h'.rest, append_assoc], by
    rw [h'.position, h.position, Position.afterAll_append]⟩

theorem drop (k : Nat) : Passes (c.rest.take k) c (c.drop k) :=
  ⟨(take_append_drop k c.rest).symm, rfl⟩

theorem takeWhile (q : Char → Bool) :
    Passes (c.rest.takeWhile q) c (c.drop (c.rest.takeWhile q).length) := by
  have htake := drop (c := c) (c.rest.takeWhile q).length
  rwa [take_length_takeWhile] at htake

theorem upTo_eq (h : Passes u c r) : c.upTo r = u := by
  rw [Cursor.upTo, h.rest, length_append, Nat.add_sub_cancel, take_left']
  rfl

theorem le (h : Passes u c r) : c.position ≤ r.position :=
  h.position ▸ Position.le_afterAll _ u

theorem lt (h : Passes u c r) (hu : u ≠ []) : c.position < r.position := by
  obtain ⟨x, u, rfl⟩ := exists_cons_of_ne_nil hu
  rw [h.position, Position.afterAll_cons]
  exact (Position.lt_after _ x).trans_le (Position.le_afterAll _ u)

end Passes

/-- The second cursor stands behind the first, with nothing but characters of a kind between. -/
def Over (K : Char → Prop) (c r : Cursor) : Prop := ∃ u, Passes u c r ∧ ∀ x ∈ u, K x

variable {K : Char → Prop} {c c' r : Cursor}

instance : IsPreorder Cursor (Over K) where
  refl c := ⟨[], .refl c, by simp⟩
  trans _ _ _ := by
    rintro ⟨u, hu, hku⟩ ⟨v, hv, hkv⟩
    refine ⟨u ++ v, hu.trans hv, fun x hx => ?_⟩
    rcases mem_append.1 hx with hx | hx
    · exact hku x hx
    · exact hkv x hx

theorem Over.trans {c'' : Cursor} (h : Over K c c') (h' : Over K c' c'') : Over K c c'' :=
  trans_of (Over K) h h'

theorem Over.le (h : Over K c r) : c.position ≤ r.position := by
  obtain ⟨u, hu, -⟩ := h
  exact hu.le

theorem Over.of_drop {k : Nat} (h : ∀ x ∈ c.rest.take k, K x) : Over K c (c.drop k) :=
  ⟨_, .drop k, h⟩

theorem Over.mono {K' : Char → Prop} (h : Over K c r) (hK : ∀ x, K x → K' x) : Over K' c r := by
  obtain ⟨u, hu, hk⟩ := h
  exact ⟨u, hu, fun x hx => hK x (hk x hx)⟩

/-- The second cursor stands behind the first, whatever lies between. -/
abbrev Along : Cursor → Cursor → Prop := Over fun _ => True

theorem Over.along (h : Over K c r) : Along c r := h.mono fun _ _ => trivial

/-! ## Tokens -/

theorem over_takeWhile {q : Char → Bool} (h : ∀ x, q x → K x) :
    Reads (Over K) (takeWhile q) where
  of_done hdone := by
    cases hdone
    exact ⟨_, .takeWhile q, fun x hx => h x (all_eq_true.1 all_takeWhile x hx)⟩

theorem over_digits (h : ∀ x, x.isDigit → K x) : Reads (Over K) digits where
  of_done hdone := by
    obtain ⟨-, rfl, rfl⟩ := takeWhile1_eq_done.1 hdone
    exact (over_takeWhile h).of_done rfl

theorem passes_char {x a : Char} (h : char x c = .done a r) : Passes [x] c r := by
  obtain ⟨-, rfl, t, ht⟩ := char_eq_done.1 h
  have hdrop := Passes.drop (c := c) 1
  rwa [ht, take_one, head?_cons, Option.toList_some] at hdrop

theorem over_char {x : Char} (h : K x) : Reads (Over K) (char x) :=
  ⟨fun hdone => ⟨[x], passes_char hdone, by simpa using h⟩⟩

theorem over_identifier (h : ∀ x, isNameChar x → K x) : Reads (Over K) identifier where
  of_done hdone := by
    obtain ⟨-, rfl, rfl⟩ := identifier_eq_done.1 hdone
    exact (over_takeWhile h).of_done rfl

theorem over_spaces (h : ∀ x, isSpaceOrTab x → K x) : Reads (Over K) spaces :=
  have := over_takeWhile h
  inferInstanceAs (Reads (Over K) (takeWhile isSpaceOrTab >>= fun _ => pure ()))

section
variable {word : String} (hspace : ∀ x, isSpaceOrTab x = true → K x)
  (hword : ∀ t k, matchLength? word.toList t = some k → ∀ x ∈ t.take k, K x)
include hspace hword

/-- A word keeps to the kind if every match of it does. -/
theorem over_symbol : Reads (Over K) (symbol word) where
  of_done hdone := by
    obtain ⟨k, hk, hspaces, -⟩ := symbol_eq_done hdone
    exact (Over.of_drop (hword _ _ hk)).trans ((over_spaces hspace).of_done hspaces)

theorem over_keyword : Reads (Over K) (keyword word) where
  of_done hdone := by
    obtain ⟨k, hk, -, hspaces, -⟩ := keyword_eq_done hdone
    exact (Over.of_drop (hword _ _ hk)).trans ((over_spaces hspace).of_done hspaces)

end

/-! ## Tokens in a line -/

theorem delimiter_isBreak : Delimiter isBreak := by
  have hbreak {p : Char → Prop} (hfeed : p '\n') (hreturn : p '\r') (x : Char)
      (hx : isBreak x) : p x := by
    simp only [isBreak, Bool.or_eq_true, beq_iff_eq] at hx
    rcases hx with rfl | rfl
    · exact hfeed
    · exact hreturn
  exact ⟨hbreak (by decide) (by decide), hbreak (by decide) (by decide),
    hbreak (by decide) (by decide)⟩

theorem not_isSpaceOrTab_of_isBreak {x : Char} (h : isBreak x) : isSpaceOrTab x = false := by
  simp only [isBreak, Bool.or_eq_true, beq_iff_eq] at h
  rcases h with rfl | rfl <;> rfl

/-- The kind has every character that may stand in a line. -/
class Lined (K : Char → Prop) : Prop where
  of_not_isBreak {x : Char} : isBreak x = false → K x

instance : Lined fun x => isBreak x = false := ⟨id⟩

section
variable [h : Lined K]
include h

theorem Lined.of_not {q : Char → Bool} (hq : ∀ x, isBreak x → q x = false) (x : Char)
    (hx : q x) : K x :=
  h.of_not_isBreak (Bool.eq_false_iff.2 fun hbreak => by simp [hq x hbreak] at hx)

instance : Reads (Over K) spaces := over_spaces (h.of_not fun _ => not_isSpaceOrTab_of_isBreak)

instance : Reads (Over K) identifier := over_identifier (h.of_not delimiter_isBreak.name)

instance : Reads (Over K) (takeWhile Char.isDigit) :=
  over_takeWhile (h.of_not fun _ => delimiter_isBreak.digit)

instance : Reads (Over K) digits := over_digits (h.of_not fun _ => delimiter_isBreak.digit)

instance {x : Char} [hx : Among x [signs, quotes]] : Reads (Over K) (char x) :=
  over_char (h.of_not_isBreak ((by decide : ∀ x ∈ [signs, quotes].flatten, isBreak x = false) x hx.mem))

theorem Lined.of_match {word : String} [hword : Worded word] (t : List Char) (k : Nat)
    (hk : matchLength? word.toList t = some k) (x : Char) (hx : x ∈ t.take k) : K x :=
  h.of_not_isBreak (notMem_of_matchLength? delimiter_isBreak hword.fact.2 hk x hx)

instance {sym : String} [Worded sym] : Reads (Over K) (symbol sym) :=
  over_symbol (h.of_not fun _ => not_isSpaceOrTab_of_isBreak) Lined.of_match

instance {word : String} [Worded word] : Reads (Over K) (keyword word) :=
  over_keyword (h.of_not fun _ => not_isSpaceOrTab_of_isBreak) Lined.of_match

end

/-- A line break leads to the next row. -/
theorem lineBreak_eq_done {a : List Char} (h : lineBreak c = .done a r) :
    Along c r ∧ r.position.line = c.position.line + 1 := by
  rw [lineBreak] at h
  split at h
  · rename_i t hrest
    cases h
    exact ⟨.of_drop fun _ _ => trivial, by simp [Cursor.drop, hrest, Position.after]⟩
  · rename_i t hrest
    cases h
    exact ⟨.of_drop fun _ _ => trivial, by simp [Cursor.drop, hrest, Position.after]⟩
  · cases h

/-- At the end of a line the next row begins, or the text is over. -/
theorem lineEnd_eq_done {a : List Char} (h : lineEnd c = .done a r) :
    Along c r ∧ (r.rest ≠ [] → r.position.line = c.position.line + 1) := by
  rcases Parser.orElse_eq_done h with h | h
  · exact ⟨(lineBreak_eq_done h).1, fun _ => (lineBreak_eq_done h).2⟩
  · rw [endOfText] at h
    split at h
    · rename_i hend
      cases h
      exact ⟨refl_of _ c, fun hrest => absurd (by simpa [Cursor.atEnd] using hend) hrest⟩
    · cases h

/-! ## Cursors and rows of a text -/

/-- The cursor is one of the text: it stands behind some beginning of it. -/
def Cursor.Of (text : List Char) (c : Cursor) : Prop := ∃ u, Passes u ⟨text, .first⟩ c

theorem Cursor.Of.over {text : List Char} (h : c.Of text) (h' : Over K c r) : r.Of text := by
  obtain ⟨u, hu⟩ := h
  obtain ⟨v, hv, -⟩ := h'
  exact ⟨u ++ v, hu.trans hv⟩

/-- The characters of a row between the two ends of a span, if the row has them. -/
def rowSlice? (text : List Char) (span : Span) : Option (List Char) := do
  let row ← (splitLines text)[span.start.line - 1]?
  guard (span.stop.column ≤ row.length + 1)
  return (row.drop (span.start.column - 1)).take (span.stop.column - span.start.column)

theorem afterAll_flatMap {init : List (List Char)} (h : ∀ l ∈ init, '\n' ∉ l) (line : Nat) :
    (⟨line, 1⟩ : Position).afterAll (init.flatMap (· ++ ['\n'])) = ⟨line + init.length, 1⟩ := by
  induction init generalizing line with
  | nil => rfl
  | cons l init ih =>
    obtain ⟨hl, hinit⟩ := forall_mem_cons.1 h
    rw [flatMap_cons, Position.afterAll_append, Position.afterAll_append,
      Position.afterAll_of_notMem hl, Position.afterAll_cons, Position.after, if_pos rfl,
      Position.afterAll_nil, ih hinit, List.length_cons]
    simp only [Position.mk.injEq, and_true]
    omega

/-- **The characters between two cursors in a row are those of the row between their positions.** -/
theorem rowSlice?_of {text u : List Char} (hc : c.Of text) (hu : Passes u c r)
    (hrow : '\n' ∉ u) : rowSlice? text ⟨c.position, r.position⟩ = some u := by
  obtain ⟨before, hbefore⟩ := hc
  obtain ⟨init, last, rfl, hinit, hlast, -⟩ := exists_splitLines_eq before
  have hposition : c.position = ⟨init.length + 1, last.length + 1⟩ := by
    rw [hbefore.position, Position.first, Position.afterAll_append, afterAll_flatMap hinit,
      Position.afterAll_of_notMem hlast, Nat.add_comm 1, Nat.add_comm 1]
  have hrows : splitLines text = init ++ splitLines (last ++ u ++ r.rest) := by
    have htext : text = _ := hbefore.rest
    rw [hu.rest, append_assoc] at htext
    rw [htext, splitLines_flatMap_append hinit, append_assoc]
  have hline : '\n' ∉ last ++ u := by
    simp [hlast, hrow]
  obtain ⟨rest, hrest⟩ := exists_splitLines_append (v := r.rest) hline
  have hfound : (splitLines text)[init.length]? = some (last ++ u ++ r.rest.takeWhile (· != '\n')) := by
    rw [hrows, getElem?_append_right (Nat.le_refl _), Nat.sub_self, hrest]
    rfl
  rw [hu.position, hposition, Position.afterAll_of_notMem hrow]
  simp only [rowSlice?, Nat.add_sub_cancel, hfound]
  simp only [guard, length_append, Option.bind_eq_bind, Option.bind_some, Option.pure_def]
  rw [if_pos (by omega)]
  simp

end Parsing

end RobotSource
