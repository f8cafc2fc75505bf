import RobotSource.Proofs.Karel.CodeEnd
import RobotSource.Proofs.Karel.Grammar.Spelling
/-!
# The tokens that parsers read

The pieces of a text are cut without regard to the grammar. Here the parsers of tokens are seen to
read just them: `LexesOne` is said of a parser that reads a single token, and `Lexes` of one that
reads tokens, with white space between them or behind.
-/

namespace RobotSource.Karel.Grammar

open Parsing Parsing.Parser Text
open List hiding takeWhile

variable {α β : Type} {c r : Cursor} {ls ms : List Piece} {p q : Parser α}
variable {x : Char} {t : List Char}

/-! ## White space -/

/-- White space has been taken. -/
def Settled (c : Cursor) : Prop := blankLength false c.rest = 0

/-- Only tokens, white space and comments stand there. -/
def Ordinary (ls : List Piece) : Prop := ∀ l ∈ ls, l.isGap = true ∨ l.kind = .token

theorem Ordinary.append (h : Ordinary ls) (h' : Ordinary ms) : Ordinary (ls ++ ms) := by
  intro l hl
  rcases mem_append.1 hl with hl | hl
  · exact h l hl
  · exact h' l hl

theorem Ordinary.ne_stray (h : Ordinary ls) {l : Piece} (hl : l ∈ ls) : l.kind ≠ .stray := by
  intro hkind
  rcases h l hl with hgap | htoken
  · rw [Piece.isGap, hkind] at hgap
    cases hgap
  · rw [hkind] at htoken
    cases htoken

theorem Ordinary.of_isGap (h : ∀ l ∈ ls, l.isGap) : Ordinary ls := fun l hl => .inl (h l hl)

theorem walk_blanks (c : Cursor) : ∃ ls, Walk ls c (c.drop (blankLength false c.rest)) ∧
    Ordinary ls ∧ Settled (c.drop (blankLength false c.rest)) := by
  obtain ⟨ls, hgap, hflat, hpieces, hend⟩ := exists_gap c.rest
  exact ⟨ls, walk_drop hflat hpieces, .of_isGap hgap, hend⟩

theorem walk_spaces {a : Unit} (h : spaces c = .done a r) : ∃ ls, Walk ls c r ∧ Ordinary ls := by
  cases h
  obtain ⟨ls, hgap, hflat, hpieces⟩ := exists_spaces c.rest
  rw [← drop_length_takeWhile] at hflat hpieces
  exact ⟨ls, walk_drop hflat hpieces, .of_isGap hgap⟩

/-! ## Tokens -/

/-- A token at a place without white space is a piece. -/
theorem walk_token {n : Nat} (hc : Settled c) (h : tokenLength? c.rest = some n) :
    Walk [⟨.token, c.rest.take n⟩] c (c.drop n) :=
  walk_drop (by simp) (pieces_token hc h)

theorem Ordinary.token (u : List Char) : Ordinary [⟨.token, u⟩] := by
  intro l hl
  rw [mem_singleton.1 hl]
  exact .inr rfl

/-- The parser reads just a token, wherever it is. -/
def LexesOne (p : Parser α) : Prop :=
  ∀ c a r, p c = .done a r → Settled c ∧ ∃ n, tokenLength? c.rest = some n ∧ r = c.drop n

theorem LexesOne.orElse (h : LexesOne p) (h' : LexesOne q) : LexesOne (p <|> q) := by
  intro c a r hdone
  rcases orElse_eq_done hdone with hdone | hdone
  · exact h c a r hdone
  · exact h' c a r hdone

/-- The parser reads a token, and possibly more, wherever it is. -/
def Lexes (p : Parser α) : Prop :=
  ∀ c a r, p c = .done a r → Settled c ∧ ∃ ls, Walk ls c r ∧ ls ≠ [] ∧ Ordinary ls

theorem LexesOne.lexes (h : LexesOne p) : Lexes p := by
  intro c a r hdone
  obtain ⟨hc, n, hn, rfl⟩ := h c a r hdone
  exact ⟨hc, _, walk_token hc hn, by simp, .token _⟩

namespace Lexes

/-- Something ordinary may follow. -/
theorem bind_of {f : α → Parser β} (h : Lexes p)
    (hf : ∀ a c x r, f a c = .done x r → ∃ ls, Walk ls c r ∧ Ordinary ls) : Lexes (p >>= f) := by
  intro c x r hdone
  obtain ⟨a, c₁, hp, hdone⟩ := bind_eq_done.1 hdone
  obtain ⟨hc, ls, hwalk, hne, hls⟩ := h c a c₁ hp
  obtain ⟨ms, hwalk', hms⟩ := hf a c₁ x r hdone
  exact ⟨hc, ls ++ ms, hwalk.trans hwalk', by simp [hne], hls.append hms⟩

theorem bind {f : α → Parser β} (h : Lexes p) (hf : ∀ a, Lexes (f a)) : Lexes (p >>= f) :=
  h.bind_of fun a c x r hdone => by
    obtain ⟨-, ls, hwalk, -, hls⟩ := hf a c x r hdone
    exact ⟨ls, hwalk, hls⟩

theorem map {f : α → β} (h : Lexes p) : Lexes (f <$> p) :=
  h.bind_of fun a c x r hdone => by
    cases hdone
    exact ⟨[], .refl _, by simp [Ordinary]⟩

theorem orElse (h : Lexes p) (h' : Lexes q) : Lexes (p <|> q) := by
  intro c a r hdone
  rcases orElse_eq_done hdone with hdone | hdone
  · exact h c a r hdone
  · exact h' c a r hdone

end Lexes

/-- A token that begins with a character other than white space and a dash. -/
theorem settled_of_cons (hc : c.rest = x :: t) (hx : isSpacing x = false)
    (hdash : x ≠ '-') : Settled c := by
  rw [Settled, hc, blankLength_eq_zero]
  exact ⟨hx, fun h => hdash h.1⟩

theorem not_isSpacing_of_isNameStart (h : isNameStart x) : isSpacing x = false ∧ x ≠ '-' :=
  not_isSpacing_of_isOpening (by simp [isOpening, h])

theorem lexesOne_identifier : LexesOne identifier := by
  intro c a r hdone
  obtain ⟨hstart, rfl, rfl⟩ := identifier_eq_done.1 hdone
  obtain ⟨x, t, hc, hx⟩ := exists_cons_of_any hstart
  have hopening := not_isSpacing_of_isNameStart hx
  refine ⟨settled_of_cons hc hopening.1 hopening.2, _, ?_, rfl⟩
  rw [hc, tokenLength?, if_pos hx, takeWhile_cons_of_pos (isNameChar_of_isNameStart hx),
    length_cons, Nat.add_comm]

theorem lexesOne_name : LexesOne name :=
  fun c a r hdone => lexesOne_identifier c a r (name_eq_done hdone).1

/-- A mark is a token where it does not begin a number or a longer mark. -/
theorem tokenLength?_mark (hx : x ∈ singleMarks)
    (hpoint : x = '.' → t.head?.any Char.isDigit = false) (hdouble : ¬ (x :: t).take 2 ∈ doubleMarks) :
    tokenLength? (x :: t) = some 1 := by
  have hall : (singleMarks.all fun x => !isNameStart x && !x.isDigit && x != '\'' && x != '$') =
      true := by decide
  have hplain := all_eq_true.1 hall x hx
  simp only [Bool.and_eq_true, Bool.not_eq_true', bne_iff_ne] at hplain
  obtain ⟨⟨⟨hname, hdigit⟩, hquote⟩, hdollar⟩ := hplain
  have hnumber : ¬ (x.isDigit || x == '.' && t.head?.any Char.isDigit) = true := by
    simp only [hdigit, Bool.false_or, Bool.and_eq_true, beq_iff_eq]
    rintro ⟨rfl, hdigits⟩
    rw [hpoint rfl] at hdigits
    cases hdigits
  rw [tokenLength?, if_neg (by simp [hname]), if_neg hnumber, if_neg (by simpa using hquote),
    if_neg (by simpa using hdollar), if_neg hdouble, if_pos hx]

/-- The marks that are tokens wherever they stand. -/
abbrev loneMarks : List Char := ['(', ')', '[', ']', ',', ';', '=', '+', '*', '/']

/-- The marks that are tokens whatever follows. -/
def soloMarks : List Char := '-' :: loneMarks

theorem tokenLength?_solo (hx : x ∈ soloMarks) : tokenLength? (x :: t) = some 1 := by
  have hall : (soloMarks.all fun x => singleMarks.contains x && x != '.' &&
      doubleMarks.all (·.head? != some x)) = true := by decide
  have hx := all_eq_true.1 hall x hx
  simp only [Bool.and_eq_true, bne_iff_ne, contains_iff_mem, all_eq_true] at hx
  obtain ⟨⟨hsingle, hpoint⟩, hdouble⟩ := hx
  exact tokenLength?_mark hsingle (fun h => absurd h hpoint) fun hmem => hdouble _ hmem (by simp)

theorem lexesOne_char [hx : Among x [loneMarks]] : LexesOne (char x) := by
  intro c a r hdone
  obtain ⟨-, rfl, t, hc⟩ := char_eq_done.1 hdone
  have hall : ∀ y ∈ loneMarks, isSpacing y = false ∧ y ≠ '-' := by decide
  obtain ⟨hspacing, hdash⟩ := hall x hx.mem_row
  have hsolo : x ∈ soloMarks := mem_cons_of_mem _ hx.mem_row
  exact ⟨settled_of_cons hc hspacing hdash, 1, by rw [hc, tokenLength?_solo hsolo], rfl⟩

theorem lexesOne_systemName : LexesOne systemName := by
  intro c a r hdone
  obtain ⟨_, hread, -⟩ := recognized_eq_done.1 hdone
  obtain ⟨_, c₁, hdollar, hread⟩ := seqRight_eq_done.1 hread
  obtain ⟨-, rfl, t, hc⟩ := char_eq_done.1 hdollar
  have hrest : (c.drop 1).rest = t := by rw [Cursor.rest_drop, hc]; rfl
  obtain ⟨hstart, rfl, rfl⟩ := identifier_eq_done.1 hread
  refine ⟨settled_of_cons hc (by decide) (by decide), _, ?_, Cursor.drop_drop _ _ _⟩
  rw [hrest] at hstart ⊢
  rw [hc, tokenLength?, if_neg (by decide), if_neg (by simp), if_neg (by decide), if_pos (by decide),
    if_pos hstart]

theorem lexesOne_stringLiteral : LexesOne stringLiteral := by
  intro c a r hdone
  obtain ⟨_, c₁, hopen, hdone⟩ := bind_eq_done.1 hdone
  obtain ⟨-, rfl, t, hc⟩ := char_eq_done.1 hopen
  have hrest : (c.drop 1).rest = t := by rw [Cursor.rest_drop, hc]; rfl
  obtain ⟨content, c₂, hcontent, hdone⟩ := bind_eq_done.1 hdone
  rw [takeWhile, hrest] at hcontent
  cases hcontent
  obtain ⟨_, c₃, hclose, hdone⟩ := bind_eq_done.1 hdone
  cases hdone
  obtain ⟨-, rfl, s, hs⟩ := char_eq_done.1 hclose
  rw [Cursor.rest_drop, hrest] at hs
  refine ⟨settled_of_cons hc (by decide) (by decide),
    (t.takeWhile fun y => !(y == '\'' || y == '\n')).length + 2, ?_, ?_⟩
  · rw [hc, tokenLength?, if_neg (by decide), if_neg (by simp), if_pos (by decide)]
    simp only [hs, head?_cons, if_true]
  · rw [Cursor.drop_drop, Cursor.drop_drop]
    congr 1
    omega

/-! ### Numbers -/

theorem digits_eq_run {u : List Char} (h : digits c = .done u r) :
    r = c.drop (digitRun c.rest) ∧ c.rest.head?.any Char.isDigit := by
  obtain ⟨hne, rfl, rfl⟩ := takeWhile1_eq_done.1 h
  refine ⟨rfl, ?_⟩
  cases hrest : c.rest with
  | nil => simp [hrest] at hne
  | cons x t =>
    by_contra hx
    rw [hrest, takeWhile_cons_of_neg (by simpa using hx)] at hne
    exact absurd rfl hne

theorem digitRun_eq_zero : digitRun t = 0 ↔ t.head?.any Char.isDigit = false := by
  cases t with
  | nil => simp [digitRun]
  | cons x t => by_cases hx : x.isDigit = true <;> simp [digitRun, hx]

theorem exponent_eq_run {a : Option (List Char)} (h : (maybe do
      let _ ← charThat "exponent" fun c => c == 'e' || c == 'E'
      let _ ← maybe (charThat "sign" fun c => c == '+' || c == '-')
      digits) c = .done a r) : r = c.drop (exponentRun c.rest) := by
  by_cases hx : (c.rest.head?.any fun x => x == 'e' || x == 'E') = true
  swap
  · obtain ⟨f, hf⟩ := (failsAt_charThat (by simpa using hx)).bind c rfl
    rw [maybe, hf] at h
    cases h
    rw [exponentRun, if_neg (fun hand => hx hand.1), Cursor.drop_zero]
  obtain ⟨x, t, hrest, hletter⟩ := exists_cons_of_any hx
  have hsign : ∃ o, maybe (charThat "sign" fun c => c == '+' || c == '-') (c.drop 1) =
      .done o (c.drop (1 + signRun (c.rest.drop 1))) := by
    rw [signRun, ← Cursor.rest_drop]
    split
    · rename_i hsome
      obtain ⟨s, w, hw, hs⟩ := exists_cons_of_any hsome
      refine ⟨some s, ?_⟩
      rw [maybe_of_done (exists_charThat _ _ hw hs), Cursor.drop_drop]
    · rename_i hnone
      exact ⟨none, maybe_of_failed (failsAt_charThat (by simpa using hnone) _ rfl)⟩
  obtain ⟨o, hsign⟩ := hsign
  by_cases hdigits : digitRun (c.rest.drop (1 + signRun (c.rest.drop 1))) = 0
  · have hfails : FailsAt (c.drop (1 + signRun (c.rest.drop 1))).rest.head? digits :=
      .takeWhile1 (digitRun_eq_zero.1 hdigits)
    obtain ⟨f, hf⟩ := hfails _ rfl
    rw [maybe, bind_apply, exists_charThat _ _ hrest hletter] at h
    simp only [bind_apply, hsign, hf] at h
    cases h
    rw [exponentRun, if_neg (fun hand => hand.2 hdigits), Cursor.drop_zero]
  · rw [maybe, bind_apply, exists_charThat _ _ hrest hletter] at h
    simp only [bind_apply, hsign] at h
    cases hread : digits (c.drop (1 + signRun (c.rest.drop 1))) with
    | done u c₁ =>
      rw [hread] at h
      cases h
      rw [(digits_eq_run hread).1, Cursor.drop_drop, exponentRun, if_pos ⟨hx, hdigits⟩,
        Cursor.rest_drop]
    | failed f =>
      rw [digits, takeWhile1] at hread
      split at hread
      · rename_i hnil
        exact absurd (by rw [digitRun, ← Cursor.rest_drop, hnil]; rfl) hdigits
      · cases hread
    | aborted f =>
      rw [hread] at h
      cases h

theorem mantissa_eq_run {a : Unit} (h : ((do let _ ← digits
                                             let _ ← maybe (char '.' *> takeWhile Char.isDigit)) <|>
      (do let _ ← char '.'
          let _ ← digits) : Parser Unit) c = .done a r) :
    r = c.drop (digitRun c.rest + fractionRun (c.rest.drop (digitRun c.rest))) ∧
      (c.rest.head?.any Char.isDigit = true ∨
        ∃ s, c.rest = '.' :: s ∧ s.head?.any Char.isDigit) := by
  rcases orElse_eq_done h with h | h
  · obtain ⟨u, c₁, hdigits, o, c₂, hfraction, h⟩ := bind₂_eq_done.1 h
    cases h
    obtain ⟨rfl, hstart⟩ := digits_eq_run hdigits
    refine ⟨?_, .inl hstart⟩
    rw [fractionRun, ← Cursor.rest_drop]
    rw [maybe, seqRight_apply, char] at hfraction
    split
    · rename_i hpoint
      rw [if_pos hpoint] at hfraction
      cases hfraction
      rw [Cursor.drop_drop, Cursor.drop_drop]
      rfl
    · rename_i hpoint
      rw [if_neg hpoint] at hfraction
      cases hfraction
      rfl
  · obtain ⟨_, c₁, hpoint, u, c₂, hdigits, h⟩ := bind₂_eq_done.1 h
    cases h
    obtain ⟨-, rfl, t, hc⟩ := char_eq_done.1 hpoint
    obtain ⟨rfl, hstart⟩ := digits_eq_run hdigits
    have hrest : (c.drop 1).rest = t := by rw [Cursor.rest_drop, hc]; rfl
    rw [hrest] at hstart
    refine ⟨?_, .inr ⟨t, hc, hstart⟩⟩
    have hzero : digitRun c.rest = 0 := by rw [hc]; rfl
    rw [hzero, drop_zero, fractionRun, hc, head?_cons, if_pos rfl, Cursor.drop_drop, hrest,
      Nat.zero_add]
    rfl

theorem lexesOne_number : LexesOne number := by
  intro c a r hdone
  obtain ⟨_, hread, -⟩ := recognized_eq_done.1 (named_eq_done.1 hdone)
  obtain ⟨_, c₁, hmantissa, hexponent⟩ := bind_eq_done.1 hread
  obtain ⟨rfl, hstart⟩ := mantissa_eq_run hmantissa
  have hr := exponent_eq_run hexponent
  rw [Cursor.drop_drop, Cursor.rest_drop] at hr
  have htest : ∃ x t, c.rest = x :: t ∧ (x.isDigit || x == '.' && t.head?.any Char.isDigit) = true ∧
      isOpening x ∧ isNameStart x = false := by
    rcases hstart with hstart | ⟨t, hc, hstart⟩
    · obtain ⟨x, t, hc, hx⟩ := exists_cons_of_any hstart
      refine ⟨x, t, hc, by simp [hx], by simp [isOpening, hx], ?_⟩
      by_contra hname
      rw [not_isDigit_of_isNameStart (by simpa using hname)] at hx
      cases hx
    · exact ⟨'.', t, hc, by simpa using hstart, by decide, by decide⟩
  obtain ⟨x, t, hc, htest, hopening, hname⟩ := htest
  have hplain := not_isSpacing_of_isOpening hopening
  refine ⟨settled_of_cons hc hplain.1 hplain.2, numberRun c.rest, ?_, hr⟩
  rw [hc, tokenLength?, if_neg (by simp [hname]), if_pos htest]

/-! ### Keywords -/

/-- A keyword is a whole word. -/
theorem lexes_keyword {word : String} [h : Lettered word] : Lexes (keyword word) := by
  intro c a r hdone
  obtain ⟨s, c₁, hident, -, hspaces⟩ := identifier_of_keyword h.fact hdone
  obtain ⟨hsettled, n, htoken, rfl⟩ := lexesOne_identifier c s c₁ hident
  obtain ⟨ls, hwalk, hls⟩ := walk_spaces hspaces
  exact ⟨hsettled, _, (walk_token hsettled htoken).trans hwalk, by simp, .append (.token _) hls⟩

theorem lexes_boolean : Lexes boolean := by
  have hvalue {word : String} {value : Bool} [Lettered word] :
      Lexes (keyword word *> pure value : Parser Bool) :=
    lexes_keyword.map
  exact hvalue.orElse <| hvalue.orElse <| hvalue.orElse hvalue

theorem lexes_programVariable : Lexes programVariable :=
  lexesOne_char.lexes.bind fun _ => lexesOne_identifier.lexes.bind fun _ =>
    lexesOne_char.lexes.bind fun _ => lexesOne_identifier.lexes.map

/-! ### Symbols -/

/-- A symbol is read where its marks make up a token. -/
theorem walk_symbol {sym a : String} (hmarks : (sym.toList.all isMark) = true) (hc : Settled c)
    (hdone : symbol sym c = .done a r)
    (htoken : ∀ t, c.rest = sym.toList ++ t → tokenLength? c.rest = some sym.toList.length) :
    ∃ ls, Walk ls c r ∧ ls ≠ [] ∧ Ordinary ls := by
  obtain ⟨t, ht, hspaces, -⟩ := symbol_marks_eq_done hmarks hdone
  obtain ⟨ls, hwalk, hls⟩ := walk_spaces hspaces
  exact ⟨_, (walk_token hc (htoken t ht)).trans hwalk, by simp, .append (.token _) hls⟩

end RobotSource.Karel.Grammar
