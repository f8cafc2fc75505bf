import RobotSource.Proofs.Karel.Form
import RobotSource.Proofs.Parsing.Cursor
import RobotSource.Proofs.Parsing.Word
/-!
# The pieces of a Karel text

A Karel text falls into pieces: tokens, white space, comments and directives, each as long as it can
be. Where a piece ends follows from the characters alone (`firstPiece`), so the pieces say what stands
where in a text without a word about its grammar. `Walk` leads from one place between pieces to a
later one.
-/

namespace RobotSource.Karel

open Grammar Parsing Text List

/-! ## Tokens -/

/-- How many digits the text begins with. -/
def digitRun (t : List Char) : Nat := (t.takeWhile Char.isDigit).length

/-- A point with the digits behind it. -/
def fractionRun (t : List Char) : Nat :=
  if t.head? = some '.' then 1 + digitRun (t.drop 1) else 0

/-- A sign. -/
def signRun (t : List Char) : Nat :=
  if t.head?.any (fun x => x == '+' || x == '-') then 1 else 0

/-- An exponent, with or without a sign. Without digits it is none. -/
def exponentRun (t : List Char) : Nat :=
  let sign := signRun (t.drop 1)
  let digits := digitRun (t.drop (1 + sign))
  if t.head?.any (fun x => x == 'e' || x == 'E') ∧ digits ≠ 0 then 1 + sign + digits else 0

/-- A number: its digits, its fraction and its exponent. -/
def numberRun (t : List Char) : Nat :=
  let mantissa := digitRun t + fractionRun (t.drop (digitRun t))
  mantissa + exponentRun (t.drop mantissa)

/-- The marks of two characters. -/
def doubleMarks : List (List Char) := [['<', '='], ['>', '='], ['<', '>'], [':', ':']]

/-- The marks of one character. -/
def singleMarks : List Char :=
  ['(', ')', '[', ']', ',', ';', ':', '.', '=', '<', '>', '+', '-', '*', '/']

/-- The length of the token with which the text begins, if it begins with one. -/
def tokenLength? : List Char → Option Nat
  | [] => none
  | x :: t =>
    if isNameStart x then some (1 + (t.takeWhile isNameChar).length)
    else if x.isDigit || x == '.' && t.head?.any Char.isDigit then some (numberRun (x :: t))
    else if x == '\'' then
      let content := (t.takeWhile fun y => !(y == '\'' || y == '\n')).length
      if (t.drop content).head? = some '\'' then some (content + 2) else none
    else if x == '$' then
      if t.head?.any isNameStart then some (1 + (t.takeWhile isNameChar).length) else none
    else if (x :: t).take 2 ∈ doubleMarks then some 2
    else if x ∈ singleMarks then some 1
    else none

/-! ## Pieces -/

/-- The kinds of pieces. What is none of the others is stray. -/
inductive PieceKind where
  | token
  | blank
  | comment
  | directive
  | stray
deriving DecidableEq, Repr

/-- A piece of a text. -/
structure Piece where
  kind : PieceKind
  chars : List Char
deriving DecidableEq, Repr

/-- Kind and length of the first piece of a text. Comments and directives reach up to the line
break. -/
def firstPiece (x : Char) (t : List Char) : PieceKind × Nat :=
  if isSpacing x then (.blank, 1)
  else if x = '-' ∧ t.head? = some '-' then
    (.comment, ((x :: t).takeWhile fun y => !isBreak y).length)
  else if x = '%' then (.directive, ((x :: t).takeWhile fun y => !isBreak y).length)
  else match tokenLength? (x :: t) with
    | some n => (.token, n)
    | none => (.stray, 1)

/-- The pieces of a text. Each of them has its first character, whatever its length. -/
def pieces : List Char → List Piece
  | [] => []
  | x :: t =>
    ⟨(firstPiece x t).1, x :: t.take ((firstPiece x t).2 - 1)⟩ ::
      pieces (t.drop ((firstPiece x t).2 - 1))
termination_by t => t.length
decreasing_by simp only [length_drop, length_cons]; omega

/-- The text of several pieces. -/
def flat (ls : List Piece) : List Char := ls.flatMap Piece.chars

@[simp] theorem flat_nil : flat [] = [] := rfl

@[simp] theorem flat_cons (l : Piece) (ls : List Piece) : flat (l :: ls) = l.chars ++ flat ls := rfl

@[simp] theorem flat_append (ls ms : List Piece) : flat (ls ++ ms) = flat ls ++ flat ms :=
  flatMap_append

/-- The pieces make up the text. -/
theorem flat_pieces (t : List Char) : flat (pieces t) = t := by
  induction t using pieces.induct with
  | case1 => rw [pieces, flat_nil]
  | case2 x t ih => rw [pieces, flat_cons, ih, cons_append, take_append_drop]

variable {t u v : List Char} {n : Nat} {x : Char}

theorem pieces_blank (h : isSpacing x) : pieces (x :: t) = ⟨.blank, [x]⟩ :: pieces t := by
  simp [pieces, firstPiece, h]

theorem pieces_comment (ht : t.head? = some '-') :
    pieces ('-' :: t) = ⟨.comment, '-' :: t.takeWhile fun y => !isBreak y⟩ ::
      pieces (t.dropWhile fun y => !isBreak y) := by
  have hfirst : firstPiece '-' t = (.comment, (t.takeWhile fun y => !isBreak y).length + 1) := by
    rw [firstPiece, if_neg (by decide), if_pos ⟨rfl, ht⟩, takeWhile_cons_of_pos (by decide),
      length_cons]
  rw [pieces, hfirst]
  simp only [Nat.add_sub_cancel, drop_length_takeWhile]
  rw [take_length_takeWhile]

theorem pieces_directive (t : List Char) :
    pieces ('%' :: t) = ⟨.directive, '%' :: t.takeWhile fun y => !isBreak y⟩ ::
      pieces (t.dropWhile fun y => !isBreak y) := by
  have hfirst : firstPiece '%' t = (.directive, (t.takeWhile fun y => !isBreak y).length + 1) := by
    rw [firstPiece, if_neg (by decide), if_neg (by simp), if_pos rfl,
      takeWhile_cons_of_pos (by decide), length_cons]
  rw [pieces, hfirst]
  simp only [Nat.add_sub_cancel, drop_length_takeWhile]
  rw [take_length_takeWhile]

/-! ## The spelling of tokens -/

/-- The spelling of a token. -/
inductive Spelled : List Char → Prop
  | word {u : List Char} (h : Named u) : Spelled u
  | number {u : List Char} (h : Numeral u) : Spelled u
  | string {u : List Char} (h : ∀ x ∈ u, x ≠ '\'' ∧ x ≠ '\n') : Spelled ('\'' :: u ++ ['\''])
  | system {u : List Char} (h : Named u) : Spelled ('$' :: u)
  | double {u : List Char} (h : u ∈ doubleMarks) : Spelled u
  | single {x : Char} (h : x ∈ singleMarks) : Spelled [x]

theorem Spelled.ne_nil (h : Spelled u) : u ≠ [] := by
  cases h with
  | word h =>
    rintro rfl
    simpa using h.start
  | number h =>
    rintro rfl
    obtain ⟨x, s, hxs, -⟩ := h.exists_cons
    cases hxs
  | string _ => simp
  | system _ => simp
  | double h =>
    rintro rfl
    simp [doubleMarks] at h
  | single _ => simp

theorem take_digitRun (t : List Char) : t.take (digitRun t) = t.takeWhile Char.isDigit :=
  take_length_takeWhile _ t

theorem isDigit_of_mem_take {y : Char} (h : y ∈ t.take (digitRun t)) : y.isDigit := by
  rw [take_digitRun] at h
  exact all_eq_true.1 all_takeWhile y h

theorem digits_take (h : digitRun t ≠ 0) : Digits (t.take (digitRun t)) := by
  refine ⟨fun hnil => h ?_, fun y => isDigit_of_mem_take⟩
  rw [take_digitRun] at hnil
  rw [digitRun, hnil, length_nil]

theorem exponent_take (t : List Char) : Exponent (t.take (exponentRun t)) := by
  rw [exponentRun]
  split
  · rename_i h
    obtain ⟨hx, hdigits⟩ := h
    obtain ⟨x, t, rfl, hletter⟩ := exists_cons_of_any hx
    have hletter : x = 'e' ∨ x = 'E' := by simpa using hletter
    rw [drop_succ_cons, drop_zero, Nat.add_comm 1, drop_succ_cons] at hdigits ⊢
    rw [Nat.add_right_comm, take_succ_cons]
    by_cases hsign : (t.head?.any fun y => y == '+' || y == '-') = true
    · obtain ⟨s, t, rfl, -⟩ := exists_cons_of_any hsign
      have hone : signRun (s :: t) = 1 := if_pos hsign
      rw [hone, drop_succ_cons, drop_zero] at hdigits
      rw [hone, drop_succ_cons, drop_zero, Nat.add_comm 1, take_succ_cons]
      exact .signed hletter (by simpa using hsign) (digits_take hdigits)
    · have hzero : signRun t = 0 := if_neg hsign
      rw [hzero, drop_zero] at hdigits
      rw [hzero, drop_zero, Nat.zero_add]
      exact .unsigned hletter (digits_take hdigits)
  · exact .none

/-- What is as long as a number is spelled as one. -/
theorem numeral_take (h : t.head?.any Char.isDigit ∨
    ∃ s, t = '.' :: s ∧ s.head?.any Char.isDigit) : Numeral (t.take (numberRun t)) := by
  rw [numberRun]
  refine ⟨_, _, take_add, ?_, exponent_take _⟩
  have hrun {s : List Char} (hs : s.head?.any Char.isDigit) : digitRun s ≠ 0 := by
    cases s with
    | nil => cases hs
    | cons y s => simp [digitRun, show y.isDigit = true by simpa using hs]
  rcases h with h | ⟨s, rfl, hs⟩
  · rw [take_add]
    by_cases hpoint : (t.drop (digitRun t)).head? = some '.'
    · obtain ⟨f, hf⟩ := head?_eq_some_iff.1 hpoint
      rw [hf, fractionRun, head?_cons, if_pos rfl, drop_succ_cons, drop_zero,
        Nat.add_comm 1, take_succ_cons]
      exact .mixed (digits_take (hrun h)) fun y => isDigit_of_mem_take
    · rw [fractionRun, if_neg hpoint, take_zero, append_nil]
      exact .whole (digits_take (hrun h))
  · have hzero : digitRun ('.' :: s) = 0 := rfl
    rw [hzero, drop_zero, fractionRun, head?_cons, if_pos rfl, drop_succ_cons,
      drop_zero, Nat.zero_add, Nat.add_comm 1, take_succ_cons]
    exact .fraction (digits_take (hrun hs))

theorem named_cons (hx : isNameStart x) : Named (x :: t.takeWhile isNameChar) where
  start := hx
  chars := forall_mem_cons.2
    ⟨isNameChar_of_isNameStart hx, fun y hy => all_eq_true.1 all_takeWhile y hy⟩

/-- The token with which a text begins is spelled as one. -/
theorem spelled_of_tokenLength? (h : tokenLength? t = some n) : Spelled (t.take n) := by
  cases t with
  | nil => cases h
  | cons x t =>
    rw [tokenLength?] at h
    split at h
    · rename_i hx
      cases h
      rw [Nat.add_comm, take_succ_cons, take_length_takeWhile]
      exact .word (named_cons hx)
    split at h
    · rename_i hx
      cases h
      refine .number (numeral_take ?_)
      simp only [Bool.or_eq_true, Bool.and_eq_true, beq_iff_eq] at hx
      exact hx.imp id fun hpoint => ⟨t, by rw [hpoint.1], hpoint.2⟩
    split at h
    · rename_i hx
      simp only at h
      split at h
      · rename_i hquote
        cases h
        rw [eq_of_beq hx, take_succ_cons]
        obtain ⟨s, hs⟩ := head?_eq_some_iff.1 hquote
        rw [take_add, hs, take_length_takeWhile]
        exact .string fun y hy => by
          simpa using all_eq_true.1 all_takeWhile y hy
      · cases h
    split at h
    · rename_i hx
      split at h
      · rename_i hstart
        cases h
        obtain ⟨y, s, rfl, hy⟩ := exists_cons_of_any hstart
        rw [eq_of_beq hx, Nat.add_comm, take_succ_cons, take_length_takeWhile,
          takeWhile_cons_of_pos (isNameChar_of_isNameStart hy)]
        exact .system (named_cons hy)
      · cases h
    split at h
    · rename_i hdouble
      cases h
      exact .double hdouble
    split at h
    · rename_i hsingle
      cases h
      exact .single hsingle
    · cases h

/-- A place without white space: no blank stands there and no comment begins. -/
theorem blankLength_eq_zero : blankLength false (x :: t) = 0 ↔
    isSpacing x = false ∧ ¬ (x = '-' ∧ t.head? = some '-') := by
  rw [blankLength, if_neg (by decide)]
  split
  · simp_all
  · split <;> simp_all

/-- At a place without white space a token is a piece. -/
theorem pieces_token (hblank : blankLength false t = 0) (h : tokenLength? t = some n) :
    pieces t = ⟨.token, t.take n⟩ :: pieces (t.drop n) := by
  cases t with
  | nil => cases h
  | cons x t =>
    obtain ⟨hspacing, hcomment⟩ := blankLength_eq_zero.1 hblank
    have hpercent : x ≠ '%' := by
      rintro rfl
      simp [tokenLength?, isNameStart, doubleMarks, singleMarks] at h
    have hfirst : firstPiece x t = (.token, n) := by
      rw [firstPiece, if_neg (by simp [hspacing]), if_neg hcomment, if_neg hpercent, h]
    cases n with
    | zero => exact absurd rfl (spelled_of_tokenLength? h).ne_nil
    | succ n =>
      rw [pieces, hfirst]
      rfl

/-- The first piece is white space, a comment, a token, or something else. -/
theorem pieces_cases {l : Piece} {ms : List Piece} (h : pieces t = l :: ms) :
    (∃ x s, t = x :: s ∧ isSpacing x ∧ l = ⟨.blank, [x]⟩ ∧ ms = pieces s) ∨
    (∃ s, t = '-' :: s ∧ s.head? = some '-' ∧
      l = ⟨.comment, '-' :: s.takeWhile fun y => !isBreak y⟩ ∧
      ms = pieces (s.dropWhile fun y => !isBreak y)) ∨
    (∃ n, blankLength false t = 0 ∧ tokenLength? t = some n ∧ l = ⟨.token, t.take n⟩ ∧
      ms = pieces (t.drop n)) ∨ l.kind = .directive ∨ l.kind = .stray := by
  cases t with
  | nil =>
    rw [pieces] at h
    cases h
  | cons x t =>
    by_cases hspacing : isSpacing x
    · rw [pieces_blank hspacing, List.cons.injEq] at h
      exact .inl ⟨x, t, rfl, hspacing, h.1.symm, h.2.symm⟩
    by_cases hcomment : x = '-' ∧ t.head? = some '-'
    · obtain ⟨rfl, ht⟩ := hcomment
      rw [pieces_comment ht, List.cons.injEq] at h
      exact .inr (.inl ⟨t, rfl, ht, h.1.symm, h.2.symm⟩)
    have hzero : blankLength false (x :: t) = 0 :=
      blankLength_eq_zero.2 ⟨by simpa using hspacing, hcomment⟩
    cases htoken : tokenLength? (x :: t) with
    | some n =>
      rw [pieces_token hzero htoken, List.cons.injEq] at h
      exact .inr (.inr (.inl ⟨n, hzero, rfl, h.1.symm, h.2.symm⟩))
    | none =>
      have hkind : l.kind = (firstPiece x t).1 := by
        rw [pieces, List.cons.injEq] at h
        rw [← h.1]
      rw [hkind, firstPiece, if_neg hspacing, if_neg hcomment, htoken]
      by_cases hpercent : x = '%'
      · rw [if_pos hpercent]
        exact .inr (.inr (.inr (.inl rfl)))
      · rw [if_neg hpercent]
        exact .inr (.inr (.inr (.inr rfl)))

/-! ## From place to place -/

/-- The second cursor stands behind the first, with just these pieces between. -/
structure Walk (ls : List Piece) (c r : Cursor) : Prop where
  passes : Passes (flat ls) c r
  pieces : Karel.pieces c.rest = ls ++ Karel.pieces r.rest

namespace Walk

variable {ls ms : List Piece} {c c' r : Cursor}

theorem refl (c : Cursor) : Walk [] c c := ⟨.refl c, rfl⟩

theorem trans (h : Walk ls c c') (h' : Walk ms c' r) : Walk (ls ++ ms) c r where
  passes := by
    rw [flat_append]
    exact h.passes.trans h'.passes
  pieces := by rw [h.pieces, h'.pieces, append_assoc]

/-- The pieces between two places are determined. -/
theorem unique (h : Walk ls c r) (h' : Walk ms c r) : ls = ms :=
  append_cancel_right (h.pieces.symm.trans h'.pieces)

end Walk

/-- Whether a piece is white space or a comment. -/
def Piece.isGap (l : Piece) : Bool := l.kind == .blank || l.kind == .comment

theorem isSpacing_of_isBreak (h : isBreak x) : isSpacing x := by
  simp only [isBreak, Bool.or_eq_true] at h
  simp only [isSpacing, Bool.or_eq_true]
  tauto

theorem blankLength_true (t : List Char) :
    blankLength true t = (t.takeWhile fun y => !isBreak y).length +
      blankLength false (t.dropWhile fun y => !isBreak y) := by
  induction t with
  | nil => rfl
  | cons x t ih =>
    rw [blankLength, if_pos rfl]
    by_cases hx : isBreak x
    · have hspacing := isSpacing_of_isBreak hx
      rw [if_pos hx, takeWhile_cons_of_neg (by simp [hx]),
        dropWhile_cons_of_neg (by simp [hx]),
        blankLength, if_neg (by decide), if_pos hspacing, length_nil, Nat.zero_add]
    · rw [if_neg hx, ih, takeWhile_cons_of_pos (by simp [hx]),
        dropWhile_cons_of_pos (by simp [hx]), length_cons]
      omega

/-- White space and comments are pieces of their own, and behind them there are no more. -/
theorem exists_gap (t : List Char) : ∃ ls, (∀ l ∈ ls, l.isGap) ∧
    t = flat ls ++ t.drop (blankLength false t) ∧
    pieces t = ls ++ pieces (t.drop (blankLength false t)) ∧
    blankLength false (t.drop (blankLength false t)) = 0 := by
  induction t using pieces.induct with
  | case1 => exact ⟨[], by simp, rfl, rfl, rfl⟩
  | case2 x t ih =>
    by_cases hspacing : isSpacing x
    · have hlength : blankLength false (x :: t) = blankLength false t + 1 := by
        rw [blankLength, if_neg (by decide), if_pos hspacing]
      have hfirst : (firstPiece x t).2 - 1 = 0 := by simp [firstPiece, hspacing]
      rw [hfirst, drop_zero] at ih
      obtain ⟨ls, hgap, hflat, hpieces, hend⟩ := ih
      rw [hlength, drop_succ_cons, pieces_blank hspacing]
      refine ⟨⟨.blank, [x]⟩ :: ls, forall_mem_cons.2 ⟨rfl, hgap⟩, ?_, ?_, hend⟩
      · rw [flat_cons, append_assoc, ← hflat]
        rfl
      · rw [hpieces, cons_append]
    by_cases hcomment : x = '-' ∧ t.head? = some '-'
    · obtain ⟨rfl, ht⟩ := hcomment
      have hlength : blankLength false ('-' :: t) = blankLength true t + 1 := by
        rw [blankLength, if_neg (by decide), if_neg hspacing, if_pos ⟨rfl, ht⟩]
      have hfirst : (firstPiece '-' t).2 - 1 = (t.takeWhile fun y => !isBreak y).length := by
        rw [firstPiece, if_neg hspacing, if_pos ⟨rfl, ht⟩, takeWhile_cons_of_pos (by decide),
          length_cons, Nat.add_sub_cancel]
      rw [hfirst, drop_length_takeWhile] at ih
      obtain ⟨ls, hgap, hflat, hpieces, hend⟩ := ih
      have hdrop : t.drop (blankLength true t) =
          (t.dropWhile fun y => !isBreak y).drop
            (blankLength false (t.dropWhile fun y => !isBreak y)) := by
        rw [blankLength_true, ← drop_drop, drop_length_takeWhile]
      rw [hlength, drop_succ_cons, pieces_comment ht, hdrop]
      refine ⟨⟨.comment, '-' :: t.takeWhile fun y => !isBreak y⟩ :: ls,
        forall_mem_cons.2 ⟨rfl, hgap⟩, ?_, ?_, hend⟩
      · rw [flat_cons, append_assoc, ← hflat, cons_append, takeWhile_append_dropWhile]
      · rw [hpieces, cons_append]
    · have hzero : blankLength false (x :: t) = 0 :=
        blankLength_eq_zero.2 ⟨by simpa using hspacing, hcomment⟩
      exact ⟨[], by simp, by rw [hzero]; rfl, by rw [hzero]; rfl, by rw [hzero]; exact hzero⟩

/-- So are spaces and tabs. -/
theorem exists_spaces (t : List Char) : ∃ ls, (∀ l ∈ ls, l.isGap) ∧
    t = flat ls ++ t.dropWhile isSpaceOrTab ∧ pieces t = ls ++ pieces (t.dropWhile isSpaceOrTab) := by
  induction t with
  | nil => exact ⟨[], by simp, rfl, rfl⟩
  | cons x t ih =>
    by_cases hx : isSpaceOrTab x
    · have hspacing := isSpacing_of_isSpaceOrTab hx
      obtain ⟨ls, hgap, hflat, hpieces⟩ := ih
      rw [dropWhile_cons_of_pos hx, pieces_blank hspacing]
      refine ⟨⟨.blank, [x]⟩ :: ls, forall_mem_cons.2 ⟨rfl, hgap⟩, ?_, ?_⟩
      · rw [flat_cons, append_assoc, ← hflat]
        rfl
      · rw [hpieces, cons_append]
    · rw [dropWhile_cons_of_neg hx]
      exact ⟨[], by simp, rfl, rfl⟩

theorem walk_drop {ls : List Piece} {c : Cursor} (hflat : c.rest = flat ls ++ c.rest.drop n)
    (hpieces : pieces c.rest = ls ++ pieces (c.rest.drop n)) : Walk ls c (c.drop n) := by
  have hpasses := Passes.drop (c := c) n
  have htake : c.rest.take n = flat ls := by
    have heq : c.rest.take n ++ c.rest.drop n = flat ls ++ c.rest.drop n := by
      rw [take_append_drop, ← hflat]
    exact append_cancel_right heq
  exact ⟨by rwa [htake] at hpasses, hpieces⟩

end RobotSource.Karel
