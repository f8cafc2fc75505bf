import RobotSource.Proofs.Listing.Grammar.Harvest
import RobotSource.Proofs.Listing.Grammar.LineEnding
/-!
# What code is made of

Code that has been read is made of literals and of plain characters between them (`Lexed`). White
space between tokens is spaces and tabs only, and behind a `<` or `>` it never leads to an equals
sign, for there the grammar would have wanted an operand. These two facts decide which blanks may be
taken out of a line without harm. They are proved along the grammar, as far as the branches of a
select go.
-/

namespace RobotSource.Listing.Grammar

open Parsing Parsing.Parser Text List

variable {c r : Cursor} {s : String}

/-! ## Literals -/

/-- A string, a system variable, or a comment in its bracket. -/
def literal : Parser String := stringLiteral <|> systemVariable <|> commentLiteral

instance {n : Nat} : Orderly n true literal literal := by
  unfold literal commentLiteral
  infer_instance

/-- The literal that a text begins with, and what follows it. -/
def literal? (text : List Char) : Option (String × List Char) :=
  match literal ⟨text, .first⟩ with
  | .done s r => some (s, r.rest)
  | _ => none

/-- The characters that begin a literal. -/
def isLiteralStart (x : Char) : Bool :=
  x == '\'' || x == '"' || x == '$' || x == ':'

theorem local_literal : Local LineRest literal :=
  (local_stringLiteral borders_lineRest).orElse <|
    (local_systemVariable borders_lineRest).orElse (local_commentLiteral borders_lineRest)

/-- The same text is read alike at any place. -/
theorem rel_of_rest_eq {α : Type} {p : Parser α} {c d : Cursor} (hp : Local LineRest p)
    (h : c.rest = d.rest) : (p c).Rel (Within c.rest c d) (· = ·) (p d) :=
  hp c.rest c d ⟨⟨[], by simp, .inl rfl⟩, ⟨[], by simp [h], .inl rfl⟩⟩

theorem literal?_eq_some_iff {c : Cursor} {t : List Char} :
    literal? c.rest = some (s, t) ↔ ∃ r, literal c = .done s r ∧ r.rest = t := by
  have hrel := rel_of_rest_eq (c := c) (d := ⟨c.rest, .first⟩) local_literal rfl
  rw [literal?]
  cases hc : literal c <;> cases hd : literal ⟨c.rest, .first⟩ <;> rw [hc, hd] at hrel <;> cases hrel
  · rename_i hvalue hrest
    obtain ⟨k, -, rfl, rfl⟩ := hrest
    simp [hvalue]
  · simp
  · simp

theorem failsAt_quoted {x : Option Char} {y : Char} (h : x ≠ some y) : FailsAt x (quoted y) :=
  (FailsAt.char h).bind

theorem failsAt_stringLiteral {x : Option Char} (h : x ≠ some '\'') (h' : x ≠ some '"') :
    FailsAt x stringLiteral :=
  (failsAt_quoted h).orElse (failsAt_quoted h')

theorem failsAt_systemVariable {x : Option Char} (h : x ≠ some '$') : FailsAt x systemVariable :=
  (FailsAt.char h).bind.recognized

theorem failsAt_commentLiteral {x : Option Char} (h : x ≠ some ':') : FailsAt x commentLiteral :=
  (FailsAt.char h).bind

theorem failsAt_literal {x : Char} (h : isLiteralStart x = false) : FailsAt x literal := by
  simp only [isLiteralStart, Bool.or_eq_false_iff, beq_eq_false_iff_ne] at h
  obtain ⟨⟨⟨hquote, hdouble⟩, hdollar⟩, hcolon⟩ := h
  refine (failsAt_stringLiteral ?_ ?_).orElse ((failsAt_systemVariable ?_).orElse
    (failsAt_commentLiteral ?_)) <;> rwa [Option.some_inj.ne]

/-- A literal begins with one of its characters and takes at least that. -/
theorem exists_cons_of_literal? {t r : List Char} (h : literal? t = some (s, r)) :
    ∃ x t', t = x :: t' ∧ isLiteralStart x := by
  obtain ⟨r, hr, -⟩ := (literal?_eq_some_iff (c := ⟨t, .first⟩)).1 h
  cases t with
  | nil => cases hr
  | cons x t =>
    refine ⟨x, t, rfl, ?_⟩
    by_contra hx
    obtain ⟨e, he⟩ := failsAt_literal (Bool.eq_false_iff.2 hx) ⟨x :: t, .first⟩ rfl
    rw [hr] at he
    cases he

theorem literal?_eq_none {x : Char} (h : isLiteralStart x = false) (t : List Char) :
    literal? (x :: t) = none := by
  obtain ⟨e, he⟩ := failsAt_literal h ⟨x :: t, .first⟩ rfl
  rw [literal?, he]

/-- A literal is read in front of a line end as it is read at the end of a text. -/
theorem literal?_append {e : List Char} (he : LineRest e) (t : List Char) :
    literal? (t ++ e) = (literal? t).map fun x => (x.1, x.2 ++ e) := by
  have hrel := local_literal t ⟨t, .first⟩ ⟨t ++ e, .first⟩
    ⟨⟨[], by simp, .inl rfl⟩, ⟨e, rfl, he⟩⟩
  rw [literal?, literal?]
  cases hc : literal ⟨t, .first⟩ <;> cases hd : literal ⟨t ++ e, .first⟩ <;> rw [hc, hd] at hrel <;>
    cases hrel
  · rename_i hsame hwithin
    obtain ⟨k, hk, rfl, rfl⟩ := hwithin
    simp only [Option.map_some, hsame, Cursor.rest_drop, drop_append_of_le_length hk]
  · rfl
  · rfl

/-- What follows a literal is the text without its first characters. -/
theorem exists_drop_of_literal? {t r : List Char} (h : literal? t = some (s, r)) :
    ∃ k, 0 < k ∧ k ≤ t.length ∧ r = t.drop k := by
  obtain ⟨r, hr, rfl⟩ := (literal?_eq_some_iff (c := ⟨t, .first⟩)).1 h
  have hrel := rel_of_rest_eq (c := ⟨t, .first⟩) (d := ⟨t, .first⟩) local_literal rfl
  rw [hr] at hrel
  cases hrel with
  | done _ hwithin =>
    obtain ⟨k, hk, rfl, -⟩ := hwithin
    refine ⟨k, Nat.pos_of_ne_zero ?_, hk, by rw [Cursor.rest_drop]⟩
    rintro rfl
    exact absurd (length_lt_of_done hr) (Nat.lt_irrefl _)

/-- The literals of a text behind its first characters, one after the other. -/
def literalsFrom : Nat → List Char → List String
  | _, [] => []
  | skip + 1, _ :: text => literalsFrom skip text
  | 0, x :: text =>
    match literal? (x :: text) with
    | some (s, rest) => s :: literalsFrom (text.length - rest.length) text
    | none => literalsFrom 0 text

/-- The literals of a text, from left to right. -/
def literals (text : List Char) : List String := literalsFrom 0 text

theorem literalsFrom_eq (skip : Nat) (t : List Char) :
    literalsFrom skip t = literals (t.drop skip) := by
  induction t generalizing skip with
  | nil => cases skip <;> rfl
  | cons x t ih =>
    cases skip with
    | zero => rfl
    | succ skip => rw [literalsFrom, ih, drop_succ_cons]

theorem literals_cons_of_none {x : Char} {t : List Char} (h : literal? (x :: t) = none) :
    literals (x :: t) = literals t := by
  rw [literals, literalsFrom, h]
  rfl

theorem literals_cons {x : Char} (h : isLiteralStart x = false) (t : List Char) :
    literals (x :: t) = literals t :=
  literals_cons_of_none (literal?_eq_none h t)

theorem literals_append {g : List Char} (h : ∀ x ∈ g, isLiteralStart x = false) (t : List Char) :
    literals (g ++ t) = literals t := by
  induction g with
  | nil => rfl
  | cons x g ih =>
    rw [cons_append, literals_cons (h x mem_cons_self),
      ih fun y hy => h y (mem_cons_of_mem _ hy)]

theorem literals_of_literal? {t r : List Char} (h : literal? t = some (s, r)) :
    literals t = s :: literals r := by
  obtain ⟨k, hpos, hk, rfl⟩ := exists_drop_of_literal? h
  match t, k with
  | x :: t, k + 1 =>
    have hskip : t.length - (t.drop k).length = k := by
      simp only [length_cons] at hk
      rw [length_drop]
      omega
    rw [literals, literalsFrom, h]
    simp only [literalsFrom_eq, drop_succ_cons, hskip]

/-- A line end has no literals. -/
theorem literals_append_of_lineRest {e : List Char} (he : LineRest e)
    (hplain : ∀ x ∈ e, isLiteralStart x = false) (t : List Char) :
    literals (t ++ e) = literals t := by
  induction hn : t.length using Nat.strong_induction_on generalizing t with
  | _ n ih =>
    cases t with
    | nil => rw [nil_append, ← append_nil e, literals_append hplain]
    | cons x t =>
      have happend := literal?_append he (x :: t)
      cases hlit : literal? (x :: t) with
      | none =>
        rw [hlit, Option.map_none, cons_append] at happend
        rw [cons_append, literals_cons_of_none happend, literals_cons_of_none hlit]
        exact ih t.length (by simp [← hn]) t rfl
      | some found =>
        obtain ⟨s, r⟩ := found
        rw [hlit, Option.map_some] at happend
        obtain ⟨k, hpos, hk, hr⟩ := exists_drop_of_literal? hlit
        rw [literals_of_literal? happend, literals_of_literal? hlit]
        refine congrArg _ (ih r.length ?_ r rfl)
        rw [← hn, hr, length_drop]
        omega

/-! ## Code in pieces -/

/-- A character outside literals: no start of one, and no white space but spaces and tabs. -/
def isPlain (x : Char) : Bool :=
  !isLiteralStart x && (isSpaceOrTab x || !isBlank x)

/-- No white space stands between a `<` or `>` and an equals sign. -/
def Unparted (x : Char) (t : List Char) : Prop :=
  (x = '<' ∨ x = '>') → (t.dropWhile isSpaceOrTab).head? = some '=' → t.head? = some '='

/-- The first text is plain characters and literals in front of the second. -/
inductive Lexed : List Char → List Char → Prop
  | refl (t : List Char) : Lexed t t
  | plain {x : Char} {t r : List Char} (hx : isPlain x = true) (hunparted : Unparted x t)
      (h : Lexed t r) : Lexed (x :: t) r
  | literal {s : String} {t t' r : List Char} (hs : literal? t = some (s, t')) (h : Lexed t' r) :
      Lexed t r

theorem Lexed.trans {t r r' : List Char} (h : Lexed t r) (h' : Lexed r r') : Lexed t r' := by
  induction h with
  | refl => exact h'
  | plain hx hunparted _ ih => exact .plain hx hunparted (ih h')
  | literal hs _ ih => exact .literal hs (ih h')

instance : IsPreorder (List Char) Lexed where
  refl := .refl
  trans _ _ _ := .trans

/-- The plain characters that go with any other. -/
def isInert (x : Char) : Bool :=
  isPlain x && x != '<' && x != '>'

theorem Lexed.append {a t : List Char} (h : ∀ x ∈ a, isInert x) : Lexed (a ++ t) t := by
  induction a with
  | nil => exact .refl t
  | cons x a ih =>
    have hx := h x mem_cons_self
    simp only [isInert, Bool.and_eq_true, bne_iff_ne, ne_eq] at hx
    refine .plain hx.1.1 ?_ (ih fun y hy => h y (mem_cons_of_mem _ hy))
    rintro (rfl | rfl)
    · exact absurd rfl hx.1.2
    · exact absurd rfl hx.2

theorem Lexed.dropWhile {q : Char → Bool} (h : ∀ x, q x → isInert x) (t : List Char) :
    Lexed t (t.dropWhile q) := by
  have hrun := Lexed.append (a := t.takeWhile q) (t := t.dropWhile q)
    fun x hx => h x (all_eq_true.1 all_takeWhile x hx)
  rwa [takeWhile_append_dropWhile] at hrun

/-! ## Tokens -/

theorem delimiter_not_isInert : Delimiter fun x => !isInert x := by
  have hcases {p : Char → Prop} (hblank : ∀ n ∈ blankCodes, p (Char.ofNat n))
      (hmarks : ∀ x ∈ ['\'', '"', '$', ':', '<', '>'], p x) (x : Char)
      (hx : (!isInert x) = true) : p x := by
    by_cases hb : isBlank x
    · exact of_isBlank hblank hb
    · refine hmarks x ?_
      simp only [isInert, isPlain, isLiteralStart, hb, Bool.not_and, Bool.not_not, Bool.or_eq_true,
        beq_iff_eq, bne, Bool.not_false, Bool.or_true, Bool.not_true, Bool.false_eq_true,
        or_false] at hx
      simp only [mem_cons, not_mem_nil, or_false]
      tauto
  exact ⟨hcases (by decide) (by decide),
    hcases (by decide +kernel) (by decide), hcases (by decide) (by decide)⟩

theorem isInert_of_isNameChar {x : Char} (h : isNameChar x) : isInert x := by
  by_contra hx
  rw [delimiter_not_isInert.name x (by simpa using hx)] at h
  cases h

theorem isInert_of_isDigit {x : Char} (h : x.isDigit) : isInert x := by
  by_contra hx
  rw [delimiter_not_isInert.digit (by simpa using hx)] at h
  cases h

theorem isInert_of_isSpaceOrTab {x : Char} (h : isSpaceOrTab x) : isInert x := by
  simp only [isSpaceOrTab, Bool.or_eq_true, beq_iff_eq] at h
  rcases h with rfl | rfl <;> decide

variable {α : Type} {p : Parser α} {x : Char} {w : String}

theorem lexed_of_over (h : Reads (Over fun x => isInert x = true) p) : Reads (Rests Lexed) p where
  of_done hdone := by
    obtain ⟨u, hu, hinert⟩ := h.of_done hdone
    rw [Rests, hu.1]
    exact .append hinert

instance : Reads (Rests Lexed) spaces := lexed_of_over (over_spaces fun _ => isInert_of_isSpaceOrTab)

instance : Reads (Rests Lexed) (takeWhile Char.isDigit) :=
  lexed_of_over (over_takeWhile fun _ => isInert_of_isDigit)

instance : Reads (Rests Lexed) digits := lexed_of_over (over_digits fun _ => isInert_of_isDigit)

instance : Reads (Rests Lexed) identifier :=
  lexed_of_over (over_identifier fun _ => isInert_of_isNameChar)

instance [hx : Among x [signs]] : Reads (Rests Lexed) (char x) :=
  lexed_of_over (over_char ((by decide : ∀ x ∈ [signs].flatten, isInert x = true) x hx.mem))

instance : Reads (Rests Lexed) number := by unfold number; infer_instance

theorem isInert_of_match [hw : Among w plainWords] (t : List Char) (k : Nat)
    (h : matchLength? w.toList t = some k) : ∀ x ∈ t.take k, isInert x := by
  have happart := (by decide +kernel :
    ∀ w ∈ plainWords.flatten, isApart (fun x => !isInert x) w.toList = true) w hw.mem
  exact fun x hx => by simpa using notMem_of_matchLength? delimiter_not_isInert happart h x hx

instance [Among w plainWords] : Reads (Rests Lexed) (symbol w) :=
  lexed_of_over (over_symbol (fun _ => isInert_of_isSpaceOrTab) isInert_of_match)

instance [Among w plainWords] : Reads (Rests Lexed) (keyword w) :=
  lexed_of_over (over_keyword (fun _ => isInert_of_isSpaceOrTab) isInert_of_match)

/-- Marks that no equals sign follows behind white space, with that white space. -/
theorem Lexed.marks {a t : List Char} (ha : ∀ x ∈ a, isPlain x ∧ isSpaceOrTab x = false)
    (ht : (t.dropWhile isSpaceOrTab).head? ≠ some '=') :
    Lexed (a ++ t) (t.dropWhile isSpaceOrTab) := by
  induction a with
  | nil => exact .dropWhile (fun _ => isInert_of_isSpaceOrTab) t
  | cons x a ih =>
    have hrest := ih fun y hy => ha y (mem_cons_of_mem _ hy)
    rw [cons_append]
    refine .plain (ha x mem_cons_self).1 (fun _ hequals => ?_) hrest
    cases a with
    | nil => exact absurd hequals ht
    | cons y a =>
      have hy := (ha y (mem_cons_of_mem _ mem_cons_self)).2
      rwa [cons_append, dropWhile_cons_of_neg (by simp [hy])] at hequals

theorem lexed_marks {sym a : String}
    (hsym : ∀ x ∈ sym.toList, isMark x ∧ isPlain x ∧ isSpaceOrTab x = false)
    (h : symbol sym c = .done a r) (hr : r.rest.head? ≠ some '=') : Lexed c.rest r.rest := by
  obtain ⟨t, ht, -, hrest⟩ :=
    symbol_marks_eq_done (all_eq_true.2 fun x hx => (hsym x hx).1) h
  rw [hrest] at hr ⊢
  rw [ht]
  exact Lexed.marks (fun x hx => (hsym x hx).2) hr

theorem lexed_of_literal (h : literal c = .done s r) :
    Lexed c.rest r.rest :=
  .literal (literal?_eq_some_iff.2 ⟨r, h, rfl⟩) (.refl _)

/-- Where a parser has read something, one that fails at its first character fails. -/
theorem exists_failed {α β : Type} {p : Parser α} {q : Parser β} {x : Char} {a : α}
    (hp : ∀ y, y ≠ some x → FailsAt y p) (hq : FailsAt x q) (h : p c = .done a r) :
    ∃ e, q c = .failed e := by
  refine hq c ?_
  by_contra hx
  exact (hp _ hx).ne_done rfl h

theorem literal_of_stringLiteral (h : stringLiteral c = .done s r) :
    literal c = .done s r :=
  orElse_of_done h

theorem literal_of_systemVariable (h : systemVariable c = .done s r) :
    literal c = .done s r := by
  obtain ⟨e, he⟩ := exists_failed (x := '$') (fun _ => failsAt_systemVariable)
    (failsAt_stringLiteral (by decide) (by decide)) h
  exact orElse_of_failed he (orElse_of_done h)

theorem literal_of_commentLiteral (h : commentLiteral c = .done s r) :
    literal c = .done s r := by
  obtain ⟨e, he⟩ := exists_failed (x := ':') (fun _ => failsAt_commentLiteral)
    (failsAt_stringLiteral (by decide) (by decide)) h
  obtain ⟨e', he'⟩ := exists_failed (x := ':') (fun _ => failsAt_commentLiteral)
    (failsAt_systemVariable (by decide)) h
  exact orElse_of_failed he (orElse_of_failed he' h)

instance : Reads (Rests Lexed) stringLiteral :=
  ⟨fun hdone => lexed_of_literal (literal_of_stringLiteral hdone)⟩

instance : Reads (Rests Lexed) systemVariable :=
  ⟨fun hdone => lexed_of_literal (literal_of_systemVariable hdone)⟩

instance : Reads (Rests Lexed) commentLiteral :=
  ⟨fun hdone => lexed_of_literal (literal_of_commentLiteral hdone)⟩

instance : Reads (Rests Lexed) closedComment where
  of_done {c r a} hdone := by
    by_cases hhead : c.rest.head? = some ':'
    · rw [closedComment_of_colon hhead] at hdone
      exact Reads.of_done hdone
    · rw [closedComment_of_ne hhead] at hdone
      exact Reads.of_done hdone

instance {f : Option String → Parser α} [∀ comment, Reads (Rests Lexed) (f comment)] :
    Reads (Rests Lexed) (bracketComment >>= fun comment => char ']' >>= fun _ => f comment) := by
  rw [← bind_closedComment]
  infer_instance

/-! ## Expressions -/

section
variable {e : Parser Expr}

instance [Reads (Rests Lexed) e] : Reads (Rests Lexed) (operand e) := by
  unfold operand lexeme parenthesized register
  infer_instance

instance [Reads (Rests Lexed) e] : Reads (Rests Lexed) (signed e) := by
  unfold signed unaryOp
  infer_instance

instance [Reads (Rests Lexed) e] : Reads (Rests Lexed) (multiplicative e) := by
  unfold multiplicative multiplicativeOp
  infer_instance

instance [Reads (Rests Lexed) e] : Reads (Rests Lexed) (additive e) := by
  unfold additive additiveOp
  infer_instance

/-- A comparison whose right side can begin where it has led. -/
theorem lexed_comparisonOp {op : BinaryOp} (h : comparisonOp c = .done op r)
    (hr : r.rest.head? ≠ some '=') : Lexed c.rest r.rest := by
  have hsym {sym : String} {o : BinaryOp}
      (hmarks : ∀ x ∈ sym.toList, isMark x ∧ isPlain x ∧ isSpaceOrTab x = false)
      (hdone : (symbol sym *> pure o : Parser BinaryOp) c = .done op r) : Lexed c.rest r.rest := by
    obtain ⟨a, c', ha, hpure⟩ := seqRight_eq_done.1 hdone
    cases hpure
    exact lexed_marks hmarks ha hr
  rcases orElse_eq_done h with h | h
  · exact hsym (by decide) h
  rcases orElse_eq_done h with h | h
  · exact hsym (by decide) h
  rcases orElse_eq_done h with h | h
  · exact hsym (by decide) h
  rcases orElse_eq_done h with h | h
  · exact hsym (by decide) h
  rcases orElse_eq_done h with h | h
  · exact hsym (by decide) h
  · exact hsym (by decide) h

/-- No operand begins with such a character. -/
theorem failsAt_operand {x : Option Char} (h : FailsAt.beginsApart x "(".toList = true ∧
    x.any Char.isDigit = false ∧ x.any isNameStart = false ∧ x ≠ some '.' ∧ x ≠ some '\'' ∧
    x ≠ some '"' ∧ x ≠ some '$' := by decide) : FailsAt x (operand e) := by
  obtain ⟨hparen, hdigit, hname, hpoint, hsingle, hdouble, hdollar⟩ := h
  refine FailsAt.bind (FailsAt.bind (FailsAt.spanned ?_))
  refine (FailsAt.symbol_apart hparen).bind.orElse (.orElse ?_ (.orElse ?_ (.orElse ?_ ?_)))
  · exact (FailsAt.recognized ((FailsAt.takeWhile1 hdigit).bind.orElse
      (FailsAt.char hpoint).bind)).bind
  · exact (failsAt_stringLiteral hsingle hdouble).bind
  · exact (failsAt_systemVariable hdollar).bind
  · exact (FailsAt.identifier hname).bind.orElse (FailsAt.identifier hname).bind

/-- With or without a sign before it. -/
theorem failsAt_signed {x : Option Char} (hoperand : FailsAt x (operand e))
    (h : FailsAt.beginsApart x "NOT".toList = true ∧ FailsAt.beginsApart x "!".toList = true ∧
      FailsAt.beginsApart x "-".toList = true := by decide) : FailsAt x (signed e) := by
  have hop : FailsAt x unaryOp :=
    (FailsAt.keyword_apart h.1).seqRight.orElse
      ((FailsAt.symbol_apart h.2.1).seqRight.orElse (FailsAt.symbol_apart h.2.2).seqRight)
  have hsign : FailsAt x (do let start ← position; let op ← unaryOp; return (start, op)) :=
    .position_bind fun _ => hop.bind
  exact hsign.many_bind hoperand.bind

theorem failsAt_additive : FailsAt '=' (additive e) := (failsAt_signed failsAt_operand).bind.bind

theorem lexed_of_done [Reads (Rests Lexed) p] {a : α} (h : p c = .done a r) :
    Lexed c.rest r.rest :=
  (Reads.of_done h : Rests Lexed c r)

instance [Reads (Rests Lexed) e] : Reads (Rests Lexed) (comparison e) where
  of_done hdone := by
    obtain ⟨left, c₁, hleft, htail⟩ := bind_eq_done.1 hdone
    refine (lexed_of_done hleft).trans ?_
    obtain ⟨o, c₂, hmaybe, hend⟩ := bind_eq_done.1 htail
    rcases maybe_eq_done hmaybe with ⟨op, rfl, hop⟩ | ⟨rfl, rfl⟩
    · obtain ⟨right, c₃, hright, hjoin⟩ := bind_eq_done.1 hend
      cases hjoin
      -- The right side has begun here, and with no equals sign.
      have hequals : c₂.rest.head? ≠ some '=' := by
        intro hhead
        exact (failsAt_additive (e := e)).ne_done hhead hright
      exact (lexed_comparisonOp hop hequals).trans (lexed_of_done hright)
    · cases hend
      exact .refl _

end

instance : Reads (Rests Lexed) expression := .nested fun _ _ => by
  unfold disjunction conjunction
  infer_instance

instance : Reads (Rests Lexed) primary := by unfold primary; infer_instance

/-! ## Actions and the branches of a select -/

instance : Reads (Rests Lexed) labelReference := by
  unfold labelReference lexeme directLabel
  infer_instance

instance : Reads (Rests Lexed) callTarget := by unfold callTarget parens between; infer_instance
instance : Reads (Rests Lexed) assignment := by unfold assignment; infer_instance
instance : Reads (Rests Lexed) action := by unfold action; infer_instance
instance : Reads (Rests Lexed) caseBranch := by unfold caseBranch; infer_instance

end RobotSource.Listing.Grammar
