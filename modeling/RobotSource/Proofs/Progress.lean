import RobotSource.Proofs.Karel.Grammar.Lexing
import RobotSource.Proofs.Karel.Grammar.Progress
import RobotSource.Proofs.Listing.Grammar.Progress
/-!
# Every parse goes on, and every error is a place of the text

A text is read by going forward in it. What a grammar repeats reads at least one character each time,
so that no repetition ever stalls (`Steady`), and a rule refers to itself only behind something that
was read, so that it is the plain recursion that its body says. When a text cannot be read, the error
stands at a place of the text, and it is the end of the text exactly if it says so
(`SyntaxError.Real`).
-/

namespace RobotSource

namespace Parsing

open Parsing.Parser Text

variable {α β : Type} {p : Parser α}

/-- The item reads something whenever it is read, and the repetition of it never stalls. -/
structure Steady (item : Parser α) (whole : Parser β) : Prop where
  progresses : ∀ c a r, item c = .done a r → r.rest.length < c.rest.length
  neverStalls : ∀ c e, whole c = .failed e ∨ whole c = .aborted e → e.reason ≠ .stalled

theorem Orderly.steady {item : Parser α} {whole : Parser β} [∀ n, Orderly (n + 1) true item item]
    [∀ n, Orderly (n + 1) false whole whole] : Steady item whole where
  progresses _ _ _ h := length_lt_of_done h
  neverStalls _ _ h := (real_of_failed h).read

/-! ## Errors of a text -/

/-- The error stands where some beginning of the text is over, in a row of the text or right behind
it, and tells whether anything is left there. -/
structure SyntaxError.Real (text : String) (e : SyntaxError) : Prop where
  place : ∃ before rest, text.toList = before ++ rest ∧
    e.position = Position.first.afterAll before ∧
    (e.message = "unexpected end of input" ↔ rest = [])
  row : 1 ≤ e.position.line ∧ ∃ row, (splitLines text.toList)[e.position.line - 1]? = some row ∧
    e.position.column ≤ row.length + 1
  steady : e.reason ≠ .stalled

theorem Reason.message_eq_end_iff {reason : Reason} :
    reason.message = "unexpected end of input" ↔ reason = .endOfInput := by
  cases reason with
  | expecting alternatives =>
    refine iff_of_false (fun h => ?_) nofun
    have hhead := congrArg (·.toList.head?) h
    simp [message] at hhead
  | _ => decide

theorem SyntaxError.Real.ofFailure {text : String} {f : Failure} (h : f.Real (.ofText text)) :
    (SyntaxError.ofFailure f).Real text := by
  obtain ⟨u, hu, -⟩ := h.along
  have hplace : f.cursor.position = Position.first.afterAll u := hu.position
  have hreason : f.noticeEnd.reason = .endOfInput ↔ f.cursor.rest = [] := by
    rw [Failure.noticeEnd]
    split
    · rename_i hend
      exact iff_of_true rfl (by simpa [Cursor.atEnd] using hend)
    · rename_i hend
      exact ⟨h.ended, fun hnil => absurd hnil (by simpa [Cursor.atEnd] using hend)⟩
  refine ⟨⟨u, f.cursor.rest, hu.rest, hplace, Reason.message_eq_end_iff.trans hreason⟩, ?_,
    h.noticeEnd.read⟩
  have hline : 1 ≤ f.cursor.position.line := by
    have hle := Position.le_afterAll .first u
    rw [← hplace, Position.le_iff] at hle
    exact hle.elim Nat.le_of_lt fun h => h.1.le
  have hslice := rowSlice?_of ⟨u, hu⟩ (.refl f.cursor) (by simp)
  simp only [rowSlice?, Option.bind_eq_bind, Option.bind_eq_some_iff, guard] at hslice
  obtain ⟨row, hrow, _, hguard, -⟩ := hslice
  refine ⟨hline, row, hrow, ?_⟩
  split at hguard
  · assumption
  · cases hguard

theorem SyntaxError.Real.of_run [∀ n, Orderly (n + 1) false p p] {text : String} {e : SyntaxError}
    (h : p.run text = .error e) : e.Real text := by
  rw [Parser.run] at h
  split at h
  · cases h
  · rename_i f hf
    cases h
    exact .ofFailure (real_of_failed (.inl hf))
  · rename_i f hf
    cases h
    exact .ofFailure (real_of_failed (.inr hf))

end Parsing

open Parsing Parsing.Parser

/-! ## What the grammars repeat -/

/-- What a listing repeats, and the repetition of it. -/
inductive Listing.Grammar.Repeats : {α β : Type} → Parser α → Parser β → Prop
  | emptyLine : Repeats (spaces *> lineBreak) (many (spaces *> lineBreak))
  | sectionLine (marker : String) : Repeats (sectionLine marker) (linesUntil marker)
  | bodyLine : Repeats (emptyLines *> instruction) bodyLines
  | systemStep : Repeats systemStep (many systemStep)
  | sign : Repeats (do let start ← position; let op ← unaryOp; return (start, op))
      (many (do let start ← position; let op ← unaryOp; return (start, op)))
  | comma : Repeats (symbol ",") (sepBy (symbol ",") expression)
  | item : Repeats expression (sepBy (symbol ",") expression)
  | factor : Repeats (multiplicativeOp *> signed expression) (multiplicative expression)
  | term : Repeats (additiveOp *> multiplicative expression) (additive expression)
  | conjunct : Repeats (keyword "AND" *> comparison expression) (conjunction expression)
  | disjunct : Repeats (keyword "OR" *> conjunction expression) (disjunction expression)
  | motionOption : Repeats motionOption (many motionOption)
  | character (what : String) (q : Char → Bool) : Repeats (charThat what q) (takeWhile q)

/-- What a Karel text lists with commas, and the list of it. -/
inductive Karel.Grammar.Lists : {α β : Type} → Parser α → Parser β → Prop
  | index : Lists expression (sepBy1 (punct ',') expression)
  | actual : Lists expression (sepBy (punct ',') expression)
  | argument : Lists argument (sepBy (punct ',') argument)
  | name : Lists (lexeme name) (sepBy1 (punct ',') (lexeme name))
  | bound : Lists arrayBound (sepBy1 (punct ',') arrayBound)

/-- A character of white space, or a comment. -/
def Karel.Grammar.blank : Parser Unit :=
  (charThat "white space" Text.isSpacing *> pure ()) <|>
    (do let _ ← char '-'; let _ ← char '-'; let _ ← restOfLine)

instance {n : Nat} : Orderly n true Karel.Grammar.blank Karel.Grammar.blank := by
  unfold Karel.Grammar.blank; infer_instance

/-- What a Karel text repeats, and the repetition of it. -/
inductive Karel.Grammar.Repeats : {α β : Type} → Parser α → Parser β → Prop
  | comma {α β : Type} {item : Parser α} {whole : Parser β} (h : Lists item whole) :
      Repeats (punct ',') whole
  | listed {α β : Type} {item : Parser α} {whole : Parser β} (h : Lists item whole) :
      Repeats item whole
  | semicolon : Repeats (punct ';') (sepBy1 (punct ';') nameGroup)
  | parameters : Repeats nameGroup (sepBy1 (punct ';') nameGroup)
  | suffix : Repeats (do let s ← spanned (suffix expression); blanks; return s)
      (many (do let s ← spanned (suffix expression); blanks; return s))
  | negation : Repeats (do let start ← position; kw "NOT"; return start)
      (many (do let start ← position; kw "NOT"; return start))
  | factor : Repeats (productOp *> negation expression) (product expression)
  | term : Repeats (sumOp *> signed expression) (sum expression)
  | format : Repeats (op "::" *> sum expression) (many (op "::" *> sum expression))
  | statement : Repeats statement statements
  | selectCase : Repeats (selectCase statement) (many1 (selectCase statement))
  | names : Repeats nameGroup (many1 nameGroup)
  | constant : Repeats constant (many1 constant)
  | typeDeclaration : Repeats typeDeclaration (many1 typeDeclaration)
  | dataDeclaration : Repeats dataDeclaration (many dataDeclaration)
  | prologue : Repeats
      ((PrologueItem.directive <$> directive) <|> (PrologueItem.declaration <$> declaration))
      (many ((PrologueItem.directive <$> directive) <|> (PrologueItem.declaration <$> declaration)))
  | declaration : Repeats declaration (many declaration)
  | character (what : String) (q : Char → Bool) : Repeats (charThat what q) (takeWhile q)
  | blank : Repeats blank blanks

theorem Listing.Grammar.Repeats.steady {α β : Type} {item : Parser α} {whole : Parser β}
    (h : Repeats item whole) : Steady item whole := by
  cases h <;> exact Orderly.steady

theorem Karel.Grammar.Repeats.steady {α β : Type} {item : Parser α} {whole : Parser β}
    (h : Repeats item whole) : Steady item whole := by
  cases h with
  | comma h => cases h <;> exact Orderly.steady
  | listed h => cases h <;> exact Orderly.steady
  | _ => exact Orderly.steady

/-! ## Plain recursion -/

/-- A run of characters goes on behind each of them, and so does a name. -/
structure Parsing.Recursive : Prop where
  run : ∀ what q, takeWhile q =
    ((do let x ← charThat what q; let xs ← takeWhile q; return x :: xs) <|> pure [])
  name : identifier = do
    let x ← charThat "identifier" isNameStart
    let xs ← takeWhile isNameChar
    return String.ofList (x :: xs)

theorem Parsing.orElse_pure {α : Type} (p : Parser α) (a : α) (c : Cursor) :
    (p <|> pure a) c = match p c with
      | .failed _ => .done a c
      | outcome => outcome := rfl

theorem Parsing.recursive : Recursive where
  run what q := by
    funext c
    rcases c with ⟨_ | ⟨x, t⟩, place⟩
    · rfl
    by_cases hx : q x
    · simp only [orElse_pure, bind_apply, charThat, takeWhile, hx, List.takeWhile_cons_of_pos,
        if_true]
      rfl
    · simp [orElse_pure, bind_apply, charThat, takeWhile, hx]
  name := by
    funext c
    rcases c with ⟨_ | ⟨x, t⟩, place⟩
    · rfl
    by_cases hx : isNameStart x
    · simp only [identifier, bind_apply, charThat, hx, if_true]
      rfl
    · simp [identifier, bind_apply, charThat, hx]

/-- Each rule of a listing that refers to itself is what its body says. -/
structure Listing.Grammar.Recursive : Prop extends Parsing.Recursive where
  expression : expression = disjunction expression
  linesUntil : ∀ marker, linesUntil marker = do
    let c ← cursor
    if c.atEnd then expected marker
    else if atMarker marker c.rest then return []
    else
      let line ← restOfLine
      let _ ← lineEnd
      let lines ← linesUntil marker
      return line :: lines
  bodyLines : bodyLines = do
    emptyLines
    let c ← cursor
    if c.atEnd || atMarker "/POS" c.rest || atMarker "/END" c.rest then return []
    else
      let i ← instruction
      let is ← bodyLines
      return i :: is

theorem Listing.Grammar.recursive : Recursive where
  toRecursive := Parsing.recursive
  expression := nested_eq (s := true) fun _ _ _ _ => inferInstance
  linesUntil marker := nested_eq (s := false) (by
    intro n p q h
    rw [linesUntil_body, linesUntil_body]
    infer_instance)
  bodyLines := nested_eq (s := false) fun _ _ _ _ => inferInstance

/-- Each rule of a Karel text that refers to itself is what its body says. -/
structure Karel.Grammar.Recursive : Prop extends Parsing.Recursive where
  expression : expression = relation expression
  dataType : dataType = dataTypeOf dataType
  statement : statement = statementOf statement
  blanks : blanks = (blank *> blanks <|> pure ())

open Text List in
/-- White space goes on behind a character of it and behind a comment. -/
theorem Karel.Grammar.blanks_eq : blanks = (blank *> blanks <|> pure ()) := by
  funext c
  rcases c with ⟨_ | ⟨x, t⟩, place⟩
  · rfl
  rw [orElse_pure, seqRight_apply]
  by_cases hspacing : isSpacing x
  · have hblank : blank ⟨x :: t, place⟩ = .done () (Cursor.drop ⟨x :: t, place⟩ 1) :=
      orElse_of_done (seqRight_eq_done.2 ⟨x, _, if_pos hspacing, rfl⟩)
    simp [hblank, blanks, blankLength, hspacing, Nat.add_comm]
  by_cases hdashes : x = '-' ∧ t.head? = some '-'
  · obtain ⟨rfl, ht⟩ := hdashes
    obtain ⟨u, rfl⟩ := head?_eq_some_iff.1 ht
    have hblank : blank ⟨'-' :: '-' :: u, place⟩ = .done () _ := rfl
    -- one turn takes both dashes and the rest of the line
    have hlength : blankLength false ('-' :: '-' :: u) = 1 + (1 + blankLength true u) := by
      rw [← Nat.add_assoc, Nat.add_comm]
      rfl
    rw [hblank]
    simp only [blanks, Cursor.rest_drop, Cursor.drop_drop, hlength, blankLength_true,
      ← drop_length_takeWhile, Nat.add_assoc, ← drop_drop]
    rfl
  · have hblank : ∃ e, blank ⟨x :: t, place⟩ = .failed e := by
      refine orElse_failed ((failsAt_charThat (by simpa using hspacing)).seqRight _ rfl) ?_
      by_cases hx : x = '-'
      · subst hx
        exact (FailsAt.char fun ht => hdashes ⟨rfl, ht⟩).bind (Cursor.drop ⟨_, place⟩ 1) rfl
      · exact (FailsAt.char (by simpa using hx)).bind _ rfl
    obtain ⟨e, he⟩ := hblank
    have hzero : blankLength false (x :: t) = 0 :=
      blankLength_eq_zero.2 ⟨by simpa using hspacing, hdashes⟩
    simp [he, blanks, hzero]

theorem Karel.Grammar.recursive : Recursive where
  toRecursive := Parsing.recursive
  blanks := blanks_eq
  expression := nested_eq (s := true) fun _ _ _ _ => inferInstance
  dataType := nested_eq (s := true) fun _ _ _ _ => inferInstance
  statement := nested_eq (s := true) fun _ _ _ _ => inferInstance

/-- **Every parse goes on and every error is real.** An error of a listing, of a single instruction, of
a Karel program or of an expression stands at a place of the text, and says that the text is over
exactly where it is. What the grammars repeat reads at least one character each time, and no
repetition stalls; and their rules are plain recursions. -/
theorem parsing_goes_on :
    (∀ text e, Listing.Program.parse text = .error e → e.Real text) ∧
    (∀ text e, Listing.Instruction.parse text = .error e → e.Real text) ∧
    (∀ text e, Karel.Program.parse text = .error e → e.Real text) ∧
    (∀ text e, Karel.Expr.parse text = .error e → e.Real text) ∧
    (∀ (α β : Type) (item : Parser α) (whole : Parser β),
      Listing.Grammar.Repeats item whole ∨ Karel.Grammar.Repeats item whole → Steady item whole) ∧
    Listing.Grammar.Recursive ∧ Karel.Grammar.Recursive :=
  ⟨fun _ _ => .of_run, fun _ _ => .of_run, fun _ _ => .of_run, fun _ _ => .of_run,
    fun _ _ _ _ h => h.elim (·.steady) (·.steady), Listing.Grammar.recursive,
    Karel.Grammar.recursive⟩

/-- An expression that breaks off is wrong where the text is over, and a stray bracket is wrong where it
stands. Every step of a system variable is longer than nothing. -/
theorem parsing_goes_on_in_expressions :
    (∃ e, Karel.Expr.parse "1 +" = .error e ∧ e.Real "1 +" ∧
      e.position = ⟨1, 4⟩ ∧ e.message = "unexpected end of input") ∧
    (∃ e, Karel.Expr.parse "a\n]" = .error e ∧ e.Real "a\n]" ∧
      e.position = ⟨2, 1⟩ ∧ e.message = "expected end of expression") ∧
    Steady Listing.Grammar.systemStep (many Listing.Grammar.systemStep) := by
  have error_of {text : String} {place : Position} {message : String}
      (h : (match Karel.Expr.parse text with
        | .error e => decide (e.position = place ∧ e.message = message)
        | .ok _ => false) = true) :
      ∃ e, Karel.Expr.parse text = .error e ∧ e.Real text ∧ e.position = place ∧
        e.message = message := by
    split at h
    · rename_i e he
      exact ⟨e, he, parsing_goes_on.2.2.2.1 text e he, of_decide_eq_true h⟩
    · cases h
  exact ⟨error_of (by decide +kernel), error_of (by decide +kernel),
    parsing_goes_on.2.2.2.2.1 _ _ _ _ (.inl .systemStep)⟩

end RobotSource
