import RobotSource.Proofs.Karel.Grammar.Progress
import RobotSource.Proofs.Karel.View
import RobotSource.Proofs.Parsing.Repetition
/-!
# Comparing how Karel expressions are read

Two texts are read as the same Karel expression, up to a view of each side, if their tokens are read
alike. What has to be known of the tokens is collected in `Lexis`; the rules of the grammar are then
gone through once (`Lexis.expression`, `Lexis.reference`).

Two relations between cursors take part. `tight` holds where a token may begin, `loose` behind a
token, where white space and comments may still have to be skipped. The places of both sides are
needed where a token does begin, and behind the tokens that end a suffix (`Flush`).
-/

namespace RobotSource.Karel.Grammar

open Parsing Parsing.Parser Text

/-! ## Tokens -/

/-- The single characters of the grammar. -/
abbrev marks : List Char := ['[', ']', '(', ')', ',', '*', ':', ';']

/-- The operators of the grammar. -/
abbrev symbols : List String :=
  ["(", ")", "::", "*", "/", "-", "+", "<=", ">=", "<>", "=", "<", ">"]

/-- The keywords of the grammar. -/
abbrev keywords : List String :=
  ["TRUE", "FALSE", "ON", "OFF", "NOT", "DIV", "MOD", "AND", "OR", "IN", "ARRAY", "OF", "STRUCTURE",
    "ENDSTRUCTURE", "PATH", "PATHHEADER", "NODEDATA", "STRING", "RETURN", "GOTO", "GO", "TO", "DELAY",
    "WAIT", "FOR", "IF", "THEN", "ELSE", "ENDIF", "DOWNTO", "DO", "ENDFOR", "WHILE", "ENDWHILE",
    "REPEAT", "UNTIL", "CASE", "SELECT", "ENDSELECT", "ABORT", "PAUSE", "CONST", "TYPE", "VAR",
    "BEGIN", "END", "FROM", "ROUTINE", "PROGRAM"]

/-- `.name` or `.$NAME`. -/
def fieldName : Parser String := do
  let _ ← char '.'
  name <|> systemName

instance {n : Nat} : Orderly n true fieldName fieldName := by unfold fieldName; infer_instance

/-- `label::`. -/
def labelMark : Parser String := do
  let label ← name
  spaces
  let _ ← symbol "::"
  return label

/-- `GROUP[`. -/
def groupMark : Parser Unit := do
  let _ ← keyword "GROUP"
  let _ ← char '['

/-- `WRITE` or `READ`, as it is written. -/
def verb : Parser String := keyword "WRITE" <|> keyword "READ"

/-- Both sides stand directly behind a token, at corresponding places. -/
def Flush (loose : Cursor → Cursor → Prop) (v v' : View) (c d : Cursor) : Prop :=
  loose c d ∧ v.position c.position = v'.position d.position

/-- The tokens of two texts are read alike. -/
structure Lexis (loose tight : Cursor → Cursor → Prop) (v v' : View) : Prop where
  loose_of_tight : ∀ c d, tight c d → loose c d
  position : ∀ c d, tight c d → c.rest ≠ [] → v.position c.position = v'.position d.position
  column : ∀ p q k, v.position p = v'.position q →
    v.position ⟨p.line, p.column + k⟩ = v'.position ⟨q.line, q.column + k⟩
  code : ∀ c d c' d', tight c d → loose c' d' → c'.rest.length < c.rest.length →
    v.position (endOfCode c.position (c.upTo c')) = v'.position (endOfCode d.position (d.upTo d'))
  atEnd : ∀ c d, tight c d → c.atEnd = d.atEnd
  blanks : Keeps loose tight (fun _ _ => True) blanks blanks
  char : ∀ x ∈ marks, Keeps tight (Flush loose v v') (fun _ _ => True) (char x) (char x)
  symbol : ∀ s ∈ symbols, Keeps tight loose (fun _ _ => True) (symbol s) (symbol s)
  keyword : ∀ w ∈ keywords, Keeps tight loose (fun _ _ => True) (keyword w) (keyword w)
  identifier : Keeps tight loose (fun a b => v.name a = v'.name b) identifier identifier
  name : Keeps tight loose (fun a b => v.name a = v'.name b) name name
  number : Keeps tight loose (fun a b => v.name a = v'.name b) number number
  string : Keeps tight loose (fun a b => v.literal a = v'.literal b) stringLiteral stringLiteral
  system : Keeps tight loose (fun a b => v.name a = v'.name b) systemName systemName
  programVariable : Keeps tight loose
    (fun a b => v.name a.1 = v'.name b.1 ∧ v.name a.2 = v'.name b.2) programVariable programVariable
  fieldName : Keeps tight (Flush loose v v') (fun a b => v.name a = v'.name b) fieldName fieldName
  labelMark : Keeps tight loose (fun a b => v.name a = v'.name b) labelMark labelMark
  groupMark : Keeps tight loose (fun _ _ => True) groupMark groupMark
  verb : Keeps tight loose
    (fun a b => a.length = b.length ∧ v.name (upper a) = v'.name (upper b)) verb verb
  /-- names match on one side if and only if they do on the other -/
  matching : ∀ a b a' b', v.name a = v'.name b → v.name a' = v'.name b' →
    sameIgnoringCase a a' = sameIgnoringCase b b'
  /-- a word names the same type on both sides -/
  type : ∀ a b s t, v.name a = v'.name b → v.span s = v'.span t →
    (typeOfWord a s).view v = (typeOfWord b t).view v'

theorem column_same (p q : Position) (k : Nat) (h : View.same.position p = View.same.position q) :
    View.same.position ⟨p.line, p.column + k⟩ = View.same.position ⟨q.line, q.column + k⟩ := by
  obtain rfl : p = q := h
  rfl

theorem matching_same (a b a' b' : String) (h : View.same.name a = View.same.name b)
    (h' : View.same.name a' = View.same.name b') :
    sameIgnoringCase a a' = sameIgnoringCase b b' := by
  obtain rfl : a = b := h
  obtain rfl : a' = b' := h'
  rfl

theorem typeOfWord_same (a b : String) (s t : Span) (h : View.same.name a = View.same.name b)
    (hst : View.same.span s = View.same.span t) :
    (typeOfWord a s).view .same = (typeOfWord b t).view .same := by
  obtain rfl : a = b := h
  obtain rfl : s = t := hst
  rfl

/-- The two expressions are the same in the views. -/
def SameExpr (v v' : View) (a b : Expr) : Prop := a.view v = b.view v'

/-- The two spans are the same in the views. -/
def SameSpan (v v' : View) (s t : Span) : Prop := v.span s = v'.span t

section
variable {v v' : View}
variable {a b : Expr}

theorem SameExpr.span (h : SameExpr v v' a b) : SameSpan v v' a.span b.span := by
  rw [SameSpan, ← Expr.span_view, ← Expr.span_view, h]

theorem SameExpr.eq (h : SameExpr v v' a b) : a.view v = b.view v' := h

theorem SameSpan.eq {s t : Span} (h : SameSpan v v' s t) : v.span s = v'.span t := h

theorem SameSpan.cover {s t s' t' : Span} (h : SameSpan v v' s t) (h' : SameSpan v v' s' t') :
    SameSpan v v' (s.cover s') (t.cover t') := by
  rw [SameSpan, View.span_cover, View.span_cover, h, h']

theorem SameExpr.join {a' b' : Expr} {op op' : BinaryOp} (ha : SameExpr v v' a a') (hop : op = op')
    (hb : SameExpr v v' b b') : SameExpr v v' (a.join op b) (a'.join op' b') := by
  rw [SameExpr, Expr.view_join, Expr.view_join, ha, hb, hop]

/-- An operator in front of an expression. -/
theorem SameExpr.unary {e e' : Expr} {start start' : Position} (op : UnaryOp)
    (hstart : v.position start = v'.position start') (he : SameExpr v v' e e') :
    SameExpr v v' (.unary ⟨start, e.span.stop⟩ op e) (.unary ⟨start', e'.span.stop⟩ op e') := by
  have hstop := congrArg Span.stop he.span
  simp only [View.span] at hstop
  rw [SameExpr] at he
  simp only [SameExpr, Expr.view, View.span, hstart, hstop, he]

/-- Suffixes behind an expression, each with its span. -/
theorem SameExpr.suffixes {ss ss' : List ((Span → Expr → Expr) × Span)}
    (hss : List.Forall₂ (fun x y =>
      (∀ s t a b, SameSpan v v' s t → SameExpr v v' a b → SameExpr v v' (x.1 s a) (y.1 t b)) ∧
        SameSpan v v' x.2 y.2) ss ss')
    {e e' : Expr} (he : SameExpr v v' e e') :
    SameExpr v v' (ss.foldl (fun e (build, span) => build (e.span.cover span) e) e)
      (ss'.foldl (fun e (build, span) => build (e.span.cover span) e) e') := by
  induction hss generalizing e e' with
  | nil => exact he
  | cons hxy _ ih => exact ih (hxy.1 _ _ _ _ (he.span.cover hxy.2) he)

end

namespace Lexis

/-- What is built from a span is the same in the views. -/
abbrev SameBuild (v v' : View) (f g : Span → Expr) : Prop :=
  ∀ s t, SameSpan v v' s t → SameExpr v v' (f s) (g t)

/-- What is built from a span and an expression is the same in the views. -/
abbrev SameSuffix (v v' : View) (f g : Span → Expr → Expr) : Prop :=
  ∀ s t a b, SameSpan v v' s t → SameExpr v v' a b → SameExpr v v' (f s a) (g t b)

variable {loose tight : Cursor → Cursor → Prop} {v v' : View}

/-- A token that stands for itself. -/
theorem leaf {α : Type} {p : Parser α} {f f' : α → α} (build : Span → α → Expr)
    (h : Agrees tight loose p fun a b => f a = f' b)
    (hv : ∀ s a, (build s a).view v = build (v.span s) (f a) := by exact fun _ _ => rfl)
    (hv' : ∀ s a, (build s a).view v' = build (v'.span s) (f' a) := by exact fun _ _ => rfl) :
    Agrees tight loose (do let a ← p; return fun span => build span a) (SameBuild v v') :=
  h.bind fun a b hab => .pure fun s t hst => by rw [SameExpr, hv, hv', hst, hab]

variable (L : Lexis loose tight v v')
include L

theorem gap : Keeps loose tight (fun _ _ => True) Grammar.blanks Grammar.blanks := L.blanks

theorem mark {x : Char} [h : Among x [marks]] :
    Agrees tight loose (Parsing.char x) fun _ _ => True :=
  (L.char x h.mem_row).imp (fun _ _ h => h.1) fun _ _ h => h

theorem kw {w : String} [h : Among w [keywords]] :
    Agrees tight tight (Grammar.kw w) fun _ _ => True :=
  .pass (L.keyword w h.mem_row) L.gap

theorem op {sym : String} [h : Among sym [symbols]] :
    Agrees tight tight (Grammar.op sym) fun _ _ => True :=
  .pass (L.symbol sym h.mem_row) L.gap

theorem punct {x : Char} [Among x [marks]] :
    Agrees tight tight (Grammar.punct x) fun _ _ => True :=
  .pass L.mark L.gap

theorem ident : Agrees tight tight Grammar.ident fun a b => v.name a = v'.name b :=
  L.name.bind fun _ _ hab => .pass L.gap (.pure hab)

section
variable {α β : Type} {V : α → β → Prop} {p : Parser α} {q : Parser β}

/-- What is read, with the span of its code. -/
theorem coded {T : Cursor → Cursor → Prop} [Consumes p] (hT : ∀ c d, T c d → loose c d)
    (h : Keeps tight T V p q) :
    Keeps tight T (fun x y => V x.1 y.1 ∧ SameSpan v v' x.2 y.2) (Grammar.coded p)
      (Grammar.coded q) := by
  intro c d hcd
  rw [Grammar.coded, Grammar.coded]
  have hpq := h c d hcd
  generalize hp : p c = o, q d = o' at hpq
  cases hpq with
  | done hab hrest =>
    refine .done ⟨hab, ?_⟩ hrest
    have hstart := L.position c d hcd (ne_nil_of_done hp)
    have hstop := L.code c d _ _ hcd (hT _ _ hrest) (length_lt_of_done hp)
    rw [SameSpan, View.span, View.span, hstart, hstop]
  | failed => exact .failed
  | aborted => exact .aborted

theorem lexeme [Consumes p] (h : Keeps tight loose V p q) :
    Keeps tight tight (fun x y => V x.1 y.1 ∧ SameSpan v v' x.2 y.2) (Grammar.lexeme p)
      (Grammar.lexeme q) :=
  (L.coded (fun _ _ h => h) h).bind fun _ _ hxy => .pass L.gap (.pure hxy)

theorem loose_of (h : Keeps tight tight V p q) : Keeps tight loose V p q :=
  h.imp L.loose_of_tight fun _ _ h => h

end

/-! ## Operands -/

theorem boolean : Agrees tight loose Grammar.boolean (· = ·) :=
  .orElse (.seqRight_pure (L.keyword "TRUE" (by decide)) _) <|
  .orElse (.seqRight_pure (L.keyword "FALSE" (by decide)) _) <|
  .orElse (.seqRight_pure (L.keyword "ON" (by decide)) _)
    (.seqRight_pure (L.keyword "OFF" (by decide)) _)

theorem productOp : Agrees tight tight Grammar.productOp (· = ·) :=
  .orElse (.seqRight_pure L.op _) <| .orElse (.seqRight_pure L.op _) <|
  .orElse (.seqRight_pure L.kw _) <| .orElse (.seqRight_pure L.kw _) (.seqRight_pure L.kw _)

theorem sign : Agrees tight tight Grammar.sign (· = ·) :=
  .orElse (.seqRight_pure L.op _) (.seqRight_pure L.op _)

theorem sumOp : Agrees tight tight Grammar.sumOp (· = ·) :=
  .orElse (.seqRight_pure L.op _) <| .orElse (.seqRight_pure L.op _) (.seqRight_pure L.kw _)

theorem relationOp : Agrees tight tight Grammar.relationOp (· = ·) :=
  .orElse (.seqRight_pure L.op _) <| .orElse (.seqRight_pure L.op _) <|
  .orElse (.seqRight_pure L.op _) <| .orElse (.seqRight_pure L.op _) <|
  .orElse (.seqRight_pure L.op _) (.seqRight_pure L.op _)

section
variable {e : Parser Expr} (he : Agrees tight tight e (SameExpr v v'))
include he

theorem parenthesized : Agrees tight loose (Grammar.parenthesized e) (SameBuild v v') := by
  refine .pass L.op <| he.bind fun a b hab => .pass L.mark <| .pure fun s t hst => ?_
  rw [SameExpr, Expr.view, Expr.view, hab.eq, hst]

variable [∀ n, Orderly n true e e]

theorem operand : Agrees tight tight (Grammar.operand e) (SameExpr v v') := by
  refine (L.lexeme (V := SameBuild v v') ?_).bind fun x y hxy => .pure (hxy.1 _ _ hxy.2)
  refine (L.parenthesized he).orElse ?_
  refine (leaf .number L.number).orElse <| (leaf .string L.string).orElse <|
    (leaf .system L.system).orElse ?_
  refine (L.programVariable.bind fun a b hab => .pure fun s t hst => ?_).orElse <|
    (leaf (f := id) .boolean L.boolean).orElse (leaf .identifier L.name)
  rw [SameExpr, Expr.view, Expr.view, hst, hab.1, hab.2]

theorem suffix : Agrees tight (Flush loose v v') (Grammar.suffix e) (SameSuffix v v') := by
  have hcomma : Agrees tight tight (Grammar.punct ',') fun _ _ => True := L.punct
  refine .orElse ?_ (.orElse ?_ ?_)
  · refine .pass L.punct <| (hcomma.sepBy1 he).bind fun is is' his => ?_
    refine .pass (L.char ']' (by decide)) <| .pure fun s t a b hst hab => ?_
    rw [SameExpr, Expr.view, Expr.view, hst, hab.eq, Expr.viewAll_eq_map, Expr.viewAll_eq_map,
      map_eq_of_forall₂ his]
  · have hfield : Agrees tight (Flush loose v v')
        (do let field ← Grammar.fieldName; return fun span base => .field span base field)
        (SameSuffix v v') := by
      refine L.fieldName.bind fun f f' hf => .pure fun s t a b hst hab => ?_
      rw [SameExpr, Expr.view, Expr.view, hst, hab.eq, hf]
    simpa only [Grammar.fieldName, bind_assoc] using hfield
  · refine .pass L.punct <| (Keeps.sepBy hcomma he).bind fun as as' has => ?_
    refine .pass (L.char ')' (by decide)) <| .pure fun s t a b hst hab => ?_
    rw [SameExpr, Expr.view, Expr.view, hst, hab.eq, Expr.viewAll_eq_map, Expr.viewAll_eq_map,
      map_eq_of_forall₂ has]

theorem reference : Agrees tight tight (Grammar.reference e) (SameExpr v v') := by
  have hsuffix : Agrees tight tight
      (do let s ← spanned (Grammar.suffix e); Grammar.blanks; return s)
      fun x y => SameSuffix v v' x.1 y.1 ∧ SameSpan v v' x.2 y.2 := by
    have hspan := (L.suffix he).spanned_of_ne_nil (P := fun p q => v.position p = v'.position q)
      L.position fun _ _ h => h.2
    refine hspan.bind fun x y hxy => .pass (L.gap.of_imp fun _ _ h => h.1) <|
      .pure ⟨hxy.1, ?_⟩
    rw [SameSpan, View.span, View.span, hxy.2.1, hxy.2.2]
  refine (L.operand he).bind fun a b hab => hsuffix.many.bind fun ss ss' hss => ?_
  exact .pure (hab.suffixes hss)

/-! ## Operators -/

theorem negation : Agrees tight tight (Grammar.negation e) (SameExpr v v') := by
  have hnot : Agrees tight tight
      (do let start ← Parser.position; Grammar.kw "NOT"; return start)
      fun s t => v.position s = v'.position t :=
    .position_bind L.position fun s t => .pass L.kw (.pure id)
  refine hnot.many.bind fun ss ss' hss => (L.reference he).bind fun a b hab => .pure ?_
  induction hss with
  | nil => exact hab
  | cons hst _ ih => exact ih.unary .not hst

theorem signed : Agrees tight tight (Grammar.signed e) (SameExpr v v') := by
  have hproduct : Agrees tight tight (Grammar.product e) (SameExpr v v') :=
    .chainLeft L.productOp (L.negation he) fun _ _ ha _ _ hop _ _ hb => ha.join hop hb
  refine .position_bind (P := fun p q => v.position p = v'.position q) L.position fun s t => ?_
  refine (Keeps.maybe L.sign).bind fun sign sign' hsign => ?_
  cases hsign with
  | none => exact hproduct.imp (fun _ _ h => h) fun _ _ hab _ => hab
  | some hop =>
    obtain rfl := hop
    exact hproduct.bind fun a b hab => .pure fun hst => hab.unary _ hst

theorem sum : Agrees tight tight (Grammar.sum e) (SameExpr v v') :=
  .chainLeft L.sumOp (L.signed he) fun _ _ ha _ _ hop _ _ hb => ha.join hop hb

theorem relation : Agrees tight tight (Grammar.relation e) (SameExpr v v') := by
  refine (L.sum he).bind fun a b hab => ?_
  refine (Keeps.maybe L.relationOp).bind fun rel rel' hrel => ?_
  cases hrel with
  | none => exact .pure hab
  | some hop => exact (L.sum he).bind fun a' b' hab' => .pure (hab.join hop hab')

end

/-- **Where the tokens are read alike, so is every expression.** -/
theorem expression : Agrees tight tight Grammar.expression (SameExpr v v') :=
  .nested (s := true) (fun _ _ _ _ => inferInstance) fun _ _ h => L.relation h

end Lexis

end RobotSource.Karel.Grammar
