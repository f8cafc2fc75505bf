import RobotSource.Proofs.Karel.Form
import RobotSource.Proofs.Parsing.Cursor
import RobotSource.Proofs.Parsing.Word
/-!
# Expressions are read in good form

Each rule of the grammar yields expressions of its rank (`shaped_expression`). One thing stands in
the way: a truth value is a keyword, which must not run on into a word character of any script, while
a name ends with the last ASCII character. `ONé` begins with the name `ON`, then. But nothing goes on
from such a place (`Stuck`), so it never belongs to an expression that has been read to its end.
-/

namespace RobotSource.Karel.Grammar

open Parsing Parsing.Parser Text List

variable {α : Type} {c r : Cursor}
variable {b y a : Char} {bs : List Char} {p : Parser α} {s : String} {e : Expr} {j k : Nat}
    {r' : Cursor} {es : List Expr}
variable {x : Option Char} {word : String}

/-! ## Where the operators fail -/

theorem failsAt_op {sym : String} {t : List Char} (hsym : sym.toList = b :: t)
    (h : x.map lowerCase ≠ some (lowerCase b)) : FailsAt x (op sym) :=
  (FailsAt.symbol hsym h).bind

theorem failsAt_kw {t : List Char} (hword : word.toList = b :: t)
    (h : x.map lowerCase ≠ some (lowerCase b)) : FailsAt x (kw word) :=
  (FailsAt.keyword hword h).bind

theorem failsAt_word
    (h : FailsAt.beginsApart x word.toList = true) : FailsAt x (kw word) :=
  (FailsAt.keyword_apart h).bind

theorem failsAt_punct (h : x ≠ some y) : FailsAt x (punct y) :=
  (FailsAt.char h).bind

/-- The character is none of those, in any case. -/
def NoneOf (bs : List Char) (x : Option Char) : Prop :=
  ∀ b ∈ bs, x.map lowerCase ≠ some (lowerCase b)

instance (bs : List Char) (x : Option Char) : Decidable (NoneOf bs x) :=
  inferInstanceAs (Decidable (∀ b ∈ bs, x.map lowerCase ≠ some (lowerCase b)))

theorem NoneOf.ne (h : NoneOf bs x) (hb : b ∈ bs) :
    x ≠ some b :=
  fun heq => h b hb (by rw [heq]; rfl)

theorem NoneOf.keyword (h : NoneOf bs x)
    (hword : word.toList.head?.any (· ∈ bs)) : FailsAt x (keyword word) := by
  obtain ⟨b, hb, hmem⟩ := (Option.any_eq_true _ _).1 hword
  obtain ⟨t, ht⟩ := head?_eq_some_iff.1 hb
  exact .keyword ht (h b (by simpa using hmem))

theorem NoneOf.op {sym : String} (h : NoneOf bs x)
    (hsym : sym.toList.head?.any (· ∈ bs)) : FailsAt x (op sym) := by
  obtain ⟨b, hb, hmem⟩ := (Option.any_eq_true _ _).1 hsym
  obtain ⟨t, ht⟩ := head?_eq_some_iff.1 hb
  exact failsAt_op ht (h b (by simpa using hmem))

theorem failsAt_productOp (h : NoneOf ['*', '/', 'D', 'M', 'A'] x) :
    FailsAt x productOp :=
  (h.op (by decide)).seqRight.orElse <| (h.op (by decide)).seqRight.orElse <| (h.keyword (by decide)).bind.seqRight.orElse <|
    (h.keyword (by decide)).bind.seqRight.orElse (h.keyword (by decide)).bind.seqRight

theorem failsAt_sign (h : NoneOf ['-', '+'] x) : FailsAt x sign :=
  (h.op (by decide)).seqRight.orElse (h.op (by decide)).seqRight

theorem failsAt_sumOp (h : NoneOf ['+', '-', 'O'] x) : FailsAt x sumOp :=
  (h.op (by decide)).seqRight.orElse <| (h.op (by decide)).seqRight.orElse (h.keyword (by decide)).bind.seqRight

theorem failsAt_relationOp (h : NoneOf ['<', '>', '='] x) :
    FailsAt x relationOp :=
  (h.op (by decide)).seqRight.orElse <| (h.op (by decide)).seqRight.orElse <| (h.op (by decide)).seqRight.orElse <|
    (h.op (by decide)).seqRight.orElse <| (h.op (by decide)).seqRight.orElse (h.op (by decide)).seqRight

theorem failsAt_suffix {q : Parser Expr} (h : NoneOf ['[', '.', '('] x) :
    FailsAt x (suffix q) :=
  (failsAt_punct (h.ne (by decide))).bind.orElse <|
  (FailsAt.char (h.ne (by decide))).bind.orElse
    (failsAt_punct (h.ne (by decide))).bind

/-! ## Where expressions fail -/

/-- An operand that is a truth value or a name, before its span is known. -/
abbrev wordAtom : Parser (Span → Expr) :=
  (do let value ← boolean; return fun span => .boolean span value) <|>
  (do let name ← name; return fun span => .identifier span name)

/-- An operand that is a single token. -/
def atom : Parser (Span → Expr) :=
  (do let text ← number; return fun span => .number span text) <|>
  (do let content ← stringLiteral; return fun span => .string span content) <|>
  (do let text ← systemName; return fun span => .system span text) <|>
  (do let (program, name) ← programVariable
      return fun span => .programVariable span program name) <|> wordAtom

/-- An operand. -/
def leaf (q : Parser Expr) : Parser (Span → Expr) := parenthesized q <|> atom

theorem operand_eq (q : Parser Expr) :
    operand q = lexeme (leaf q) >>= fun x => pure (x.1 x.2) := rfl

section
variable {q : Parser Expr} {x : Option Char}

theorem failsAt_coded (h : FailsAt x p) : FailsAt x (coded p) := by
  intro c hc
  obtain ⟨f, hf⟩ := h c hc
  exact ⟨f, by rw [coded, hf]⟩

theorem failsAt_lexeme (h : FailsAt x p) : FailsAt x (lexeme p) :=
  (failsAt_coded h).bind

theorem failsAt_parenthesized (h : x ≠ some '(') : FailsAt x (parenthesized q) := by
  refine (failsAt_op (b := '(') rfl fun heq => ?_).bind
  cases x with
  | none => cases heq
  | some y =>
    rw [Option.map_some, Option.some_inj] at heq
    exact h (by rw [eq_of_lowerCase_eq_mark (by decide) heq])

theorem failsAt_number (hdigit : x.any Char.isDigit = false)
    (hpoint : x ≠ some '.') : FailsAt x number := by
  refine FailsAt.named (FailsAt.recognized (FailsAt.bind (.orElse ?_ ?_)))
  · exact (FailsAt.takeWhile1 hdigit).bind
  · exact (FailsAt.char hpoint).bind

theorem failsAt_stringLiteral (h : x ≠ some '\'') : FailsAt x stringLiteral :=
  (FailsAt.char h).bind

theorem failsAt_systemName (h : x ≠ some '$') : FailsAt x systemName :=
  (FailsAt.char h).seqRight.recognized

theorem failsAt_programVariable (h : x ≠ some '[') : FailsAt x programVariable :=
  (FailsAt.char h).bind

theorem failsAt_boolean (h : NoneOf ['T', 'F', 'O'] x) : FailsAt x boolean :=
  (h.keyword (by decide)).seqRight.orElse <|
  (h.keyword (by decide)).seqRight.orElse <|
  (h.keyword (by decide)).seqRight.orElse
    (h.keyword (by decide)).seqRight

theorem failsAt_name (h : x.any isNameStart = false) : FailsAt x name := by
  intro c hc
  obtain ⟨f, hf⟩ := FailsAt.identifier h c hc
  exact ⟨f, by rw [name, hf]⟩

/-- No expression begins with the character. -/
def Shut (x : Option Char) : Prop :=
  NoneOf ['(', '.', '\'', '$', '[', 'T', 'F', 'O', 'N', '-', '+'] x ∧
    x.any Char.isDigit = false ∧ x.any isNameStart = false

instance (x : Option Char) : Decidable (Shut x) := inferInstanceAs (Decidable (_ ∧ _ ∧ _))

theorem failsAt_reference (h : Shut x) : FailsAt x (reference q) := by
  obtain ⟨hnone, hdigit, hname⟩ := h
  have hleaf : FailsAt x (leaf q) :=
    (failsAt_parenthesized (hnone.ne (by decide))).orElse <|
    (failsAt_number hdigit (hnone.ne (by decide))).bind.orElse <|
    (failsAt_stringLiteral (hnone.ne (by decide))).bind.orElse <|
    (failsAt_systemName (hnone.ne (by decide))).bind.orElse <|
    (failsAt_programVariable (hnone.ne (by decide))).bind.orElse <|
    (failsAt_boolean fun b hb => hnone b (by revert hb; simp; tauto)).bind.orElse
      (failsAt_name hname).bind
  exact (failsAt_lexeme hleaf).bind.bind

/-- Nothing begins with such a character, nor with an operator before it. -/
theorem failsAt_relation (h : Shut x) : FailsAt x (relation q) := by
  have hnegation : FailsAt x (negation q) :=
    FailsAt.many_bind (.position_bind fun _ => (failsAt_kw rfl (h.1 'N' (by simp))).bind)
      (failsAt_reference h).bind
  have hsign : FailsAt x sign := failsAt_sign fun b hb => h.1 b (by revert hb; simp; tauto)
  exact FailsAt.bind (FailsAt.bind (.position_bind fun _ => hsign.maybe_bind hnegation.bind))

end

/-! ## Nothing goes on from a stuck cursor -/

/-- A word character stands here that no name can hold. -/
def Stuck (c : Cursor) : Prop :=
  ∃ x, c.rest.head? = some x ∧ isWord x ∧ isNameChar x = false

theorem Stuck.noneOf (hbs : (bs.all fun b => b.toNat < 128 && b.toLower != 'k') = true)
    (h : Stuck c) : NoneOf bs c.rest.head? := by
  obtain ⟨x, hx, hword, hname⟩ := h
  intro b hb heq
  have hb := all_eq_true.1 hbs b hb
  simp only [Bool.and_eq_true, decide_eq_true_eq, bne_iff_ne] at hb
  rw [hx, Option.map_some, Option.some_inj] at heq
  refine lowerCase_ne_of_ge ?_ hb.1 hb.2 heq
  by_contra hlt
  rw [isWord_eq_isNameChar (Nat.lt_of_not_le hlt), hname] at hword
  cases hword

/-- What a character follows has not come to a stuck cursor. -/
theorem Stuck.resolve_char {P : Prop} (h : Stuck c ∨ P) (hy : (y.toNat < 128 && y.toLower != 'k') = true)
    (hdone : char y c = .done a r) : P := by
  refine h.resolve_left fun h => ?_
  have hnone : NoneOf [y] c.rest.head? := h.noneOf (by simpa using hy)
  exact (FailsAt.char (hnone.ne (by simp))).ne_done rfl hdone

theorem Stuck.blanks (h : Stuck c) : blanks c = .done () c := by
  obtain ⟨x, hx, hword, hname⟩ := h
  obtain ⟨t, ht⟩ := head?_eq_some_iff.1 hx
  have hspacing : isSpacing x = false := by
    refine Bool.eq_false_iff.2 fun hspacing => ?_
    rw [not_isWord_of_isSpacing hspacing] at hword
    cases hword
  have hdash : x ≠ '-' := by
    rintro rfl
    exact absurd hword (by decide)
  rw [Grammar.blanks, ht, blankLength]
  simp [hspacing, hdash]

/-! ## Leaves -/

theorem named_eq_done {what : String} {a : α} : named what p c = .done a r ↔ p c = .done a r := by
  rw [named]
  cases p c <;> simp

theorem digits_eq_done {ds : List Char} (h : digits c = .done ds r) : Digits ds ∧ Passes ds c r := by
  obtain ⟨hne, rfl, rfl⟩ := takeWhile1_eq_done.1 h
  exact ⟨⟨hne, fun x hx => all_eq_true.1 all_takeWhile x hx⟩, .takeWhile _⟩

theorem charThat_eq_done {what : String} {q : Char → Bool} {x : Char}
    (h : charThat what q c = .done x r) : q x ∧ Passes [x] c r := by
  rw [charThat] at h
  split at h
  · rename_i y t hrest
    split at h
    · cases h
      have hdrop := Passes.drop (c := c) 1
      rw [hrest, take_one, head?_cons, Option.toList_some] at hdrop
      exact ⟨by assumption, hdrop⟩
    · cases h
  · cases h

/-- A number is spelled as numbers are. -/
theorem number_eq_done (h : number c = .done s r) : Numeral s.toList ∧ Passes s.toList c r := by
  obtain ⟨x, hx, rfl⟩ := recognized_eq_done.1 (named_eq_done.1 h)
  rw [String.toList_ofList]
  obtain ⟨_, c₁, hmantissa, hexponent⟩ := bind_eq_done.1 hx
  obtain ⟨m, hm, hpasses⟩ : ∃ m, Mantissa m ∧ Passes m c c₁ := by
    rcases orElse_eq_done hmantissa with hwhole | hfraction
    · obtain ⟨d, c₂, hd, o, c₃, hpoint, hpure⟩ := bind₂_eq_done.1 hwhole
      cases hpure
      obtain ⟨hdigits, hdPasses⟩ := digits_eq_done hd
      rcases maybe_eq_done hpoint with ⟨f, -, hpoint⟩ | ⟨-, rfl⟩
      · obtain ⟨_, c₄, hchar, htake⟩ := seqRight_eq_done.1 hpoint
        cases htake
        refine ⟨_, .mixed hdigits fun x hx => ?_,
          hdPasses.trans ((passes_char hchar).trans (.takeWhile _))⟩
        exact all_eq_true.1 all_takeWhile x hx
      · exact ⟨d, .whole hdigits, hdPasses⟩
    · obtain ⟨_, c₂, hchar, f, c₃, hf, hpure⟩ := bind₂_eq_done.1 hfraction
      cases hpure
      obtain ⟨hdigits, hfPasses⟩ := digits_eq_done hf
      exact ⟨_, .fraction hdigits, (passes_char hchar).trans hfPasses⟩
  obtain ⟨x, hx, hpasses'⟩ : ∃ x, Exponent x ∧ Passes x c₁ r := by
    rcases maybe_eq_done hexponent with ⟨d, -, hexponent⟩ | ⟨-, rfl⟩
    · obtain ⟨y, c₂, hy, o, c₃, hsign, hdigits⟩ := bind₂_eq_done.1 hexponent
      obtain ⟨hletter, hyPasses⟩ := charThat_eq_done hy
      obtain ⟨hd, hdPasses⟩ := digits_eq_done hdigits
      simp only [Bool.or_eq_true, beq_iff_eq] at hletter
      rcases maybe_eq_done hsign with ⟨s, -, hs⟩ | ⟨-, rfl⟩
      · obtain ⟨hs, hsPasses⟩ := charThat_eq_done hs
        simp only [Bool.or_eq_true, beq_iff_eq] at hs
        exact ⟨_, .signed hletter hs hd, hyPasses.trans (hsPasses.trans hdPasses)⟩
      · exact ⟨_, .unsigned hletter hd, hyPasses.trans hdPasses⟩
    · exact ⟨[], .none, .refl _⟩
  have hall := hpasses.trans hpasses'
  rw [hall.upTo_eq]
  exact ⟨⟨m, x, rfl, hm, hx⟩, hall⟩

/-- A name is spelled as names are, and goes as far as it can. -/
theorem named_of_identifier (h : identifier c = .done s r) :
    Named s.toList ∧ Passes s.toList c r ∧ r.rest.head?.any isNameChar = false := by
  obtain ⟨hstart, rfl, rfl⟩ := identifier_eq_done.1 h
  rw [String.toList_ofList]
  refine ⟨⟨?_, fun x hx => all_eq_true.1 all_takeWhile x hx⟩, .takeWhile _, ?_⟩
  · obtain ⟨x, t, hrest, hx⟩ := exists_cons_of_any hstart
    rwa [hrest, takeWhile_cons_of_pos (isNameChar_of_isNameStart hx)]
  · rw [Cursor.rest_drop, drop_length_takeWhile]
    exact head?_dropWhile_any isNameChar c.rest

theorem systemName_eq_done (h : systemName c = .done s r) :
    ∃ u, s.toList = '$' :: u ∧ Named u ∧ Passes s.toList c r := by
  obtain ⟨n, hn, rfl⟩ := recognized_eq_done.1 h
  obtain ⟨_, c₁, hchar, hident⟩ := seqRight_eq_done.1 hn
  obtain ⟨hnamed, hpasses, -⟩ := named_of_identifier hident
  have hall := (passes_char hchar).trans hpasses
  rw [String.toList_ofList, hall.upTo_eq]
  exact ⟨_, rfl, hnamed, hall⟩

theorem name_eq_done (h : name c = .done s r) :
    identifier c = .done s r ∧ isReserved s = false := by
  rw [name] at h
  cases hident : identifier c <;> simp only [hident, reduceCtorEq] at h
  split at h
  · cases h
  · rename_i hreserved
    cases h
    exact ⟨rfl, Bool.eq_false_iff.2 hreserved⟩

/-- Where no truth value is read, none of its words is. -/
theorem keyword_failed_of_boolean {e : Failure} {w : String} (h : boolean c = .failed e)
    (hw : w ∈ truthWords) : ∃ e, keyword w c = .failed e := by
  obtain ⟨⟨e₁, h₁⟩, _, h⟩ := orElse_eq_failed h
  obtain ⟨⟨e₂, h₂⟩, _, h⟩ := orElse_eq_failed h
  obtain ⟨⟨e₃, h₃⟩, e₄, h₄⟩ := orElse_eq_failed h
  simp only [truthWords, mem_cons, not_mem_nil, or_false] at hw
  rcases hw with rfl | rfl | rfl | rfl
  · exact ⟨e₁, map_eq_failed.1 h₁⟩
  · exact ⟨e₂, map_eq_failed.1 h₂⟩
  · exact ⟨e₃, map_eq_failed.1 h₃⟩
  · exact ⟨e₄, map_eq_failed.1 h₄⟩

/-- Where no truth value is read, a name is none, or nothing goes on behind it. -/
theorem stuck_of_truthWord {w : String} {e : Failure} (hw : w ∈ truthWords)
    (hsame : sameIgnoringCase s w) (h : identifier c = .done s r)
    (hfailed : keyword w c = .failed e) : Stuck r := by
  obtain ⟨hnamed, hpasses, hend⟩ := named_of_identifier h
  have hascii : Ascii w.toList := by
    have hall : (truthWords.all fun w => w.toList.all fun b => b.toNat < 128) = true := by
      decide
    intro b hb
    simpa using all_eq_true.1 (all_eq_true.1 hall w hw) b hb
  have hruns := runsOn_of_keyword_failed hascii (fun x hx => lt_of_isNameChar (hnamed.chars x hx))
    hpasses.rest hsame hfailed
  cases hhead : r.rest.head? with
  | none => simp [hhead] at hruns
  | some x =>
    rw [hhead] at hruns hend
    exact ⟨x, hhead, by simpa using hruns, by simpa using hend⟩

/-! ## Operands -/

/-- The expression has been read in good form and at most this rank, unless nothing goes on behind
it. -/
def Shaped (k : Nat) (e : Expr) (r : Cursor) : Prop := Stuck r ∨ e.Formed ∧ e.rank ≤ k

/-- Wherever the parser reads, it reads such expressions. -/
abbrev Shapes (p : Parser Expr) (k : Nat) : Prop := Yields (fun _ => True) p (Shaped k)

theorem Shaped.mono (h : Shaped j e r) (hle : j ≤ k) : Shaped k e r :=
  h.imp_right fun hformed => ⟨hformed.1, hformed.2.trans hle⟩

/-- What goes on has been read in good form. -/
theorem Shaped.of_done {a : α} (h : Shaped k e r)
    (hbs : (bs.all fun b => b.toNat < 128 && b.toLower != 'k') = true)
    (hp : ∀ x, NoneOf bs x → FailsAt x p) (hdone : p r = .done a r') : e.Formed ∧ e.rank ≤ k := by
  rcases h with h | h
  · exact absurd hdone ((hp _ (h.noneOf hbs)).ne_done rfl)
  · exact h

theorem shaped_blanks : Yields (Shaped k e) blanks fun _ => Shaped k e := by
  rintro c a r (hstuck | hformed) hdone
  · rw [hstuck.blanks] at hdone
    cases hdone
    exact .inl hstuck
  · exact .inr hformed

theorem coded_eq_done {x : α × Span} (h : coded p c = .done x r) :
    ∃ a, p c = .done a r ∧ x = (a, ⟨c.position, endOfCode c.position (c.upTo r)⟩) := by
  rw [coded] at h
  cases hp : p c <;> rw [hp] at h <;> cases h
  exact ⟨_, rfl, rfl⟩

theorem lexeme_eq_done {x : α × Span} (h : lexeme p c = .done x r) :
    ∃ c', p c = .done x.1 c' ∧ blanks c' = .done () r := by
  obtain ⟨y, c', hcoded, _, _, hblanks, hpure⟩ := bind₂_eq_done.1 h
  cases hpure
  obtain ⟨a, hp, rfl⟩ := coded_eq_done hcoded
  exact ⟨c', hp, hblanks⟩

section
variable {q : Parser Expr}

/-- What is built of the leaves. -/
def Builds (p : Parser (Span → Expr)) : Prop :=
  ∀ c build r, p c = .done build r → ∀ span, Shaped 0 (build span) r

theorem Builds.orElse {p p' : Parser (Span → Expr)} (h : Builds p) (h' : Builds p') :
    Builds (p <|> p') := by
  intro c build r hdone
  rcases orElse_eq_done hdone with hdone | hdone
  · exact h c build r hdone
  · exact h' c build r hdone

theorem builds_parenthesized (hq : Shapes q 5) : Builds (parenthesized q) := by
  intro c build r hdone span
  obtain ⟨_, c₁, -, inner, c₂, hinner, _, c₃, hclose, hdone⟩ := bind₃_eq_done.1 hdone
  cases hdone
  have hformed := Stuck.resolve_char (hq c₁ inner c₂ trivial hinner) (by decide) hclose
  exact .inr ⟨.paren hformed.1, le_refl 0⟩

theorem builds_number : Builds (do let text ← number; return fun span => .number span text) := by
  intro c build r hdone span
  obtain ⟨text, c₁, htext, hdone⟩ := bind_eq_done.1 hdone
  cases hdone
  exact .inr ⟨.number (number_eq_done htext).1, le_refl 0⟩

theorem builds_string :
    Builds (do let content ← stringLiteral; return fun span => .string span content) := by
  intro c build r hdone span
  obtain ⟨s, c₁, hs, hdone⟩ := bind_eq_done.1 hdone
  cases hdone
  obtain ⟨_, c₂, -, content, c₃, hcontent, _, c₄, -, hs⟩ := bind₃_eq_done.1 hs
  cases hs
  cases hcontent
  refine .inr ⟨.string fun x hx => ?_, le_refl 0⟩
  rw [String.toList_ofList] at hx
  have hx := all_eq_true.1 all_takeWhile x hx
  simpa using hx

theorem builds_system : Builds (do let text ← systemName; return fun span => .system span text) := by
  intro c build r hdone span
  obtain ⟨text, c₁, htext, hdone⟩ := bind_eq_done.1 hdone
  cases hdone
  obtain ⟨u, hu, hnamed, -⟩ := systemName_eq_done htext
  exact .inr ⟨.system hu hnamed, le_refl 0⟩

theorem builds_programVariable :
    Builds (do let (program, name) ← programVariable
               return fun span => .programVariable span program name) := by
  intro c build r hdone span
  obtain ⟨x, c₁, hx, hdone⟩ := bind_eq_done.1 hdone
  cases hdone
  obtain ⟨_, c₂, -, program, c₃, hprogram, _, c₄, -, name, c₅, hname, hx⟩ := bind₄_eq_done.1 hx
  cases hx
  exact .inr ⟨.programVariable (named_of_identifier hprogram).1 (named_of_identifier hname).1,
    le_refl 0⟩

/-- A name is read only where no truth value is. -/
theorem builds_word : Builds wordAtom := by
  intro c build r hdone span
  rcases orElse_cases hdone with hdone | ⟨⟨e, hfailed⟩, hdone⟩
  · obtain ⟨value, c₁, -, hdone⟩ := bind_eq_done.1 hdone
    cases hdone
    exact .inr ⟨.boolean, le_refl 0⟩
  · obtain ⟨s, c₁, hs, hdone⟩ := bind_eq_done.1 hdone
    cases hdone
    obtain ⟨hident, hreserved⟩ := name_eq_done hs
    by_cases htruth : ∃ w ∈ truthWords, sameIgnoringCase s w
    · obtain ⟨w, hw, hsame⟩ := htruth
      obtain ⟨e', he'⟩ := keyword_failed_of_boolean (map_eq_failed.1 hfailed) hw
      exact .inl (stuck_of_truthWord hw hsame hident he')
    · refine .inr ⟨.identifier (named_of_identifier hident).1 hreserved fun w hw => ?_, le_refl 0⟩
      exact Bool.eq_false_iff.2 fun hsame => htruth ⟨w, hw, hsame⟩

theorem shaped_operand (hq : Shapes q 5) : Shapes (operand q) 0 := by
  intro c e r _ hdone
  obtain ⟨⟨build, span⟩, c₁, hlexeme, hdone⟩ := bind_eq_done.1 hdone
  cases hdone
  obtain ⟨c₂, hbuild, hblanks⟩ := lexeme_eq_done hlexeme
  have hbuilds : Builds _ :=
    (builds_parenthesized hq).orElse <| builds_number.orElse <| builds_string.orElse <|
    builds_system.orElse <| builds_programVariable.orElse builds_word
  exact shaped_blanks c₂ _ r (hbuilds c build c₂ hbuild _) hblanks

/-! ## Suffixes -/

/-- Several expressions have been read in good form, unless nothing goes on behind the last. -/
def ShapedAll (es : List Expr) (r : Cursor) : Prop := Stuck r ∨ ∀ e ∈ es, e.Formed

theorem shapedAll_comma : Yields (ShapedAll es) (punct ',') fun _ _ => ∀ e ∈ es, e.Formed := by
  intro c a r hc hdone
  obtain ⟨_, _, hcomma, -⟩ := bind_eq_done.1 hdone
  exact Stuck.resolve_char hc (by decide) hcomma

theorem shapedAll_item (hq : Shapes q 5) :
    Yields (fun _ => ∀ e ∈ es, e.Formed) q fun e => ShapedAll (es ++ [e]) := by
  intro c e r hes hdone
  refine (hq c e r trivial hdone).imp_right fun he e' he' => ?_
  rcases mem_append.1 he' with he' | he'
  · exact hes e' he'
  · exact mem_singleton.1 he' ▸ he.1

/-- A suffix makes a formed expression of a formed operand. -/
theorem suffix_eq_done {build : Span → Expr → Expr} (hq : Shapes q 5)
    (h : suffix q c = .done build r) {span : Span} {base : Expr} (hbase : base.Formed)
    (hrank : base.rank = 0) : (build span base).Formed ∧ (build span base).rank = 0 := by
  rcases orElse_eq_done h with h | h
  · obtain ⟨_, c₁, -, indices, c₂, hindices, _, c₃, hclose, h⟩ := bind₃_eq_done.1 h
    cases h
    have hall : ShapedAll indices c₂ := by
      refine Yields.sepBy1 (A := fun _ => True) (I := ShapedAll) (fun _ => shapedAll_comma)
        (fun _ => shapedAll_item hq) (fun _ _ => by simp) c₁ indices c₂ trivial hindices
    have hne : indices ≠ [] := by
      obtain ⟨i, c₄, -, is, c₅, -, hindices⟩ := bind₂_eq_done.1 hindices
      cases hindices
      simp
    exact ⟨.index hbase hrank hne (Stuck.resolve_char hall (by decide) hclose), rfl⟩
  rcases orElse_eq_done h with h | h
  · obtain ⟨_, c₁, -, field, c₂, hfield, h⟩ := bind₂_eq_done.1 h
    cases h
    refine ⟨.field hbase hrank ?_, rfl⟩
    rcases orElse_eq_done hfield with hfield | hfield
    · obtain ⟨hident, hreserved⟩ := name_eq_done hfield
      exact .inl ⟨(named_of_identifier hident).1, hreserved⟩
    · obtain ⟨u, hu, hnamed, -⟩ := systemName_eq_done hfield
      exact .inr ⟨u, hu, hnamed⟩
  · obtain ⟨_, c₁, -, arguments, c₂, harguments, _, c₃, hclose, h⟩ := bind₃_eq_done.1 h
    cases h
    have hall : ShapedAll arguments c₂ := by
      refine Yields.sepBy (I := ShapedAll) (fun _ => shapedAll_comma) (fun _ => shapedAll_item hq)
        (fun _ _ => by simp) c₁ arguments c₂ (.inr (by simp)) harguments
    exact ⟨.call hbase hrank (Stuck.resolve_char hall (by decide) hclose), rfl⟩

theorem shaped_reference (hq : Shapes q 5) : Shapes (reference q) 0 := by
  refine (shaped_operand hq).bind fun base => ?_
  have hmany := Yields.many (p := do let s ← spanned (suffix q); blanks; return s)
    (I := fun suffixes => Shaped 0 (suffixes.foldl (fun e x => x.1 (e.span.cover x.2) e) base))
    (fun suffixes => ?_) []
  · exact hmany.bind fun suffixes => .pure fun _ hc => hc
  · intro c x r hc hdone
    obtain ⟨x, c₁, hspanned, _, c₂, hblanks, hdone⟩ := bind₂_eq_done.1 hdone
    cases hdone
    obtain ⟨build, hsuffix, rfl⟩ := spanned_eq_done.1 hspanned
    have hbase := hc.of_done (by decide) (fun _ => failsAt_suffix) hsuffix
    rw [foldl_append, foldl_cons, foldl_nil]
    obtain ⟨hformed, hrank⟩ := suffix_eq_done hq hsuffix hbase.1 (Nat.le_zero.1 hbase.2)
    exact .inr ⟨hformed, Nat.le_of_eq hrank⟩

/-! ## Operators -/

theorem shaped_negation (hq : Shapes q 5) : Shapes (negation q) 1 := by
  refine Yields.bind (B := fun _ _ => True) (fun _ _ _ _ _ => trivial) fun starts => ?_
  refine (shaped_reference hq).bind fun inner => .pure fun c hc => ?_
  induction starts with
  | nil => exact hc.mono (Nat.zero_le 1)
  | cons start starts ih =>
    rw [foldr_cons]
    exact ih.imp_right fun hinner => ⟨.not hinner.1 hinner.2, le_refl 1⟩

/-- The operator is one of the rank. -/
def Ranked (k : Nat) (p : Parser BinaryOp) : Prop :=
  Yields (fun _ => True) p fun o _ => opRank o = k

theorem ranked_seqRight {p : Parser Unit} {o : BinaryOp} (h : opRank o = k) :
    Ranked k (p *> pure o) :=
  Yields.seqRight (fun _ _ _ _ _ => trivial) (.pure fun _ _ => h)

theorem ranked_productOp : Ranked 2 productOp :=
  (ranked_seqRight rfl).orElse <| (ranked_seqRight rfl).orElse <| (ranked_seqRight rfl).orElse <|
  (ranked_seqRight rfl).orElse (ranked_seqRight rfl)

theorem ranked_sumOp : Ranked 4 sumOp :=
  (ranked_seqRight rfl).orElse <| (ranked_seqRight rfl).orElse (ranked_seqRight rfl)

theorem ranked_relationOp : Ranked 5 relationOp :=
  (ranked_seqRight rfl).orElse <| (ranked_seqRight rfl).orElse <| (ranked_seqRight rfl).orElse <|
  (ranked_seqRight rfl).orElse <| (ranked_seqRight rfl).orElse (ranked_seqRight rfl)

/-- An operator joins operands that it may have. -/
theorem shaped_join {left right : Expr} {o : BinaryOp} (ho : opRank o = k)
    (hleft : left.Formed ∧ left.rank ≤ min k 4) (hjk : j < k) (hright : Shaped j right r) :
    Shaped k (left.join o right) r := by
  subst ho
  refine hright.imp_right fun hright => ⟨.binary hleft.1 hright.1 hleft.2 ?_, le_refl _⟩
  exact Nat.lt_of_le_of_lt hright.2 hjk

theorem shaped_chainLeft {p : Parser Expr} {o : Parser BinaryOp}
    (hp : Yields (fun _ => True) p (Shaped j)) (hjk : j < k) (hk : k ≤ 4) (ho : Ranked k o)
    (hbs : (bs.all fun b => b.toNat < 128 && b.toLower != 'k') = true)
    (hfails : ∀ x, NoneOf bs x → FailsAt x o) :
    Yields (fun _ => True) (chainLeft p o Expr.join) (Shaped k) := by
  refine Yields.chainLeft (J := fun left op _ => (left.Formed ∧ left.rank ≤ k) ∧ opRank op = k)
    (hp.imp (fun _ hc => hc) fun _ _ h => h.mono hjk.le) (fun left => ?_) fun left op => ?_
  · intro c op r hc hdone
    exact ⟨hc.of_done hbs hfails hdone, ho c op r trivial hdone⟩
  · rintro c right r ⟨hleft, hop⟩ hdone
    rw [← min_eq_left hk] at hleft
    exact shaped_join hop hleft hjk (hp c right r trivial hdone)

theorem shaped_signed (hq : Shapes q 5) : Shapes (signed q) 3 := by
  have hproduct : Shapes (product q) 2 :=
    shaped_chainLeft (shaped_negation hq) (by decide) (by decide) ranked_productOp (by decide)
      fun _ => failsAt_productOp
  have hsign : Yields (fun _ => True) (maybe sign) fun o _ => o ≠ some .not := by
    refine Yields.maybe (.orElse ?_ ?_) fun _ _ => by simp
    · exact Yields.seqRight (fun _ _ _ _ _ => trivial) (.pure fun _ _ => by simp)
    · exact Yields.seqRight (fun _ _ _ _ _ => trivial) (.pure fun _ _ => by simp)
  refine Yields.bind (B := fun _ _ => True) (fun _ _ _ _ _ => trivial) fun start => ?_
  refine hsign.bind fun o => ?_
  cases o with
  | none => exact hproduct.imp (fun _ _ => trivial) fun _ _ h => h.mono (by decide)
  | some op =>
    intro c e r hop hdone
    refine (hproduct.bind fun inner => .pure fun c hc => ?_) c e r trivial hdone
    refine hc.imp_right fun hinner => ⟨.sign (fun heq => hop (by rw [heq])) hinner.1 hinner.2, ?_⟩
    cases op <;> simp [Expr.rank]

theorem shaped_relation (hq : Shapes q 5) : Shapes (relation q) 5 := by
  have hsum : Shapes (sum q) 4 :=
    shaped_chainLeft (shaped_signed hq) (by decide) (by decide) ranked_sumOp (by decide)
      fun _ => failsAt_sumOp
  refine hsum.bind fun left c e r hleft hdone => ?_
  obtain ⟨o, c₁, hmaybe, hend⟩ := bind_eq_done.1 hdone
  rcases maybe_eq_done hmaybe with ⟨op, rfl, hop⟩ | ⟨rfl, rfl⟩
  · obtain ⟨right, c₂, hright, hpure⟩ := bind_eq_done.1 hend
    cases hpure
    have hformed := hleft.of_done (by decide) (fun _ => failsAt_relationOp) hop
    exact shaped_join (ranked_relationOp c op c₁ trivial hop) hformed (by decide)
      (hsum c₁ right r trivial hright)
  · cases hend
    exact hleft.mono (by decide)

end

/-- **Expressions are read in good form.** -/
theorem shaped_expression : Shapes expression 5 :=
  Yields.nested (ι := Unit) (A := fun _ _ => True) (B := fun _ => Shaped 5)
    (fun _ hq _ => shaped_relation (hq ())) ()

/-- An expression that makes up a text is in good form. -/
theorem formed_of_parse {text : String} (h : Expr.parse text = .ok e) : e.Formed := by
  obtain ⟨r, hdone⟩ := run_eq_ok.1 h
  obtain ⟨e', c₁, hexpr, c₂, _, hcursor, hend⟩ := bind₂_eq_done.1 hdone
  cases hcursor
  split at hend
  · rename_i hatEnd
    cases hend
    rcases shaped_expression _ e _ trivial hexpr with ⟨x, hx, -⟩ | hformed
    · rw [isEmpty_iff.1 hatEnd] at hx
      cases hx
    · exact hformed.1
  · cases hend

end RobotSource.Karel.Grammar
