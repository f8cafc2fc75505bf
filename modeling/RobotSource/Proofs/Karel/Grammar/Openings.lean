import RobotSource.Proofs.Karel.Grammar.Rereading
import RobotSource.Proofs.Karel.Grammar.Returns
import RobotSource.Proofs.Parsing.Carry
import RobotSource.Proofs.Parsing.Retreat
/-!
# How Karel statements begin

Every statement begins with a word of its own or as an operand does (`LedBy`). Two places with the
same text are read alike (`lexis_sameRest`), and no Karel parser aborts (`Retreats`), so that what
is known of a statement at one place can be used at another.
-/

namespace RobotSource.Karel.Grammar

open Parsing Parsing.Parser Text
open List hiding takeWhile

variable {α β : Type} {c d r : Cursor} {t u : List Char}
variable {w sym a : String} {x : Char} {q : Char → Bool} {ws : List String}
variable {p : Parser α}

/-! ## Nothing is given up for good -/

instance : Retreats blanks := ⟨nofun⟩

instance : Retreats (kw w) := by unfold kw; infer_instance
instance : Retreats (op sym) := by unfold op; infer_instance
instance : Retreats (punct x) := by unfold punct; infer_instance

instance : Retreats name :=
  .of_failed (p := identifier) (fun h => by rw [name, h]; simp only; split <;> nofun)
    (fun h => by rw [name, h]; nofun)

section
variable {p : Parser α} [Retreats p]

instance : Retreats (coded p) :=
  .of_failed (p := p) (fun h => by rw [coded, h]; nofun) (fun h => by rw [coded, h]; nofun)

instance : Retreats (lexeme p) := by unfold lexeme; infer_instance

end

instance : Retreats ident := by unfold ident; infer_instance
instance : Retreats systemName := by unfold systemName; infer_instance
instance : Retreats fieldName := by unfold fieldName; infer_instance
instance : Retreats boolean := by unfold boolean; infer_instance

section
variable {e : Parser Expr} [Retreats e]

instance : Retreats (operand e) := by
  unfold operand parenthesized number stringLiteral programVariable
  infer_instance

instance : Retreats (suffix e) := by unfold suffix; infer_instance
instance : Retreats (reference e) := by unfold reference; infer_instance

instance : Retreats (product e) := by unfold product negation productOp; infer_instance
instance : Retreats (sum e) := by unfold sum signed sign sumOp; infer_instance

end

instance : Retreats expression := .nested fun e _ => by
  unfold relation relationOp
  infer_instance

instance : Retreats arguments := by unfold arguments argument; infer_instance
instance : Retreats waitForStatement := by unfold waitForStatement; infer_instance
instance : Retreats transferStatement := by unfold transferStatement; infer_instance
instance : Retreats assignment := by unfold assignment; infer_instance

section
variable {σ : Parser Statement} [Retreats σ]

instance : Retreats (ifStatement σ) := by unfold ifStatement; infer_instance
instance : Retreats (forStatement σ) := by unfold forStatement; infer_instance
instance : Retreats (whileStatement σ) := by unfold whileStatement; infer_instance
instance : Retreats (repeatStatement σ) := by unfold repeatStatement; infer_instance
instance : Retreats (selectStatement σ) := by unfold selectStatement selectCase; infer_instance

end

instance : Retreats statement := .nested fun σ _ => by
  unfold statementOf returnStatement gotoStatement delayStatement labelStatement callStatement
  infer_instance

/-! ## Words -/

/-- The letters, digits and underscores that a text begins with. -/
def leadingWord (t : List Char) : String := String.ofList (t.takeWhile isNameChar)

/-- A word of letters, none of them a K, as the keywords are here. -/
abbrev Plain (w : String) : Prop := isPlainWord w.toList = true ∧ w.toList ≠ []

theorem Plain.isApart (hw : Plain w) : Parsing.isApart isBreak w.toList = true := by
  have hplain := hw.1
  simp only [isPlainWord, all_eq_true, Bool.and_eq_true, decide_eq_true_eq] at hplain
  simp only [Parsing.isApart, Bool.and_eq_true, Bool.not_eq_true', isEmpty_eq_false_iff,
    all_eq_true, decide_eq_true_eq]
  refine ⟨hw.2, fun b hb => ⟨(hplain b hb).1.1, Bool.eq_false_iff.2 fun hbreak => ?_⟩⟩
  have halpha := (hplain b hb).1.2
  simp only [isBreak, Bool.or_eq_true, beq_iff_eq] at hbreak
  rcases hbreak with heq | heq <;>
    rcases eq_or_eq_of_toLower_eq (by decide) heq with rfl | rfl <;> cases halpha

/-- A reserved word that is none of these. -/
abbrev OtherThan (ws : List String) (w : String) : Prop :=
  Plain w ∧ isReserved w = true ∧ ∀ v ∈ ws, sameIgnoringCase w v = false

theorem sameIgnoringCase_trans {b : String} (h : sameIgnoringCase w a)
    (h' : sameIgnoringCase w b) : sameIgnoringCase a b :=
  beq_iff_eq.2 ((eq_of_beq h).symm.trans (eq_of_beq h'))

theorem identifier_eq_word {s : String} (h : identifier c = .done s r) :
    s = leadingWord c.rest ∧ c.rest.head?.any isNameStart ∧
      r.rest = c.rest.dropWhile isNameChar := by
  obtain ⟨hstart, rfl, rfl⟩ := identifier_eq_done.1 h
  exact ⟨rfl, hstart, drop_length_takeWhile _ _⟩

/-- A keyword is the word that the text begins with. -/
theorem keyword_eq_word (hw : Plain w) (h : keyword w c = .done a r) :
    sameIgnoringCase (leadingWord c.rest) w ∧
      r.rest = (c.rest.dropWhile isNameChar).dropWhile isSpaceOrTab := by
  obtain ⟨s, c₁, hident, hsame, hspaces⟩ := identifier_of_keyword hw h
  obtain ⟨rfl, -, hc₁⟩ := identifier_eq_word hident
  cases hspaces
  exact ⟨hsame, hc₁ ▸ drop_length_takeWhile _ _⟩

theorem kw_eq_word (h : kw w c = .done () r) (hw : Plain w) :
    sameIgnoringCase (leadingWord c.rest) w ∧
      r.rest = skip (c.rest.dropWhile isNameChar) := by
  obtain ⟨a, c₁, hkeyword, hblanks⟩ := bind_eq_done.1 h
  obtain ⟨hsame, hrest⟩ := keyword_eq_word hw hkeyword
  cases hblanks
  refine ⟨hsame, ?_⟩
  rw [← skip_dropWhile, ← hrest]
  rfl

theorem name_eq_word {s : String} (h : name c = .done s r) :
    s = leadingWord c.rest ∧ c.rest.head?.any isNameStart ∧
      r.rest = c.rest.dropWhile isNameChar ∧ isReserved (leadingWord c.rest) = false := by
  obtain ⟨hident, hreserved⟩ := name_eq_done h
  obtain ⟨hs, hstart, hrest⟩ := identifier_eq_word hident
  exact ⟨hs, hstart, hrest, hs ▸ hreserved⟩

theorem start_of_same (h : sameIgnoringCase (leadingWord t) w)
    (hw : Plain w) : t.head?.any isNameStart := by
  obtain ⟨b, s, hword⟩ := exists_cons_of_ne_nil hw.2
  have hplain := hw.1
  rw [hword, isPlainWord, all_cons] at hplain
  simp only [Bool.and_eq_true, decide_eq_true_eq] at hplain
  have hsame := eq_of_beq h
  rw [leadingWord, String.toList_ofList, hword] at hsame
  cases t with
  | nil => simp at hsame
  | cons x t =>
    rw [takeWhile_cons] at hsame
    split at hsame
    · rename_i hx
      rw [map_cons, map_cons, List.cons.injEq] at hsame
      have halpha := isAlpha_of_toLower_eq (lt_of_isNameChar hx) hplain.1.1.1 hplain.1.1.2 hsame.1
      simp [isNameStart, halpha]
    · simp at hsame

/-- What does not begin as a word does not begin with a reserved one. -/
theorem start_of_isReserved (h : isReserved (leadingWord t)) :
    t.head?.any isNameStart := by
  obtain ⟨w, hw, hsame⟩ := any_eq_true.1 h
  have hall : ∀ w ∈ reservedWords, Plain w := by decide
  exact start_of_same hsame (hall w hw)

theorem isReserved_of_same {b : String} (h : sameIgnoringCase a b) :
    isReserved a = isReserved b := by
  have hsame : sameIgnoringCase a = sameIgnoringCase b := by
    funext w
    rw [sameIgnoringCase, sameIgnoringCase, sameCharsIgnoringCase, sameCharsIgnoringCase,
      eq_of_beq h]
  rw [isReserved, isReserved, hsame]

theorem all_of_any {x : Option Char} (h : x.any q) : x.all q := by
  cases x with
  | none => rfl
  | some x => exact h

theorem all_isOpening_of_start (h : t.head?.any isNameStart) :
    t.head?.all isOpening := by
  obtain ⟨x, s, rfl, hx⟩ := exists_cons_of_any h
  simp [isOpening, hx]

/-- No white space stands where an operand may begin. -/
theorem skip_of_isOpening (h : t.head?.all isOpening) : skip t = t := by
  cases t with
  | nil => rfl
  | cons x t =>
    have hx := not_isSpacing_of_isOpening (x := x) (by simpa using h)
    exact skip_cons hx.1 fun heq => absurd heq hx.2

/-! ## The same text at another place -/

/-- The same text stands at both cursors. -/
def SameRest (c d : Cursor) : Prop := c.rest = d.rest

theorem SameRest.drop (h : SameRest c d) (k : Nat) : SameRest (c.drop k) (d.drop k) :=
  congrArg (List.drop k) h

theorem SameRest.moves (h : SameRest c d) : Moves LineOver SameRest c d := by
  refine ⟨c.rest, ⟨⟨[], by rw [append_nil], .inl rfl⟩, ⟨[], ?_, .inl rfl⟩⟩, ?_⟩
  · rw [append_nil]
    exact h.symm
  · rintro _ _ ⟨k, -, rfl, rfl⟩
    exact h.drop k

theorem keeps_blanks_sameRest :
    Keeps SameRest SameRest (fun _ _ => True) blanks blanks := by
  intro c d hcd
  rw [blanks, blanks, show c.rest = d.rest from hcd]
  exact .done trivial (hcd.drop _)

theorem keeps_spaces_sameRest :
    Keeps SameRest SameRest (fun _ _ => True) spaces spaces := by
  intro c d hcd
  rw [spaces, bind_apply, bind_apply, takeWhile, takeWhile, show c.rest = d.rest from hcd]
  exact .done trivial (hcd.drop _)

theorem keeps_token_sameRest {V : α → α → Prop} (hp : Local LineOver p)
    (hV : ∀ a, V a a) : Agrees SameRest SameRest p V :=
  (Keeps.of_local (fun _ _ h => h.moves) hp).imp (fun _ _ h => h) fun a _ hab => hab ▸ hV a

theorem keeps_keyword_sameRest {V : String → String → Prop} (hV : ∀ a, V a a) :
    Agrees SameRest SameRest (keyword w) V :=
  .keyword (fun _ _ h => matches_of_rest_eq h fun k => h.drop k) keeps_spaces_sameRest hV

theorem keeps_symbol_sameRest :
    Agrees SameRest SameRest (symbol sym) fun _ _ => True :=
  .symbol (fun _ _ h => matches_of_rest_eq h fun k => h.drop k) keeps_spaces_sameRest

theorem typeOfWord_unplaced (w : String) (s s' : Span) :
    (typeOfWord w s).view .unplaced = (typeOfWord w s').view .unplaced := by
  rw [typeOfWord, typeOfWord]
  repeat' split
  all_goals rfl

/-- **The same text is read alike everywhere**, places aside. -/
theorem lexis_sameRest : Lexis SameRest SameRest .unplaced .unplaced where
  loose_of_tight _ _ h := h
  position _ _ _ _ := rfl
  column _ _ _ _ := rfl
  code _ _ _ _ _ _ _ := rfl
  atEnd c d h := by rw [Cursor.atEnd, Cursor.atEnd, show c.rest = d.rest from h]
  blanks := keeps_blanks_sameRest
  char x hx := (keeps_token_sameRest (margin_lineOver.char (mem_append_right _ hx))
    fun _ => trivial).imp (fun _ _ h => ⟨h, rfl⟩) fun _ _ h => h
  symbol _ _ := keeps_symbol_sameRest
  keyword _ _ := keeps_keyword_sameRest fun _ => trivial
  identifier := keeps_token_sameRest (.identifier margin_lineOver.toDelimits) fun _ => rfl
  name := keeps_token_sameRest (local_name margin_lineOver.toDelimits) fun _ => rfl
  number := keeps_token_sameRest (local_number margin_lineOver) fun _ => rfl
  string := keeps_token_sameRest (local_stringLiteral encloses_lineOver (by decide))
    fun _ => rfl
  system := keeps_token_sameRest (local_systemName margin_lineOver) fun _ => rfl
  programVariable := keeps_token_sameRest (local_programVariable margin_lineOver)
    fun _ => ⟨rfl, rfl⟩
  fieldName := (keeps_token_sameRest (local_fieldName margin_lineOver) fun _ => rfl).imp
    (fun _ _ h => ⟨h, rfl⟩) fun _ _ h => h
  labelMark := (keeps_token_sameRest (local_name margin_lineOver.toDelimits)
    fun _ => rfl).bind fun _ _ hab => keeps_spaces_sameRest.pass <|
    keeps_symbol_sameRest.pass <| .pure hab
  groupMark := (keeps_keyword_sameRest (V := fun _ _ => True)
    fun _ => trivial).pass <| (keeps_token_sameRest (V := fun _ _ => True)
    (margin_lineOver.char (by decide)) fun _ => trivial).pass <| .pure trivial
  verb := (keeps_keyword_sameRest fun _ => ⟨rfl, rfl⟩).orElse
    (keeps_keyword_sameRest fun _ => ⟨rfl, rfl⟩)
  matching a b a' b' h h' := by
    obtain rfl : a = b := h
    obtain rfl : a' = b' := h'
    rfl
  type a b s s' h _ := by
    obtain rfl : a = b := h
    exact typeOfWord_unplaced a s s'

/-- What is read at one place is read at the other. -/
theorem exists_done_of_sameRest {q : Parser β} {V : α → β → Prop} {a : α}
    (h : Keeps SameRest SameRest V p q) (hcd : c.rest = d.rest)
    (hdone : p c = .done a r) : ∃ b r', q d = .done b r' ∧ r'.rest = r.rest := by
  obtain ⟨b, r', hq, -, hr⟩ := Keeps.exists_right h hcd hdone
  exact ⟨b, r', hq, hr.symm⟩

/-! ## Operators -/

theorem noneOf_of_all {bs : List Char} {x : Option Char}
    (hbs : (bs.all fun b => isMark b && !q b) = true) (hx : x.all q) : NoneOf bs x := by
  intro b hb heq
  have hb := all_eq_true.1 hbs b hb
  simp only [Bool.and_eq_true, Bool.not_eq_true'] at hb
  cases x with
  | none => cases heq
  | some y =>
    rw [Option.map_some, Option.some_inj] at heq
    rw [Option.all_some, eq_of_lowerCase_eq_mark hb.1 heq, hb.2] at hx
    cases hx

/-- An operator stands where it is read. -/
theorem op_eq_done (h : op sym c = .done () r) (hmarks : sym.toList.all isMark) :
    ∃ t, c.rest = sym.toList ++ t ∧ r.rest = skip t := by
  obtain ⟨a, c₁, hsymbol, hblanks⟩ := bind_eq_done.1 h
  obtain ⟨t, ht, -, hrest⟩ := symbol_marks_eq_done hmarks hsymbol
  cases hblanks
  refine ⟨t, ht, ?_⟩
  rw [← skip_dropWhile, ← hrest]
  rfl

theorem punct_eq_done (h : punct x c = .done () r) : ∃ t, c.rest = x :: t ∧ r.rest = skip t := by
  obtain ⟨a, c₁, hchar, hblanks⟩ := bind_eq_done.1 h
  obtain ⟨-, rfl, t, ht⟩ := char_eq_done.1 hchar
  cases hblanks
  refine ⟨t, ht, ?_⟩
  rw [Cursor.rest_drop, Cursor.rest_drop, ht]
  rfl

theorem head?_of_char {y : Char} (h : char x c = .done y r) : c.rest.head? = some x := by
  rw [(passes_char h).rest]
  rfl

theorem head?_of_punct {y : Unit} (h : punct x c = .done y r) : c.rest.head? = some x := by
  obtain ⟨t, ht, -⟩ := punct_eq_done h
  rw [ht]
  rfl

theorem head?_of_op {y : Unit} (h : op sym c = .done y r)
    (hsym : sym.toList.all isMark ∧ sym.toList.head? = some x) :
    c.rest.head? = some x := by
  obtain ⟨t, ht, -⟩ := op_eq_done h hsym.1
  rw [ht, head?_append, hsym.2]
  rfl

theorem head?_of_bind {β : Type} {f : α → Parser β} {b : β}
    (hp : ∀ a r, p c = .done a r → c.rest.head? = some x) (h : (p >>= f) c = .done b r) :
    c.rest.head? = some x := by
  obtain ⟨a, r', hdone, -⟩ := bind_eq_done.1 h
  exact hp a r' hdone

/-! ## Operands -/

/-- The text begins as an operand does. -/
inductive StartsOperand : List Char → Prop
  | paren {t : List Char} : StartsOperand ('(' :: t)
  | digit {x : Char} {t : List Char} (hx : x.isDigit = true) : StartsOperand (x :: t)
  | point {x : Char} {t : List Char} (hx : x.isDigit = true) : StartsOperand ('.' :: x :: t)
  | quote {t : List Char} : StartsOperand ('\'' :: t)
  | dollar {t : List Char} : StartsOperand ('$' :: t)
  | bracket {u : List Char} {x : Char} {t : List Char} (hu : Named u) (hx : isNameStart x = true) :
      StartsOperand ('[' :: (u ++ ']' :: x :: t))
  | word {x : Char} {t : List Char} (hx : isNameStart x = true)
      (hword : isReserved (leadingWord (x :: t)) = false) : StartsOperand (x :: t)

theorem StartsOperand.of_word (hstart : t.head?.any isNameStart)
    (hword : isReserved (leadingWord t) = false) : StartsOperand t := by
  cases t with
  | nil => cases hstart
  | cons x t => exact .word (by simpa using hstart) hword

theorem StartsOperand.isOpening (h : StartsOperand t) : t.head?.any isOpening := by
  cases h with
  | paren => rfl
  | digit hx => simp [Karel.isOpening, hx]
  | point hx => rfl
  | quote => rfl
  | dollar => rfl
  | bracket hu hx => rfl
  | word hx hword => simp [Karel.isOpening, hx]

theorem StartsOperand.ne_nil (h : StartsOperand t) : t ≠ [] := by
  rintro rfl
  cases h

/-- No operand begins with a reserved word. -/
theorem StartsOperand.not_isReserved (h : StartsOperand t) :
    isReserved (leadingWord t) = false := by
  have hnot (hstart : t.head?.any isNameStart = false) : isReserved (leadingWord t) = false := by
    refine Bool.eq_false_iff.2 fun hreserved => ?_
    rw [start_of_isReserved hreserved] at hstart
    cases hstart
  cases h with
  | paren => exact hnot rfl
  | @digit x t hx =>
    refine hnot (Bool.eq_false_iff.2 fun hstart => ?_)
    rw [not_isDigit_of_isNameStart (by simpa using hstart)] at hx
    cases hx
  | point hx => exact hnot rfl
  | quote => exact hnot rfl
  | dollar => exact hnot rfl
  | bracket hu hx => exact hnot rfl
  | word hx hword => exact hword

theorem startsOperand_of_numeral (h : Numeral u) : StartsOperand (u ++ t) := by
  obtain ⟨m, y, rfl, hm, -⟩ := h
  cases hm with
  | whole hd =>
    obtain ⟨x, s, rfl⟩ := exists_cons_of_ne_nil hd.1
    exact .digit (hd.2 x mem_cons_self)
  | mixed hd _ =>
    obtain ⟨x, s, rfl⟩ := exists_cons_of_ne_nil hd.1
    exact .digit (hd.2 x mem_cons_self)
  | fraction hd =>
    obtain ⟨x, s, rfl⟩ := exists_cons_of_ne_nil hd.1
    exact .point (hd.2 x mem_cons_self)

theorem startsOperand_of_programVariable {x : String × String} (h : programVariable c = .done x r) :
    StartsOperand c.rest := by
  obtain ⟨_, c₁, hopen, program, c₂, hprogram, _, c₃, hclose, variableName, c₄, hname, h⟩ :=
    bind₄_eq_done.1 h
  obtain ⟨hnamed, hpasses, -⟩ := named_of_identifier hprogram
  obtain ⟨hnamed', hpasses', -⟩ := named_of_identifier hname
  obtain ⟨y, s, hcons, hy⟩ := hnamed'.exists_cons
  rw [(passes_char hopen).rest, hpasses.rest, (passes_char hclose).rest, hpasses'.rest, hcons]
  exact .bracket hnamed hy

/-- A truth value is one of the words. -/
theorem boolean_eq_word {b : Bool} (h : boolean c = .done b r) :
    ∃ w ∈ truthWords, sameIgnoringCase (leadingWord c.rest) w ∧
      r.rest = (c.rest.dropWhile isNameChar).dropWhile isSpaceOrTab := by
  have hkeyword {w : String} {v b : Bool} (hw : Plain w) (hmem : w ∈ truthWords)
      (h : (keyword w *> pure v : Parser Bool) c = .done b r) :
      ∃ w ∈ truthWords, sameIgnoringCase (leadingWord c.rest) w ∧
        r.rest = (c.rest.dropWhile isNameChar).dropWhile isSpaceOrTab := by
    obtain ⟨a, c₁, hword, hpure⟩ := seqRight_eq_done.1 h
    cases hpure
    exact ⟨w, hmem, keyword_eq_word hw hword⟩
  rcases orElse_eq_done h with h | h
  · exact hkeyword (by decide) (by simp [truthWords]) h
  rcases orElse_eq_done h with h | h
  · exact hkeyword (by decide) (by simp [truthWords]) h
  rcases orElse_eq_done h with h | h
  · exact hkeyword (by decide) (by simp [truthWords]) h
  · exact hkeyword (by decide) (by simp [truthWords]) h

theorem startsOperand_of_boolean {b : Bool} (h : boolean c = .done b r) : StartsOperand c.rest := by
  obtain ⟨w, hw, hsame, -⟩ := boolean_eq_word h
  have hall : ∀ w ∈ truthWords, Plain w ∧ isReserved w = false := by decide
  obtain ⟨hplain, hreserved⟩ := hall w hw
  exact .of_word (start_of_same hsame hplain) ((isReserved_of_same hsame).trans hreserved)

theorem startsOperand_of_operand {q : Parser Expr} {e : Expr} (h : operand q c = .done e r) :
    StartsOperand c.rest := by
  rw [operand_eq] at h
  obtain ⟨x, c₁, hlexeme, -⟩ := bind_eq_done.1 h
  obtain ⟨c₂, hleaf, -⟩ := lexeme_eq_done hlexeme
  rcases orElse_eq_done hleaf with h | h
  · obtain ⟨_, c₃, hopen, -⟩ := bind_eq_done.1 h
    obtain ⟨t, ht, -⟩ := op_eq_done hopen (by decide)
    rw [ht]
    exact .paren
  rcases orElse_eq_done h with h | h
  · obtain ⟨s, c₃, hnumber, -⟩ := bind_eq_done.1 h
    obtain ⟨hnumeral, hpasses⟩ := number_eq_done hnumber
    rw [hpasses.rest]
    exact startsOperand_of_numeral hnumeral
  rcases orElse_eq_done h with h | h
  · obtain ⟨s, c₃, hstring, -⟩ := bind_eq_done.1 h
    obtain ⟨_, c₄, hquote, -⟩ := bind_eq_done.1 hstring
    rw [(passes_char hquote).rest]
    exact .quote
  rcases orElse_eq_done h with h | h
  · obtain ⟨s, c₃, hsystem, -⟩ := bind_eq_done.1 h
    obtain ⟨u, hu, -, hpasses⟩ := systemName_eq_done hsystem
    rw [hpasses.rest, hu]
    exact .dollar
  rcases orElse_eq_done h with h | h
  · obtain ⟨s, c₃, hvariable, -⟩ := bind_eq_done.1 h
    exact startsOperand_of_programVariable hvariable
  rcases orElse_eq_done h with h | h
  · obtain ⟨b, c₃, hboolean, -⟩ := bind_eq_done.1 h
    exact startsOperand_of_boolean hboolean
  · obtain ⟨s, c₃, hname, -⟩ := bind_eq_done.1 h
    obtain ⟨-, hstart, -, hreserved⟩ := name_eq_word hname
    exact .of_word hstart hreserved

/-! ## Statements -/

/-- Whatever the parser reads begins with one of the words, or as an operand. -/
def LedBy (ws : List String) (p : Parser α) : Prop :=
  ∀ c a r, p c = .done a r →
    (∃ w ∈ ws, sameIgnoringCase (leadingWord c.rest) w = true) ∨ StartsOperand c.rest

theorem LedBy.orElse {ws' : List String} {p q : Parser α} (h : LedBy ws p) (h' : LedBy ws' q) :
    LedBy (ws ++ ws') (p <|> q) := by
  intro c a r hdone
  rcases orElse_eq_done hdone with hp | hq
  · refine (h c a r hp).imp_left ?_
    rintro ⟨w, hw, hsame⟩
    exact ⟨w, mem_append_left _ hw, hsame⟩
  · refine (h' c a r hq).imp_left ?_
    rintro ⟨w, hw, hsame⟩
    exact ⟨w, mem_append_right _ hw, hsame⟩

/-- It does not begin with another reserved word. -/
theorem LedBy.ne_done {a : α} (h : LedBy ws p) (hw : OtherThan ws w)
    (hsame : sameIgnoringCase (leadingWord c.rest) w) : p c ≠ .done a r := by
  intro hdone
  rcases h c a r hdone with ⟨v, hv, hsame'⟩ | hstart
  · have hnot := hw.2.2 v hv
    rw [sameIgnoringCase_trans hsame hsame'] at hnot
    cases hnot
  · have hnot := hstart.not_isReserved
    rw [isReserved_of_same hsame, hw.2.1] at hnot
    cases hnot

theorem LedBy.ne_nil {a : α} (h : LedBy ws p) (hws : ∀ w ∈ ws, Plain w)
    (hdone : p c = .done a r) : c.rest ≠ [] := by
  intro hnil
  rcases h c a r hdone with ⟨w, hw, hsame⟩ | hstart
  · have hhead := start_of_same hsame (hws w hw)
    simp [hnil] at hhead
  · exact hstart.ne_nil hnil

theorem ledBy_kw {f : Unit → Parser α} [h : Lettered w] :
    LedBy [w] (kw w >>= f) := by
  intro c a r hdone
  obtain ⟨_, c₁, hkw, -⟩ := bind_eq_done.1 hdone
  exact .inl ⟨w, by simp, (kw_eq_word hkw h.fact).1⟩

/-- The statements other than conditions and counted loops. -/
def laterKinds (σ : Parser Statement) : Parser (Span → Statement) :=
  whileStatement σ <|> repeatStatement σ <|> selectStatement σ <|> returnStatement <|>
  gotoStatement <|> delayStatement <|> waitForStatement <|>
  (kw "ABORT" *> pure .abort) <|> (kw "PAUSE" *> pure .pause) <|>
  transferStatement <|> labelStatement <|> assignment <|> callStatement

/-- A choice of statements, in front of inner ones. -/
def kinds (σ : Parser Statement) : Parser (Span → Statement) :=
  ifStatement σ <|> forStatement σ <|> laterKinds σ

theorem statementOf_eq (σ : Parser Statement) :
    statementOf σ = coded (kinds σ) >>= fun x => pure (x.1 x.2) := rfl

theorem ledBy_label : LedBy [] labelStatement := by
  intro c a r hdone
  obtain ⟨s, c₁, hname, -⟩ := bind_eq_done.1 hdone
  obtain ⟨-, hstart, -, hreserved⟩ := name_eq_word hname
  exact .inr (.of_word hstart hreserved)

theorem ledBy_assignment : LedBy [] assignment := by
  intro c a r hdone
  obtain ⟨e, c₁, hreference, -⟩ := bind_eq_done.1 hdone
  obtain ⟨base, c₂, hoperand, -⟩ := bind_eq_done.1 hreference
  exact .inr (startsOperand_of_operand hoperand)

theorem ledBy_call : LedBy [] callStatement := by
  intro c a r hdone
  obtain ⟨x, c₁, hlexeme, -⟩ := bind_eq_done.1 hdone
  obtain ⟨c₂, hname, -⟩ := lexeme_eq_done hlexeme
  obtain ⟨-, hstart, -, hreserved⟩ := name_eq_word hname
  exact .inr (.of_word hstart hreserved)

theorem transfer_word {a : Span → Statement} (h : transferStatement c = .done a r) :
    ∃ w ∈ ["WRITE", "READ"], sameIgnoringCase (leadingWord c.rest) w := by
  obtain ⟨start, c₁, hstart, h⟩ := bind_eq_done.1 h
  cases hstart
  obtain ⟨verb, c₂, hverb, -⟩ := bind_eq_done.1 h
  rcases orElse_eq_done hverb with hverb | hverb
  · exact ⟨"WRITE", by simp, (keyword_eq_word (by decide) hverb).1⟩
  · exact ⟨"READ", by simp, (keyword_eq_word (by decide) hverb).1⟩

theorem ledBy_transfer : LedBy ["WRITE", "READ"] transferStatement :=
  fun _ _ _ hdone => .inl (transfer_word hdone)

theorem go_word {x : Unit} (h : (kw "GOTO" <|> (kw "GO" *> kw "TO")) c = .done x r) :
    ∃ w ∈ ["GOTO", "GO"], sameIgnoringCase (leadingWord c.rest) w := by
  rcases orElse_eq_done h with hgo | hgo
  · exact ⟨"GOTO", by simp, (kw_eq_word hgo (by decide)).1⟩
  · obtain ⟨_, c₂, hgo, -⟩ := seqRight_eq_done.1 hgo
    exact ⟨"GO", by simp, (kw_eq_word hgo (by decide)).1⟩

theorem ledBy_goto : LedBy ["GOTO", "GO"] gotoStatement := by
  intro c a r hdone
  obtain ⟨_, c₁, hgo, -⟩ := bind_eq_done.1 hdone
  exact .inl (go_word hgo)

/-- The words with which the other statements begin, names aside. -/
def laterOpeners : List String :=
  ["WHILE", "REPEAT", "SELECT", "RETURN", "GOTO", "GO", "DELAY", "WAIT", "ABORT", "PAUSE", "WRITE",
    "READ"]

theorem ledBy_laterKinds (σ : Parser Statement) : LedBy laterOpeners (laterKinds σ) :=
  ledBy_kw.orElse <| ledBy_kw.orElse <| ledBy_kw.orElse <|
  ledBy_kw.orElse <| ledBy_goto.orElse <| ledBy_kw.orElse <|
  ledBy_kw.orElse <| ledBy_kw.orElse <| ledBy_kw.orElse <|
  ledBy_transfer.orElse <| ledBy_label.orElse <| ledBy_assignment.orElse ledBy_call

/-- The words with which statements begin, names aside. -/
def openers : List String := "IF" :: "FOR" :: laterOpeners

theorem ledBy_kinds (σ : Parser Statement) : LedBy openers (kinds σ) :=
  ledBy_kw.orElse (ledBy_kw.orElse (ledBy_laterKinds σ))

theorem statementOf_eq_done {σ : Parser Statement} {a : Statement} :
    statementOf σ c = .done a r ↔ ∃ build, kinds σ c = .done build r ∧
      a = build ⟨c.position, endOfCode c.position (c.upTo r)⟩ := by
  rw [statementOf_eq, bind_eq_done]
  constructor
  · rintro ⟨x, c₁, hcoded, hpure⟩
    obtain ⟨build, hkinds, rfl⟩ := coded_eq_done hcoded
    cases hpure
    exact ⟨build, hkinds, rfl⟩
  · rintro ⟨build, hkinds, rfl⟩
    exact ⟨(build, _), r, by rw [coded, hkinds], rfl⟩

/-- A statement begins with a word of its own or as an operand. -/
theorem ledBy_statement : LedBy openers statement := by
  intro c a r hdone
  rw [statement_eq] at hdone
  obtain ⟨build, hkinds, -⟩ := statementOf_eq_done.1 hdone
  exact ledBy_kinds _ c build r hkinds

end RobotSource.Karel.Grammar
