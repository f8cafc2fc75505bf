import RobotSource.Proofs.Karel.Grammar.Rereading
/-!
# Printing and reading

What has been read is in good form (`formed_of_parse`), and every expression in good form is read back
from its printed text, as long as no field is selected from a number: the point of the selection would
be taken for that of a fraction. The forms of expressions are taken one by one, each from the rule at
which it enters, and put together by induction on the form (`reread_of_formed`).
-/

namespace RobotSource.Karel.Grammar

open Parsing Parsing.Parser Text List

variable {α : Type} {c d r : Cursor} {u t : List Char} {e : Expr} {n k : Nat}
variable {q : Parser Expr} {span : Span} {x : Char} {is : List Expr} {base right : Expr}
    {o : BinaryOp}

/-! ## Operands -/

/-- A leaf that is read makes up an operand, and the suffixes come next. -/
theorem resumes_of_leaf {build : Span → Expr} (h : leaf expression c = .done build r)
    (hr : skip r.rest = skip t) (hbuild : ∀ span, (build span).unplaced = e.unplaced) :
    Resumes (reference expression) suffixes e t c := by
  obtain ⟨r', hblanks, hr'⟩ := reaches_blanks r
  refine ⟨build ⟨c.position, endOfCode c.position (c.upTo r)⟩, r', hbuild _, hr'.trans hr, ?_⟩
  have hcoded : coded (leaf expression) c =
      .done (build, ⟨c.position, endOfCode c.position (c.upTo r)⟩) r := by
    rw [coded, h]
  have hlexeme : lexeme (leaf expression) c = .done (build, _) r' :=
    bind_of_done hcoded <| bind_of_done hblanks rfl
  rw [reference_eq, operand_eq, bind_apply, bind_apply, hlexeme]
  rfl

theorem rereads_number {text : String} (h : Numeral text.toList) :
    RereadsOperand (.number span text) := by
  intro c t hc ht
  rw [Expr.printed] at hc
  obtain ⟨r, hread, hr⟩ := number_of_numeral hc h (ht.1.endsNumber (ht.2 rfl))
  have hhead : c.rest.head? ≠ some '(' := by
    obtain ⟨x, s, hxs, hx⟩ := h.exists_cons
    rw [hc, hxs]
    rintro ⟨⟩
    rcases hx with hx | hx <;> cases hx
  exact resumes_of_leaf (((failsAt_parenthesized hhead).orElse_right_iff rfl).2
    (orElse_of_done (bind_of_done hread rfl))) (by rw [hr]) fun _ => rfl

theorem rereads_string {content : String} (h : ∀ x ∈ content.toList, x ≠ '\'' ∧ x ≠ '\n') :
    RereadsOperand (.string span content) := by
  intro c t hc ht
  rw [Expr.printed, append_assoc, cons_append, singleton_append] at hc
  have hhead : c.rest.head? = some '\'' := by rw [hc]; rfl
  obtain ⟨c₁, hopen, hrest⟩ := reaches_char hc
  have hinner := passes_of_takeWhile (q := fun c => !(c == '\'' || c == '\n')) hrest
    (fun x hx => by simpa using h x hx) (by rfl)
  obtain ⟨r, hclose, hr⟩ := reaches_char (rest_drop_length hrest)
  refine resumes_of_leaf
    (((failsAt_parenthesized (by decide)).orElse_right_iff hhead).2 <|
      ((failsAt_number (by decide) (by decide)).bind.orElse_right_iff hhead).2 <|
      orElse_of_done (bind_of_done (bind_of_done hopen <| bind_of_done hinner <|
        bind_of_done hclose rfl) rfl))
    (by rw [hr]) fun _ => ?_
  rw [String.ofList_toList]
  rfl

/-- Where a letter stands, the operand is a truth value or a name. -/
theorem leaf_of_isNameStart {build : Span → Expr} (hhead : c.rest.head?.any isNameStart)
    (h : wordAtom c = .done build r) : leaf q c = .done build r := by
  have hne {y : Char} (hy : isNameStart y = false) : c.rest.head? ≠ some y := by
    intro heq
    rw [heq, Option.any_some, hy] at hhead
    cases hhead
  have hdigit : c.rest.head?.any Char.isDigit = false := by
    cases hx : c.rest.head? with
    | none => rfl
    | some x =>
      rw [hx, Option.any_some] at hhead
      rw [Option.any_some]
      exact not_isDigit_of_isNameStart hhead
  exact ((failsAt_parenthesized (hne (by decide))).orElse_right_iff rfl).2 <|
    ((failsAt_number hdigit (hne (by decide))).bind.orElse_right_iff rfl).2 <|
    ((failsAt_stringLiteral (hne (by decide))).bind.orElse_right_iff rfl).2 <|
    ((failsAt_systemName (hne (by decide))).bind.orElse_right_iff rfl).2 <|
    ((failsAt_programVariable (hne (by decide))).bind.orElse_right_iff rfl).2 h

theorem rereads_boolean {value : Bool} :
    RereadsOperand (.boolean span value) := by
  intro c t hc ht
  cases value with
  | true =>
    have hword : ∃ a r, keyword "TRUE" c = .done a r ∧ r.rest = t.dropWhile isSpaceOrTab :=
      keyword_of_same (u := "TRUE".toList) (by decide) (by decide) hc (by decide) ht.1.not_isWord
    obtain ⟨a, r, hread, hr⟩ := hword
    refine resumes_of_leaf (leaf_of_isNameStart (by rw [hc]; rfl) (orElse_of_done
      (bind_of_done (orElse_of_done (seqRight_eq_done.2 ⟨_, r, hread, rfl⟩)) rfl)))
      (by rw [hr, skip_dropWhile]) fun _ => rfl
  | false =>
    have hhead : c.rest.head? = some 'F' := by rw [hc]; rfl
    have hword : ∃ a r, keyword "FALSE" c = .done a r ∧ r.rest = t.dropWhile isSpaceOrTab :=
      keyword_of_same (u := "FALSE".toList) (by decide) (by decide) hc (by decide) ht.1.not_isWord
    obtain ⟨a, r, hread, hr⟩ := hword
    have htrue : FailsAt (some 'F') (keyword "TRUE") := .keyword_apart (by decide)
    refine resumes_of_leaf (leaf_of_isNameStart (by rw [hc]; rfl) (orElse_of_done
      (bind_of_done ((htrue.seqRight.orElse_right_iff hhead).2
        (orElse_of_done (seqRight_eq_done.2 ⟨_, r, hread, rfl⟩))) rfl)))
      (by rw [hr, skip_dropWhile]) fun _ => rfl

theorem rereads_identifier {name : String} (h : Named name.toList)
    (hreserved : isReserved name = false)
    (htruth : ∀ w ∈ truthWords, sameIgnoringCase name w = false) :
    RereadsOperand (.identifier span name) := by
  intro c t hc ht
  rw [Expr.printed] at hc
  have hread := name_of_named hc h hreserved ht.1.not_isNameChar
  have hword {word : String} {value : Bool} (hapart : isApart isMark word.toList)
      (hlast : word.toList.getLast?.any isWord) (hmem : word ∈ truthWords) :
      ∃ f, (keyword word *> pure value : Parser Bool) c = .failed f := by
    obtain ⟨f, hf⟩ := keyword_failed_of_name hapart hlast h.chars hc ht.1.all_isMark (htruth _ hmem)
    exact ⟨f, map_eq_failed.2 hf⟩
  have hboolean : ∃ f, boolean c = .failed f :=
    orElse_failed (hword (by decide) (by decide) (by simp [truthWords])) <|
    orElse_failed (hword (by decide) (by decide) (by simp [truthWords])) <|
    orElse_failed (hword (by decide) (by decide) (by simp [truthWords]))
      (hword (by decide) (by decide) (by simp [truthWords]))
  have hstart : c.rest.head?.any isNameStart := by
    obtain ⟨x, s, hxs, hx⟩ := h.exists_cons
    rw [hc, hxs]
    exact hx
  obtain ⟨f, hf⟩ := hboolean
  refine resumes_of_leaf (leaf_of_isNameStart hstart
    (orElse_of_failed (map_eq_failed.2 hf) (bind_of_done hread rfl)))
    (by rw [rest_drop_length hc]) fun _ => rfl

theorem rereads_system {text : String} (htext : text.toList = '$' :: u) (h : Named u) :
    RereadsOperand (.system span text) := by
  intro c t hc ht
  rw [Expr.printed] at hc
  have hhead : c.rest.head? = some '$' := by rw [hc, htext]; rfl
  obtain ⟨r, hread, hr⟩ := systemName_of_named htext hc h ht.1.not_isNameChar
  exact resumes_of_leaf
    (((failsAt_parenthesized (by decide)).orElse_right_iff hhead).2 <|
      ((failsAt_number (by decide) (by decide)).bind.orElse_right_iff hhead).2 <|
      ((failsAt_stringLiteral (by decide)).bind.orElse_right_iff hhead).2 <|
      orElse_of_done (bind_of_done hread rfl))
    (by rw [hr]) fun _ => rfl

theorem rereads_programVariable {program name : String} (hprogram : Named program.toList)
    (hname : Named name.toList) :
    RereadsOperand (.programVariable span program name) := by
  intro c t hc ht
  rw [Expr.printed, append_assoc, cons_append] at hc
  have hhead : c.rest.head? = some '[' := by rw [hc]; rfl
  obtain ⟨c₁, hopen, hrest⟩ := reaches_char hc
  have hfirst := identifier_of_named hrest hprogram (by rfl)
  obtain ⟨c₂, hclose, hrest'⟩ := reaches_char (rest_drop_length hrest)
  have hsecond := identifier_of_named hrest' hname ht.1.not_isNameChar
  refine resumes_of_leaf
    (((failsAt_parenthesized (by decide)).orElse_right_iff hhead).2 <|
      ((failsAt_number (by decide) (by decide)).bind.orElse_right_iff hhead).2 <|
      ((failsAt_stringLiteral (by decide)).bind.orElse_right_iff hhead).2 <|
      ((failsAt_systemName (by decide)).bind.orElse_right_iff hhead).2 <|
      orElse_of_done (bind_of_done (bind_of_done hopen <| bind_of_done hfirst <|
        bind_of_done hclose <| bind_of_done hsecond rfl) rfl))
    (by rw [rest_drop_length hrest']) fun _ => ?_
  simp only [String.ofList_toList]
  rfl

/-! ## Inner expressions -/

theorem rereads_paren {inner : Expr} (hopens : OpensSigned inner.printed)
    (h : RereadsRelation inner) :
    RereadsOperand (.paren span inner) := by
  intro c t hc ht
  rw [Expr.printed, append_assoc, cons_append, singleton_append] at hc
  have hbracket : Reaches (op "(") c () (skip (inner.printed ++ ')' :: t)) :=
    reaches_op hc
  obtain ⟨c₁, hopen, hrest⟩ := hbracket
  rw [skip_of_opensSigned hopens.append] at hrest
  obtain ⟨e', c₂, he', hrest', hinner⟩ := h c₁ _ hrest (.close (by simp))
  rw [skip_close (by simp)] at hrest'
  obtain ⟨r, hclose, hr⟩ := reaches_char hrest'
  refine resumes_of_leaf (orElse_of_done (bind_of_done hopen <| bind_of_done hinner <|
    bind_of_done hclose rfl)) (by rw [hr]) fun _ => ?_
  simp only [Expr.unplaced, he']

theorem printedList_cons (i : Expr) (is : List Expr) :
    Expr.printedList (i :: is) = i.printed ++ is.flatMap fun j => ',' :: j.printed := by
  induction is generalizing i with
  | nil => simp [Expr.printedList]
  | cons j is ih => rw [Expr.printedList, ih, flatMap_cons, cons_append]; simp

/-- An item of a list is read back, wherever it stands. -/
def Item (i : Expr) : Prop := OpensSigned i.printed ∧ RereadsRelation i

theorem ends_items (hx : x = ')' ∨ x = ']') (is : List Expr) :
    Ends 5 ((is.flatMap fun j => ',' :: j.printed) ++ x :: t) := by
  cases is with
  | nil => exact .close (by tauto)
  | cons j is => exact .close (by simp)

theorem skip_items (hx : x = ')' ∨ x = ']') (is : List Expr) :
    skip ((is.flatMap fun j => ',' :: j.printed) ++ x :: t) =
      (is.flatMap fun j => ',' :: j.printed) ++ x :: t := by
  cases is with
  | nil => exact skip_close (by tauto)
  | cons j is => exact skip_close (by simp)

/-- The further items are read up to the bracket. -/
theorem exists_sepTail (his : ∀ i ∈ is, Item i)
    (hx : x = ')' ∨ x = ']') (hc : c.rest = (is.flatMap fun j => ',' :: j.printed) ++ x :: t) :
    ∃ is' r, sepTail (punct ',') expression c = .done is' r ∧
      Expr.unplacedAll is' = Expr.unplacedAll is ∧ r.rest = x :: t := by
  induction is generalizing c with
  | nil =>
    have hcomma : FailsAt (some x) (punct ',') :=
      (FailsAt.char (by rcases hx with rfl | rfl <;> decide)).bind
    obtain ⟨f, hf⟩ := hcomma c (by rw [hc]; rfl)
    exact ⟨[], c, by rw [sepTail, hf], rfl, hc⟩
  | cons i is ih =>
    obtain ⟨hopens, hi⟩ := his i mem_cons_self
    rw [flatMap_cons, append_assoc, cons_append] at hc
    obtain ⟨c₁, hcomma, hrest⟩ := reaches_punct hc
    rw [skip_of_opensSigned hopens.append] at hrest
    obtain ⟨i', c₂, hi', hrest', hitem⟩ := hi c₁ _ hrest (ends_items hx is)
    rw [skip_items hx] at hrest'
    obtain ⟨is', r, htail, his', hr⟩ := ih (fun j hj => his j (mem_cons_of_mem _ hj)) hrest'
    have hread := seqRight_eq_done.2 ⟨_, _, hcomma, hitem⟩
    refine ⟨i' :: is', r, sepTail_eq_done.2 (.cons hread (length_lt_of_done hread)
      (sepTail_eq_done.1 htail)), ?_, hr⟩
    rw [Expr.unplacedAll, Expr.unplacedAll, hi', his']

theorem exists_sepBy1 (hne : is ≠ []) (his : ∀ i ∈ is, Item i)
    (hx : x = ')' ∨ x = ']') (hc : c.rest = Expr.printedList is ++ x :: t) :
    ∃ is' r, sepBy1 (punct ',') expression c = .done is' r ∧
      Expr.unplacedAll is' = Expr.unplacedAll is ∧ r.rest = x :: t := by
  obtain ⟨i, is, rfl⟩ := exists_cons_of_ne_nil hne
  obtain ⟨-, hi⟩ := his i mem_cons_self
  rw [printedList_cons, append_assoc] at hc
  obtain ⟨i', c₁, hi', hrest, hitem⟩ := hi c _ hc (ends_items hx is)
  rw [skip_items hx] at hrest
  obtain ⟨is', r, htail, his', hr⟩ :=
    exists_sepTail (fun j hj => his j (mem_cons_of_mem _ hj)) hx hrest
  refine ⟨i' :: is', r, bind_of_done hitem <| bind_of_done htail rfl, ?_, hr⟩
  rw [Expr.unplacedAll, Expr.unplacedAll, hi', his']

theorem failsAt_expression {x : Option Char} (h : Shut x) : FailsAt x expression := by
  rw [expression_eq]
  exact failsAt_relation h

theorem exists_sepBy (his : ∀ i ∈ is, Item i)
    (hc : c.rest = Expr.printedList is ++ ')' :: t) :
    ∃ is' r, sepBy (punct ',') expression c = .done is' r ∧
      Expr.unplacedAll is' = Expr.unplacedAll is ∧ r.rest = ')' :: t := by
  by_cases hnil : is = []
  · subst hnil
    obtain ⟨f, hf⟩ := failsAt_expression (x := some ')') (by decide) c (by rw [hc]; rfl)
    exact ⟨[], c, by rw [sepBy, hf], rfl, hc⟩
  · obtain ⟨is', r, hread, his', hr⟩ := exists_sepBy1 hnil his (.inl rfl) hc
    refine ⟨is', r, ?_, his', hr⟩
    obtain ⟨i, c₁, hitem, is, c₂, htail, hdone⟩ := bind₂_eq_done.1 hread
    rw [sepBy, hitem]
    simp only [htail]
    exact hdone

/-! ## Suffixes -/

/-- A suffix that is read where it stands is read behind its base. -/
theorem rereads_suffix {s : List Char} (hprinted : e.printed = base.printed ++ x :: s)
    (hx : x ∈ ['[', '.', '(']) (hpoint : x = '.' → base.isNumber = false)
    (hbase : RereadsOperand base)
    (h : ∀ d t, d.rest = x :: s ++ t → Fence t →
      ∃ build r, suffix expression d = .done build r ∧ r.rest = t ∧
        ∀ span b, b.unplaced = base.unplaced → (build span b).unplaced = e.unplaced) :
    RereadsOperand e := by
  intro c t hc ht
  rw [hprinted, append_assoc] at hc
  have hends : EndsOperand base (x :: s ++ t) := by
    constructor
    · rintro y ⟨⟩
      simp only [mem_cons, not_mem_nil, or_false] at hx
      rcases hx with rfl | rfl | rfl <;> simp [fences]
    · rintro hnumber ⟨⟩
      rw [hpoint rfl] at hnumber
      cases hnumber
  have hskip : skip (x :: s ++ t) = x :: s ++ t := by
    simp only [mem_cons, not_mem_nil, or_false] at hx
    rcases hx with rfl | rfl | rfl <;> exact skip_cons rfl (by simp)
  obtain ⟨b, r, hb, hr, hread⟩ := hbase c _ hc hends
  rw [hskip] at hr
  obtain ⟨build, d, hsuffix, hd, hbuild⟩ := h r t hr ht.1
  obtain ⟨r', hr', hsuffixes⟩ := suffixes_of_done (e := b) hsuffix
  exact ⟨_, r', hbuild _ b hb, by rw [hr', hd], hread.trans hsuffixes⟩

theorem rereads_index {indices : List Expr} (hne : indices ≠ [])
    (hbase : RereadsOperand base) (h : ∀ i ∈ indices, Item i) :
    RereadsOperand (.index span base indices) := by
  refine rereads_suffix (x := '[') (s := Expr.printedList indices ++ [']'])
    (by rw [Expr.printed, append_assoc]; rfl) (by simp) (by simp) hbase ?_
  intro d t hd ht
  rw [cons_append, append_assoc, singleton_append] at hd
  obtain ⟨c₁, hopen, hrest⟩ := reaches_punct hd
  have hskip : skip (Expr.printedList indices ++ ']' :: t) = Expr.printedList indices ++ ']' :: t := by
    obtain ⟨i, is, rfl⟩ := exists_cons_of_ne_nil hne
    rw [printedList_cons, append_assoc]
    exact skip_of_opensSigned (h i mem_cons_self).1.append
  rw [hskip] at hrest
  obtain ⟨is', c₂, hitems, his', hrest'⟩ := exists_sepBy1 hne h (.inr rfl) hrest
  obtain ⟨r, hclose, hr⟩ := reaches_char hrest'
  refine ⟨_, r, orElse_of_done (bind_of_done hopen <| bind_of_done hitems <|
    bind_of_done hclose rfl), hr, fun _ b hb => ?_⟩
  simp only [Expr.unplaced, hb, his']

theorem rereads_field {field : String} (hnumber : base.isNumber = false)
    (hbase : RereadsOperand base)
    (h : Named field.toList ∧ isReserved field = false ∨ ∃ u, field.toList = '$' :: u ∧ Named u) :
    RereadsOperand (.field span base field) := by
  refine rereads_suffix (x := '.') (s := field.toList) (by rw [Expr.printed]) (by simp)
    (fun _ => hnumber) hbase ?_
  intro d t hd ht
  have hhead : d.rest.head? = some '.' := by rw [hd]; rfl
  have hindex : FailsAt (some '.') (punct '[') := (FailsAt.char (by decide)).bind
  obtain ⟨c₁, hopen, hrest⟩ := reaches_char hd
  have hfield : ∃ r, (name <|> systemName) c₁ = .done field r ∧ r.rest = t := by
    rcases h with ⟨h, hreserved⟩ | ⟨u, hu, h⟩
    · exact ⟨_, orElse_of_done (name_of_named hrest h hreserved ht.not_isNameChar),
        rest_drop_length hrest⟩
    · obtain ⟨r, hread, hr⟩ := systemName_of_named hu hrest h ht.not_isNameChar
      have hdollar : c₁.rest.head? = some '$' := by rw [hrest, hu]; rfl
      exact ⟨r, ((failsAt_name (by decide)).orElse_right_iff hdollar).2 hread, hr⟩
  obtain ⟨r, hread, hr⟩ := hfield
  refine ⟨_, r, (hindex.bind.orElse_right_iff hhead).2 (orElse_of_done
    (bind_of_done hopen <| bind_of_done hread rfl)), hr, fun _ b hb => ?_⟩
  simp only [Expr.unplaced, hb]

theorem rereads_call {callee : Expr} {arguments : List Expr}
    (hcallee : RereadsOperand callee)
    (h : ∀ i ∈ arguments, Item i) :
    RereadsOperand (.call span callee arguments) := by
  refine rereads_suffix (x := '(') (s := Expr.printedList arguments ++ [')'])
    (by rw [Expr.printed, append_assoc]; rfl) (by simp) (by simp) hcallee ?_
  intro d t hd ht
  rw [cons_append, append_assoc, singleton_append] at hd
  have hhead : d.rest.head? = some '(' := by rw [hd]; rfl
  have hindex : FailsAt (some '(') (punct '[') := (FailsAt.char (by decide)).bind
  have hfield : FailsAt (some '(') (char '.') := .char (by decide)
  obtain ⟨c₁, hopen, hrest⟩ := reaches_punct hd
  have hskip : skip (Expr.printedList arguments ++ ')' :: t) =
      Expr.printedList arguments ++ ')' :: t := by
    cases arguments with
    | nil => exact skip_close (by simp)
    | cons i is =>
      rw [printedList_cons, append_assoc]
      exact skip_of_opensSigned (h i mem_cons_self).1.append
  rw [hskip] at hrest
  obtain ⟨is', c₂, hitems, his', hrest'⟩ := exists_sepBy h hrest
  obtain ⟨r, hclose, hr⟩ := reaches_char hrest'
  refine ⟨_, r, (hindex.bind.orElse_right_iff hhead).2 <| (hfield.bind.orElse_right_iff hhead).2 <|
    bind_of_done hopen <| bind_of_done hitems <| bind_of_done hclose rfl,
    hr, fun _ b hb => ?_⟩
  simp only [Expr.unplaced, hb, his']

/-! ## Operators -/

/-- Behind a first negation the others are read as before. -/
theorem negation_of_not (h : kw "NOT" c = .done () d) : negation q c =
    ((fun e => Expr.unary ⟨c.position, e.span.stop⟩ .not e) <$> negation q) d := by
  have hstep : (do let start ← position; kw "NOT"; return start : Parser Position) c =
      .done c.position d :=
    bind_eq_done.2 ⟨_, c, rfl, bind_of_done h rfl⟩
  rw [map_apply, negation, bind_apply, many, hstep]
  simp only [if_pos (length_lt_of_done h)]
  rw [bind_apply]
  cases many (do let start ← position; kw "NOT"; return start : Parser Position) d with
  | done starts r =>
    simp only [consTo, bind_apply]
    cases reference q r <;> rfl
  | failed f => rfl
  | aborted f => rfl

theorem rereads_not {operand : Expr} (hopens : OpensSigned operand.printed)
    (h : RereadsNegation operand) :
    RereadsNegation (.unary span .not operand) := by
  intro c t hc ht
  rw [Expr.printed, append_assoc] at hc
  have hword : ∃ d, kw "NOT" c = .done () d ∧ d.rest = skip (' ' :: (operand.printed ++ t)) :=
    reaches_kw hc not_isWord_space
  obtain ⟨d, hnot, hrest⟩ := hword
  rw [skip_cons_of_isSpacing rfl, skip_of_opensSigned hopens.append] at hrest
  obtain ⟨e', r, he', hr, hread⟩ := h d t hrest ht
  refine ⟨.unary ⟨c.position, e'.span.stop⟩ .not e', r, ?_, hr, ?_⟩
  · simp only [Expr.unplaced, he']
  · rw [negation_of_not hnot, map_apply, hread]
    rfl

theorem reaches_sign {o : UnaryOp} (ho : o ≠ .not) (hc : c.rest = Expr.signText o ++ t) :
    Reaches sign c o (skip t) := by
  cases o with
  | not => exact absurd rfl ho
  | negate => exact .orElse (.seqRight_pure (reaches_op hc))
  | plus =>
    have hminus : ∃ f, op "-" c = .failed f :=
      op_failed (by decide) hc (by simp [Expr.signText])
    exact .orElse_of_failed (hminus.imp fun _ => map_eq_failed.2) (.seqRight_pure (reaches_op hc))

theorem rereads_sign {o : UnaryOp} {operand : Expr} (ho : o ≠ .not)
    (hopens : OpensSigned operand.printed) (h : RereadsProduct operand) :
    RereadsSigned (.unary span o operand) := by
  intro c t hc ht
  rw [Expr.printed, append_assoc] at hc
  obtain ⟨d, hsign, hrest⟩ := reaches_sign ho hc
  rw [skip_of_opensSigned hopens.append] at hrest
  obtain ⟨e', r, he', hr, hread⟩ := h d t hrest (ht.mono (by decide))
  refine ⟨.unary ⟨c.position, e'.span.stop⟩ o e', r, ?_, hr, ?_⟩
  · simp only [Expr.unplaced, he']
  · rw [signed, bind_apply, position]
    simp only
    rw [bind_apply, maybe_of_done hsign]
    simp only
    rw [bind_apply, hread, factors_of_ends (ht.mono (by decide)) hr]

theorem printed_binary_append (span : Span) (o : BinaryOp) (left right : Expr) (t : List Char) :
    (Expr.binary span o left right).printed ++ t =
      left.printed ++ (' ' :: opChars o ++ ' ' :: (right.printed ++ t)) := by
  simp [Expr.printed, opChars]

/-- Behind the left operand the operator is read, and the right operand stands next. -/
theorem exists_operator {p : Parser BinaryOp}
    (hop : ∀ {c t}, c.rest = opChars o ++ ' ' :: t → Reaches p c o (skip t))
    (hopens : OpensSigned right.printed)
    (hc : c.rest = skip (' ' :: opChars o ++ ' ' :: (right.printed ++ t))) :
    Reaches p c o (right.printed ++ t) := by
  rw [skip_op] at hc
  obtain ⟨r, hdone, hr⟩ := hop hc
  exact ⟨r, hdone, hr.trans (skip_of_opensSigned hopens.append)⟩

/-- A chain of operators of one rank takes one more operand. -/
theorem rereads_chain {rule item : Parser Expr} {p : Parser BinaryOp} {left : Expr} [Consumes item]
    [Consumes p]
    (hop : ∀ {c t}, c.rest = opChars o ++ ' ' :: t → Reaches p c o (skip t))
    (hk : k < opRank o) (hopens : OpensSigned right.printed)
    (hleft : Rereads rule (chainTail item p Expr.join) (Ends k) left)
    (hright : Rereads item pure (Ends k) right) :
    Rereads rule (chainTail item p Expr.join) (Ends k) (.binary span o left right) := by
  intro c t hc ht
  rw [printed_binary_append] at hc
  obtain ⟨l, c₁, hl, hrest, hread⟩ := hleft c _ hc (.op hk)
  obtain ⟨c₂, hdone, hrest'⟩ := exists_operator hop hopens hrest
  obtain ⟨e', r, he', hr, hitem⟩ := hright c₂ t hrest' ht
  refine ⟨l.join o e', r, ?_, hr, ?_⟩
  · simp only [Expr.join, Expr.unplaced, hl, he']
  · rw [hread]
    exact chainTail_of_done hdone hitem

theorem rereads_comparison {left : Expr} (ho : opRank o = 5) (hopens : OpensSigned right.printed)
    (hleft : RereadsSum left) (hright : RereadsSum right) :
    RereadsRelation (.binary span o left right) := by
  intro c t hc ht
  rw [printed_binary_append] at hc
  have hop : Ends 4 (' ' :: opChars o ++ ' ' :: (right.printed ++ t)) := .op (by omega)
  obtain ⟨l, c₁, hl, hrest, hread⟩ := hleft c _ hc (hop.mono (by decide))
  obtain ⟨c₂, hdone, hrest'⟩ := exists_operator (reaches_relationOp ho) hopens hrest
  obtain ⟨e', r, he', hr, hsum⟩ := hright c₂ t hrest' (ht.mono (by decide))
  refine ⟨l.join o e', r, ?_, hr, ?_⟩
  · simp only [Expr.join, Expr.unplaced, hl, he']
  · rw [expression_eq, relation, bind_apply, hread, terms_of_ends hop hrest]
    simp only
    rw [bind_apply, maybe_of_done hdone]
    simp only
    rw [bind_apply, hsum, terms_of_ends (ht.mono (by decide)) hr]

/-! ## All forms -/

/-- Whatever is in good form is read back, unless a field is selected from a number. -/
theorem reread_of_formed (h : e.Formed) (hnumber : e.selectsFromNumber = false) : Reread e := by
  induction h with
  | number h => exact .of_reference (.number h) rfl (rereads_number h)
  | string h => exact .of_reference (.string h) rfl (rereads_string h)
  | boolean => exact .of_reference .boolean rfl rereads_boolean
  | identifier h hreserved htruth =>
    exact .of_reference (.identifier h hreserved htruth) rfl (rereads_identifier h hreserved htruth)
  | system htext h => exact .of_reference (.system htext h) rfl (rereads_system htext h)
  | programVariable hprogram hname =>
    exact .of_reference (.programVariable hprogram hname) rfl (rereads_programVariable hprogram hname)
  | index hbase hrank hne h ih ihs =>
    rw [Expr.selectsFromNumber, Bool.or_eq_false_iff] at hnumber
    refine .of_reference (.index hbase hrank hne h) rfl
      (rereads_index hne ((ih hnumber.1).reference hrank) fun i hi => ⟨(h i hi).opensSigned, ?_⟩)
    exact (ihs i hi (Expr.selectsFromNumber_of_mem hnumber.2 hi)).relation
  | field hbase hrank h ih =>
    rw [Expr.selectsFromNumber, Bool.or_eq_false_iff] at hnumber
    exact .of_reference (.field hbase hrank h) rfl
      (rereads_field hnumber.1 ((ih hnumber.2).reference hrank) h)
  | call hcallee hrank h ih ihs =>
    rw [Expr.selectsFromNumber, Bool.or_eq_false_iff] at hnumber
    refine .of_reference (.call hcallee hrank h) rfl
      (rereads_call ((ih hnumber.1).reference hrank) fun i hi => ⟨(h i hi).opensSigned, ?_⟩)
    exact (ihs i hi (Expr.selectsFromNumber_of_mem hnumber.2 hi)).relation
  | not h hrank ih =>
    rw [Expr.selectsFromNumber] at hnumber
    exact .of_negation rfl ((Expr.Formed.not h hrank).opens (Nat.le_succ 1))
      (rereads_not h.opensSigned ((ih hnumber).negation hrank))
  | @sign span o operand ho h hrank ih =>
    rw [Expr.selectsFromNumber] at hnumber
    have hthree : (Expr.unary span o operand).rank = 3 := by
      cases o with
      | not => exact absurd rfl ho
      | negate => rfl
      | plus => rfl
    exact .of_signed hthree (rereads_sign ho h.opensSigned ((ih hnumber).product hrank))
  | @binary span o _ _ hleft hright hleftRank hrightRank ihleft ihright =>
    rw [Expr.selectsFromNumber, Bool.or_eq_false_iff] at hnumber
    have hl := ihleft hnumber.1
    have hr := ihright hnumber.2
    have hranks : opRank o = 2 ∨ opRank o = 4 ∨ opRank o = 5 := by cases o <;> decide
    have hopens : opRank o ≤ 2 → Opens (Expr.binary span o _ _).printed :=
      (Expr.Formed.binary hleft hright hleftRank hrightRank).opens
    rcases hranks with ho | ho | ho <;> rw [ho] at hleftRank hrightRank
    · exact .of_product ho (hopens (Nat.le_of_eq ho))
        (rereads_chain (reaches_productOp ho) (by omega) hright.opensSigned
          (hl.product hleftRank) (hr.negation (by omega)))
    · exact .of_sum ho (rereads_chain (reaches_sumOp ho) (by omega) hright.opensSigned
        (hl.sum hleftRank) (hr.signed (by omega)))
    · exact .of_relation ho (rereads_comparison ho hright.opensSigned
        (hl.sum hleftRank) (hr.sum (by omega)))
  | paren h ih =>
    rw [Expr.selectsFromNumber] at hnumber
    exact .of_reference (.paren h) rfl (rereads_paren h.opensSigned (ih hnumber).relation)

/-- The printed expression is read as a whole. -/
theorem exists_parse_text (h : Reread e) :
    ∃ e', Expr.parse e.text = .ok e' ∧ e'.unplaced = e.unplaced := by
  have hrest : (Cursor.ofText e.text).rest = e.printed ++ [] := by
    rw [append_nil]
    exact String.toList_ofList
  obtain ⟨e', r, he', hr, hread⟩ := h.relation _ _ hrest .nil
  have hdone : wholeExpression (.ofText e.text) = .done e' r := by
    refine bind_eq_done.2 ⟨e', r, hread, bind_eq_done.2 ⟨r, r, rfl, ?_⟩⟩
    rw [if_pos (by rw [Cursor.atEnd, hr]; rfl)]
    rfl
  exact ⟨e', by rw [Expr.parse, Parser.run, hdone], he'⟩

end RobotSource.Karel.Grammar

namespace RobotSource.Karel.Expr

/-- What is printed after reading is read again as the same expression, places aside, unless a field
is selected from a number; so it is printed the same. -/
theorem parse_text_of_parse {text : String} {e : Expr} (h : Expr.parse text = .ok e)
    (hnumber : e.selectsFromNumber = false) :
    ∃ e', Expr.parse e.text = .ok e' ∧ e'.unplaced = e.unplaced ∧ e'.text = e.text := by
  obtain ⟨e', hparse, he'⟩ :=
    Grammar.exists_parse_text (Grammar.reread_of_formed (Grammar.formed_of_parse h) hnumber)
  exact ⟨e', hparse, he', text_eq_of_unplaced_eq he'⟩

/-- Operators of every rank, signs on both sides, suffixes of every kind and a comment in between. -/
theorem parse_text_of_parse_nested :
    let text := "-a*not b [1, f ( )] .$x+ [p]q div(1.5e-3)<>+g('it', on ,-- here\n.5)"
    ∃ e, Expr.parse text = .ok e ∧ e.selectsFromNumber = false ∧
      e.text = "-a * NOT b[1,f()].$x + [p]q DIV (1.5e-3) <> +g('it',TRUE,.5)" ∧
      ∃ e', Expr.parse e.text = .ok e' ∧ e'.unplaced = e.unplaced ∧ e'.text = e.text := by
  intro text
  have hmap : (Expr.parse text).map (fun e => (e.selectsFromNumber, e.text)) =
      .ok (false, "-a * NOT b[1,f()].$x + [p]q DIV (1.5e-3) <> +g('it',TRUE,.5)") := by
    decide +kernel
  cases hparse : Expr.parse text with
  | ok e =>
    rw [hparse] at hmap
    obtain ⟨hnumber, htext⟩ := Prod.mk.inj (Except.ok.inj hmap)
    exact ⟨e, rfl, hnumber, htext, parse_text_of_parse hparse hnumber⟩
  | error e =>
    rw [hparse] at hmap
    cases hmap

end RobotSource.Karel.Expr
