import RobotSource.Proofs.Karel.Grammar.Openings
import RobotSource.Proofs.Karel.Grammar.Roundtrip
/-!
# Brackets behind an operand

A bracket that begins a statement can be taken for a suffix of the expression in front of it. `(…)`
always is, as arguments. `[…]` is as a subscript, unless the name in it is reserved: then it makes
up no expression.
-/

namespace RobotSource.Karel.Grammar

open Parsing Parsing.Parser Text

variable {c d r : Cursor} {t u : List Char}
variable {q : Parser Expr} {w : String} {e : Expr} {x : Char} {build : Span → Expr → Expr}
    {es : List Expr}

/-! ## Kinds of suffixes -/

/-- `[…]` behind an operand. -/
def subscript (q : Parser Expr) : Parser (Span → Expr → Expr) := do
  punct '['
  let indices ← sepBy1 (punct ',') q
  let _ ← char ']'
  return fun span base => .index span base indices

/-- `.name` behind an operand. -/
def selection : Parser (Span → Expr → Expr) := do
  let field ← fieldName
  return fun span base => .field span base field

/-- `(…)` behind an operand. -/
def argumentList (q : Parser Expr) : Parser (Span → Expr → Expr) := do
  punct '('
  let arguments ← sepBy (punct ',') q
  let _ ← char ')'
  return fun span base => .call span base arguments

theorem suffix_eq (q : Parser Expr) :
    suffix q = (subscript q <|> selection <|> argumentList q) := by
  simp only [suffix, selection, fieldName, bind_assoc]
  rfl

/-! ## Names as expressions -/

/-- Where a name stands, an operand does. -/
theorem operand_of_name (h : name c = .done w r) :
    ∃ e r', operand q c = .done e r' ∧ r'.rest = skip r.rest := by
  obtain ⟨-, hstart, hrest, -⟩ := name_eq_word h
  obtain ⟨build, c₁, hword, hskip⟩ : ∃ build c₁,
      wordAtom c = .done build c₁ ∧ skip c₁.rest = skip r.rest := by
    cases hboolean : boolean c with
    | done b c₁ =>
      obtain ⟨w, -, -, hc₁⟩ := boolean_eq_word hboolean
      exact ⟨_, c₁, orElse_of_done (bind_of_done hboolean rfl), by
        rw [hc₁, skip_dropWhile, hrest]⟩
    | failed f =>
      exact ⟨_, r, orElse_of_failed (map_eq_failed.2 hboolean) (bind_of_done h rfl), rfl⟩
    | aborted f => exact absurd hboolean (Retreats.ne_aborted c f)
  have hleaf : leaf q c = .done build c₁ := leaf_of_isNameStart hstart hword
  obtain ⟨r', hblanks, hr'⟩ := reaches_blanks c₁
  refine ⟨build ⟨c.position, endOfCode c.position (c.upTo c₁)⟩, r', ?_, hr'.trans hskip⟩
  rw [operand_eq]
  exact bind_of_done (bind_of_done (by rw [coded, hleaf]) <| bind_of_done hblanks rfl) rfl

/-- An operand with no operator behind it makes up a sum. -/
theorem sum_of_operand (hsign : ∃ f, sign c = .failed f) (hnot : ∃ f, kw "NOT" c = .failed f)
    (h : operand expression c = .done e r) (hr : r.rest.head? = some x)
    (hx : x ∈ [']', ')', ',', '=']) : sum expression c = .done e r := by
  have hends {α : Type} {p : Parser α} {bs : List Char} (hp : ∀ x, NoneOf bs x → FailsAt x p)
      (hbs : ∀ x ∈ [']', ')', ',', '='], NoneOf bs (some x)) : ∃ f, p r = .failed f :=
    hp (some x) (hbs x hx) r hr
  have hreference : reference expression c = .done e r := by
    rw [reference_eq]
    exact bind_of_done h <| suffixes_of_failed (hends (fun _ => failsAt_suffix) (by decide))
  have hnegation : negation expression c = .done e r := by
    obtain ⟨f, hf⟩ := hnot
    refine bind_eq_done.2 ⟨[], c, ?_, bind_of_done hreference rfl⟩
    rw [many, bind_apply, position]
    simp only [bind_apply, hf]
  have hproduct : product expression c = .done e r :=
    bind_of_done hnegation <| chainTail_of_failed (hends (fun _ => failsAt_productOp)
      (by decide))
  have hsigned : signed expression c = .done e r := by
    rw [signed, bind_apply, position]
    simp only
    rw [bind_apply, maybe_of_failed hsign]
    exact hproduct
  exact bind_of_done hsigned <| chainTail_of_failed (hends (fun _ => failsAt_sumOp)
    (by decide))

/-- A name with no operator behind it makes up a sum. -/
theorem sum_of_name (h : name c = .done w r) (hr : (skip r.rest).head? = some x)
    (hx : x ∈ [']', ')', ',', '=']) :
    ∃ e r', sum expression c = .done e r' ∧ r'.rest = skip r.rest := by
  obtain ⟨-, hstart, -, hreserved⟩ := name_eq_word h
  obtain ⟨e, r', hoperand, hr'⟩ := operand_of_name (q := expression) h
  refine ⟨e, r', sum_of_operand ?_ ?_ hoperand (by rw [hr', hr]) hx, hr'⟩
  · exact failsAt_sign (noneOf_of_all (by decide) (all_isOpening_of_start hstart)) c rfl
  · refine Retreats.failed fun _ r₁ hnot => ?_
    rw [isReserved_of_same (kw_eq_word hnot (by decide)).1] at hreserved
    exact absurd hreserved (by decide)

/-- A name in a bracket makes up an expression. -/
theorem expression_of_name (h : name c = .done w r) (hr : r.rest.head? = some x)
    (hx : x ∈ [']', ')', ',']) : ∃ e r', expression c = .done e r' ∧ r'.rest = r.rest := by
  have hskip : skip r.rest = r.rest := by
    cases hrest : r.rest with
    | nil => rfl
    | cons y s =>
      rw [hrest, List.head?_cons, Option.some_inj] at hr
      subst hr
      simp only [List.mem_cons, List.not_mem_nil, or_false] at hx
      rcases hx with rfl | rfl | rfl <;> exact skip_cons rfl (by simp)
  obtain ⟨e, r', hsum, hr'⟩ := sum_of_name h (by rw [hskip, hr])
    (List.mem_append_left ['='] hx)
  rw [hskip] at hr'
  have hrelation : ∃ f, relationOp r' = .failed f := by
    have hall : ∀ x ∈ [']', ')', ','], NoneOf ['<', '>', '='] (some x) := by decide
    exact failsAt_relationOp (hall x hx) r' (by rw [hr', hr])
  refine ⟨e, r', ?_, hr'⟩
  rw [expression_eq, relation, bind_apply, hsum]
  simp only
  rw [bind_apply, maybe_of_failed hrelation]
  rfl

/-! ## Subscripts -/

/-- No comma stands where something else does. -/
theorem sepTail_of_head? (hx : x ≠ ',') (hc : c.rest.head? = some x) :
    sepTail (punct ',') q c = .done [] c := by
  obtain ⟨f, hf⟩ := failsAt_punct (x := some x) (y := ',') (by simpa using hx) c hc
  rw [sepTail, hf]

theorem skip_of_named (h : Named u) : skip (u ++ t) = u ++ t := by
  obtain ⟨x, s, rfl, hx⟩ := h.exists_cons
  exact skip_of_isOpening (by simp [isOpening, hx])

/-- The word in brackets, and what follows it. -/
theorem word_of_named (h : Named u) : leadingWord (u ++ ']' :: t) = String.ofList u ∧
    (u ++ ']' :: t).dropWhile isNameChar = ']' :: t :=
  ⟨congrArg String.ofList (takeWhile_append_of_head? h.chars rfl),
    dropWhile_append_of_head? h.chars rfl⟩

/-- A name in brackets is a subscript, unless it is reserved. -/
theorem suffix_of_bracket (hu : Named u) (hreserved : isReserved (String.ofList u) = false)
    (hc : c.rest = '[' :: (u ++ ']' :: t)) :
    ∃ build r, suffix expression c = .done build r ∧ r.rest = t := by
  obtain ⟨c₁, hopen, hc₁⟩ := reaches_punct hc
  rw [skip_of_named hu] at hc₁
  have hname : name c₁ = .done (String.ofList u) (c₁.drop u.length) := by
    have hread := name_of_named (s := String.ofList u) (by rw [String.toList_ofList, hc₁])
      (by rwa [String.toList_ofList]) hreserved rfl
    rwa [String.toList_ofList] at hread
  have hrest : (c₁.drop u.length).rest = ']' :: t := rest_drop_length hc₁
  obtain ⟨e, r₁, hexpression, hr₁⟩ := expression_of_name hname (by rw [hrest]; rfl) (by simp)
  have htail : sepTail (punct ',') expression r₁ = .done [] r₁ :=
    sepTail_of_head? (x := ']') (by simp) (by rw [hr₁, hrest]; rfl)
  obtain ⟨r, hclose, hr⟩ := reaches_char (hr₁.trans hrest)
  refine ⟨fun span base => .index span base [e], r, ?_, hr⟩
  rw [suffix_eq]
  exact orElse_of_done (bind_of_done hopen <| bind_of_done (bind_of_done hexpression <|
    bind_of_done htail rfl) <| bind_of_done hclose rfl)

/-- An expression begins with an operand, behind a sign and negations. -/
theorem exists_operand_of_expression (h : expression c = .done e r) :
    ∃ o c₁ starts c₂ base r₁, maybe sign c = .done o c₁ ∧
      many (do let start ← position; kw "NOT"; return start) c₁ = .done starts c₂ ∧
      operand expression c₂ = .done base r₁ := by
  rw [expression_eq] at h
  obtain ⟨_, _, hsum, -⟩ := bind_eq_done.1 h
  obtain ⟨_, _, hsigned, -⟩ := bind_eq_done.1 hsum
  obtain ⟨_, _, hposition, hsigned⟩ := bind_eq_done.1 hsigned
  cases hposition
  obtain ⟨o, c₁, hsign, hsigned⟩ := bind_eq_done.1 hsigned
  obtain ⟨_, _, hproduct⟩ : ∃ e r, product expression c₁ = .done e r := by
    cases o with
    | none => exact ⟨_, _, hsigned⟩
    | some _ =>
      obtain ⟨_, _, hproduct, -⟩ := bind_eq_done.1 hsigned
      exact ⟨_, _, hproduct⟩
  obtain ⟨_, _, hnegation, -⟩ := bind_eq_done.1 hproduct
  obtain ⟨starts, c₂, hstarts, _, _, hreference, -⟩ := bind₂_eq_done.1 hnegation
  obtain ⟨base, r₁, hoperand, -⟩ := bind_eq_done.1 hreference
  exact ⟨o, c₁, starts, c₂, base, r₁, hsign, hstarts, hoperand⟩

/-- A reserved word in a bracket makes up no expression. `NOT` needs something behind it. -/
theorem expression_ne_done_of_reserved (hreserved : isReserved (leadingWord c.rest))
    (hclose : (c.rest.dropWhile isNameChar).head? = some ']') : expression c ≠ .done e r := by
  intro h
  obtain ⟨o, c₁, starts, c₂, base, r₁, hsign, hstarts, hoperand⟩ := exists_operand_of_expression h
  have hstart := startsOperand_of_operand hoperand
  have hopening := all_isOpening_of_start (start_of_isReserved hreserved)
  obtain rfl : c₁ = c := by
    obtain ⟨f, hf⟩ := failsAt_sign (noneOf_of_all (by decide) hopening) c rfl
    rw [maybe, hf] at hsign
    cases hsign
    rfl
  cases many_eq_done.1 hstarts with
  | nil =>
    rw [hstart.not_isReserved] at hreserved
    cases hreserved
  | @cons _ c₃ _ start _ hnot _ hrest =>
    -- behind the negation the bracket is closed
    obtain ⟨_, _, hposition, hkw⟩ := bind_eq_done.1 hnot
    cases hposition
    obtain ⟨_, c₄, hkw, hpure⟩ := bind_eq_done.1 hkw
    cases hpure
    obtain ⟨-, hbehind⟩ := kw_eq_word hkw (by decide)
    have hc₃ : c₃.rest.head? = some ']' := by
      obtain ⟨s, htail⟩ := List.head?_eq_some_iff.1 hclose
      rw [hbehind, htail, skip_cons rfl (by simp)]
      rfl
    cases hrest with
    | nil =>
      have hopening := hstart.isOpening
      rw [hc₃] at hopening
      cases hopening
    | cons hnot _ _ =>
      exact (FailsAt.position_bind fun _ => (failsAt_word (by decide)).bind).ne_done hc₃ hnot

/-- Nor does it make up a subscript. -/
theorem suffix_ne_done_of_reserved (hc : c.rest = '[' :: t)
    (hreserved : isReserved (leadingWord t))
    (hclose : (t.dropWhile isNameChar).head? = some ']') : suffix expression c ≠ .done build r := by
  intro h
  have hhead : c.rest.head? = some '[' := by rw [hc]; rfl
  rw [suffix_eq] at h
  have hothers : FailsAt (some '[') (selection <|> argumentList expression) :=
    ((FailsAt.char (by decide)).bind.bind).orElse (failsAt_punct (by decide)).bind
  obtain ⟨_, c₁, hopen, _, _, hitems, -⟩ := bind₂_eq_done.1 ((hothers.orElse_left_iff hhead).1 h)
  obtain ⟨e, c₂, hitem, -⟩ := bind_eq_done.1 hitems
  obtain ⟨t', ht', hc₁⟩ := punct_eq_done hopen
  obtain rfl : t = t' := by
    rw [hc] at ht'
    exact (List.cons.inj ht').2
  rw [skip_of_isOpening (all_isOpening_of_start (start_of_isReserved hreserved))] at hc₁
  exact expression_ne_done_of_reserved (by rwa [hc₁]) (by rwa [hc₁]) hitem

/-! ## Fields -/

/-- Behind the point of a field no digit stands. -/
theorem fieldName_failed (hc : c.rest = '.' :: x :: t) (hx : x.isDigit) :
    ∃ f, fieldName c = .failed f := by
  refine Retreats.failed ?_
  intro w r h
  obtain ⟨_, c₁, hpoint, hname⟩ := bind_eq_done.1 h
  have hhead : c₁.rest.head? = some x := by
    have hpasses := (passes_char hpoint).rest
    rw [hc, List.singleton_append, List.cons.injEq] at hpasses
    rw [← hpasses.2]
    rfl
  rcases orElse_eq_done hname with h | h
  · obtain ⟨-, hstart, -⟩ := name_eq_word h
    rw [hhead, Option.any_some] at hstart
    rw [not_isDigit_of_isNameStart hstart] at hx
    cases hx
  · refine (failsAt_systemName (x := some x) ?_).ne_done hhead h
    rintro ⟨⟩
    cases hx

/-! ## Parentheses -/

theorem failsAt_atom : FailsAt (some '(') atom :=
  (failsAt_number (by decide) (by decide)).bind.orElse <|
  (failsAt_stringLiteral (by decide)).bind.orElse <|
  (failsAt_systemName (by decide)).bind.orElse <|
  (failsAt_programVariable (by decide)).bind.orElse <|
  (failsAt_boolean (by decide)).bind.orElse (failsAt_name (by decide)).bind

/-- An operand that begins with a parenthesis is an expression in parentheses. -/
theorem enclosed_of_operand (h : operand q c = .done e r)
    (hc : c.rest = '(' :: t) : ∃ c₀ e₀ r₀ t', c₀.rest = skip t ∧ q c₀ = .done e₀ r₀ ∧
      r₀.rest = ')' :: t' ∧ r.rest = skip t' := by
  have hhead : c.rest.head? = some '(' := by rw [hc]; rfl
  rw [operand_eq] at h
  obtain ⟨⟨build, span⟩, c₁, hlexeme, hpure⟩ := bind_eq_done.1 h
  cases hpure
  obtain ⟨c₂, hleaf, hblanks⟩ := lexeme_eq_done hlexeme
  cases hblanks
  obtain ⟨_, c₀, hopen, e₀, r₀, hinner, _, c₄, hclose, hpure⟩ :=
    bind₃_eq_done.1 ((failsAt_atom.orElse_left_iff hhead).1 hleaf)
  cases hpure
  obtain ⟨t₁, ht₁, hc₀⟩ := op_eq_done hopen (by decide)
  obtain rfl : t₁ = t := by
    rw [hc] at ht₁
    exact (List.cons.inj ht₁).2.symm
  obtain ⟨-, rfl, t', ht'⟩ := char_eq_done.1 hclose
  refine ⟨c₀, e₀, r₀, t', hc₀, hinner, ht', ?_⟩
  rw [Cursor.rest_drop, Cursor.rest_drop, ht']
  rfl

/-- A statement that begins with a parenthesis is an assignment. -/
theorem assignment_of_paren {a : Statement} (h : statement c = .done a r)
    (hc : c.rest.head? = some '(') : ∃ build, assignment c = .done build r := by
  rw [statement_eq] at h
  obtain ⟨build, hkinds, -⟩ := statementOf_eq_done.1 h
  have hlater {p q : Parser (Span → Statement)} (hp : FailsAt (some '(') p)
      (h : (p <|> q) c = .done build r) : q c = .done build r := (hp.orElse_right_iff hc).1 h
  have hkw {w : String} {b : Char} {l : List Char} {f : Unit → Parser (Span → Statement)}
      {q : Parser (Span → Statement)} (hword : w.toList = b :: l)
      (hb : lowerCase '(' ≠ lowerCase b) (h : (kw w >>= f <|> q) c = .done build r) :
      q c = .done build r := hlater (failsAt_kw hword (by simpa using hb)).bind h
  have hname : FailsAt (some '(') name := failsAt_name (by decide)
  have hverb : FailsAt (some '(') (keyword "WRITE" <|> keyword "READ") :=
    (FailsAt.keyword_apart (by decide)).orElse (FailsAt.keyword_apart (by decide))
  have hgoto : FailsAt (some '(') gotoStatement :=
    ((failsAt_word (by decide)).orElse (failsAt_word (by decide)).seqRight).bind
  have hwords := hlater hgoto <| hkw rfl (by decide) <| hkw rfl (by decide) <|
    hkw rfl (by decide) <| hkw rfl (by decide) <| hkw rfl (by decide) <|
    hkw rfl (by decide) hkinds
  have hnamed := hlater hname.bind <| hlater (.position_bind fun _ => hverb.bind) <|
    hkw rfl (by decide) <| hkw rfl (by decide) <| hkw rfl (by decide) <|
    hkw rfl (by decide) hwords
  exact ⟨build, ((failsAt_lexeme hname).bind.orElse_left_iff hc).1 hnamed⟩

/-- An expression in parentheses may stand for arguments. -/
theorem argumentList_of_enclosed {c₀ r₀ : Cursor} {e₀ : Expr} {t' : List Char}
    (hc : c.rest = '(' :: t) (hc₀ : c₀.rest = skip t) (h : expression c₀ = .done e₀ r₀)
    (hr₀ : r₀.rest = ')' :: t') : ∃ build r, argumentList expression c = .done build r ∧ r.rest = t' := by
  obtain ⟨c₁, hopen, hc₁⟩ := reaches_punct hc
  obtain ⟨e, r₁, hexpression, hr₁⟩ :=
    exists_done_of_sameRest lexis_sameRest.expression (hc₀.trans hc₁.symm) h
  have htail : sepTail (punct ',') expression r₁ = .done [] r₁ :=
    sepTail_of_head? (x := ')') (by simp) (by rw [hr₁, hr₀]; rfl)
  have hitems : sepBy (punct ',') expression c₁ = .done [e] r₁ :=
    sepBy_eq_done.2 (.inr ⟨e, r₁, [], hexpression, htail, rfl⟩)
  obtain ⟨r, hclose, hr⟩ := reaches_char (hr₁.trans hr₀)
  exact ⟨fun span base => .call span base [e], r, bind_of_done hopen <| bind_of_done hitems <|
    bind_of_done hclose rfl, hr⟩

/-- Where parentheses open, a suffix is a list of arguments. -/
theorem suffix_eq_argumentList (hc : c.rest.head? = some '(') :
    suffix q c = .done build r ↔ argumentList q c = .done build r := by
  have hsubscript : FailsAt (some '(') (subscript q) := (failsAt_punct (by decide)).bind
  have hselection : FailsAt (some '(') selection := (FailsAt.char (by decide)).bind.bind
  rw [suffix_eq, hsubscript.orElse_right_iff hc, hselection.orElse_right_iff hc]

/-! ## Arguments -/

theorem argument_of_expression (h : expression c = .done e r)
    (hr : r.rest.head? ≠ some ':') : argument c = .done e r := by
  refine bind_of_done h (bind_eq_done.2 ⟨[], r, ?_, rfl⟩)
  have hop : ∃ f, op "::" r = .failed f :=
    Retreats.failed fun _ _ hdone => hr (head?_of_op hdone (by decide))
  obtain ⟨f, hf⟩ := hop
  exact many_eq_done.2 (.nil (show (op "::" *> sum expression) r = .failed f by
    rw [seqRight_apply, hf]))

/-- Behind an item a comma stands or the list is closed. -/
theorem head?_ne_colon (h : sepTail (punct ',') expression c = .done es r)
    (hr : r.rest.head? = some ')') : c.rest.head? ≠ some ':' := by
  refine of_sepTail (K := fun c => c.rest.head? = some ')')
    (F := fun c => c.rest.head? ≠ some ':') (fun c x r hsep => ?_) (fun c hc => ?_) h hr
  · rw [head?_of_punct hsep]
    simp
  · rw [hc]
    simp

/-- Items without formats are arguments. -/
theorem sepTail_argument (h : sepTail (punct ',') expression c = .done es r)
    (hr : r.rest.head? = some ')') : sepTail (punct ',') argument c = .done es r := by
  induction sepTail_eq_done.1 h with
  | nil => exact sepTail_of_head? (by simp) hr
  | cons hnext hlt hrest ih =>
    have hread := sepTail_eq_done.2 hrest
    obtain ⟨_, _, hsep, hitem⟩ := seqRight_eq_done.1 hnext
    have hargument := argument_of_expression hitem (head?_ne_colon hread hr)
    exact sepTail_eq_done.2 (.cons (seqRight_eq_done.2 ⟨_, _, hsep, hargument⟩) hlt
      (sepTail_eq_done.1 (ih hread hr)))

theorem sepBy_argument (h : sepBy (punct ',') expression c = .done es r)
    (hr : r.rest.head? = some ')') : sepBy (punct ',') argument c = .done es r := by
  rcases sepBy_eq_done.1 h with ⟨⟨f, hf⟩, rfl, rfl⟩ | ⟨e, next, es, hitem, hrest, rfl⟩
  · exact sepBy_eq_done.2 (.inl ⟨⟨f, by rw [argument, bind_apply, hf]⟩, rfl, rfl⟩)
  · exact sepBy_eq_done.2 (.inr ⟨e, next, es, argument_of_expression hitem (head?_ne_colon hrest hr),
      sepTail_argument hrest hr, rfl⟩)

/-- A list of arguments behind an operand is one behind a routine. -/
theorem arguments_of_argumentList (h : argumentList expression c = .done build r) :
    ∃ es r', arguments c = .done es r' ∧ r'.rest = skip r.rest := by
  obtain ⟨_, c₁, hopen, es, r₁, hitems, _, r₂, hclose, hpure⟩ := bind₃_eq_done.1 h
  cases hpure
  have hr₁ := (passes_char hclose).rest
  obtain ⟨r', hop, hr'⟩ : ∃ r', op ")" r₁ = .done () r' ∧ r'.rest = skip r.rest :=
    reaches_op hr₁
  exact ⟨es, r', bind_of_done hopen <| bind_of_done (sepBy_argument hitems
    (by rw [hr₁]; rfl)) <| bind_of_done hop rfl, hr'⟩

end RobotSource.Karel.Grammar
