import RobotSource.Proofs.Karel.Grammar.Suffixes
/-!
# Karel statements that begin with a name

A name may stand for a call, a label or the target of an assignment, and `WAIT` and `WRITE` are
names as well as the beginning of a statement. Which of these is read depends on what stands behind
the name: on parentheses, which may hold arguments or be the target of the next assignment
(`Enclosed`), and on whether an equals sign can be reached from there (`Fresh`).
-/

namespace RobotSource.Karel.Grammar

open Parsing Parsing.Parser Text List

variable {c c' c₁ c₂ d r : Cursor} {t u : List Char} {w : String}
variable {e target : Expr} {a : Statement} {v : String} {build : Span → Statement} {es : List Expr}

/-! ## The counter of a loop -/

theorem relationOp_of_equal (hc : c.rest = '=' :: t) :
    Reaches relationOp c .equal (skip t) := by
  have hother {v : String} {l : List Char} {b : Char} {o : BinaryOp} (hv : v.toList = b :: l)
      (hb : (some '=').map lowerCase ≠ some (lowerCase b)) :
      ∃ f, (op v *> (pure o : Parser BinaryOp)) c = .failed f :=
    (failsAt_op hv hb).seqRight c (by rw [hc]; rfl)
  exact .orElse_of_failed (hother (v := "<=") rfl (by decide)) <|
    .orElse_of_failed (hother (v := ">=") rfl (by decide)) <|
    .orElse_of_failed (hother (v := "<>") rfl (by decide)) <|
    .orElse (.seqRight_pure (reaches_op hc))

/-- A name, an equals sign and an expression make up an expression. -/
theorem expression_of_equation (hname : name c = .done w c') (hc₁ : c₁.rest = skip c'.rest)
    (hop : op "=" c₁ = .done () c₂) (h : expression c₂ = .done e r) :
    ∃ e' r', expression c = .done e' r' := by
  obtain ⟨t, ht, hc₂⟩ := op_eq_done hop (by decide)
  have ht' : skip c'.rest = '=' :: t := hc₁.symm.trans ht
  obtain ⟨left, r₀, hleft, hr₀⟩ := sum_of_name hname (by rw [ht']; rfl) (by simp)
  obtain ⟨r₁, hrelation, hr₁⟩ := relationOp_of_equal (hr₀.trans ht')
  rw [expression_eq] at h
  obtain ⟨right, _, hsum, -⟩ := bind_eq_done.1 h
  obtain ⟨right', r₂, hsum', -⟩ :=
    exists_done_of_sameRest (lexis_sameRest.sum lexis_sameRest.expression) (hc₂.trans hr₁.symm) hsum
  refine ⟨left.join .equal right', r₂, ?_⟩
  rw [expression_eq]
  exact bind_of_done hleft <| bind_of_done (maybe_of_done hrelation) <| bind_of_done hsum' rfl

/-- What a counted loop begins with, behind its word, is an expression. -/
theorem expression_of_for (h : statement c = .done a r)
    (hfor : kw "FOR" c = .done () c₁) : ∃ e r', expression c₁ = .done e r' := by
  rw [statement_eq] at h
  obtain ⟨build, hkinds, -⟩ := statementOf_eq_done.1 h
  obtain ⟨hsame, -⟩ := kw_eq_word hfor (by decide)
  rcases orElse_eq_done hkinds with h | h
  · obtain ⟨_, _, hif, -⟩ := bind_eq_done.1 h
    have hnot := sameIgnoringCase_trans hsame (kw_eq_word hif (by decide)).1
    exact absurd hnot (by decide)
  rcases orElse_eq_done h with h | h
  · obtain ⟨_, c₂, hfor', h⟩ := bind_eq_done.1 h
    rw [hfor] at hfor'
    cases hfor'
    obtain ⟨w, c₃, hident, _, c₄, hequal, _, _, hinitial, -⟩ := bind₃_eq_done.1 h
    obtain ⟨_, c', hname, _, _, hblanks, hpure⟩ := bind₂_eq_done.1 hident
    cases hblanks
    cases hpure
    exact expression_of_equation hname rfl hequal hinitial
  · exact absurd h ((ledBy_laterKinds _).ne_done (w := "FOR") (by decide) hsame)

/-! ## Statements with a name in front -/

/-- A word that is not reserved is a name. -/
theorem name_of_keyword {x : String} (h : keyword v c = .done x c₁) (hv : Plain v)
    (hreserved : isReserved v = false) : ∃ w c', name c = .done w c' ∧ sameIgnoringCase w v := by
  obtain ⟨hsame, -⟩ := keyword_eq_word hv h
  refine ⟨leadingWord c.rest, c.drop (c.rest.takeWhile isNameChar).length, ?_, hsame⟩
  rw [name, identifier_apply, if_pos (start_of_same hsame hv)]
  simp only
  rw [if_neg]
  · rfl
  · rw [Bool.not_eq_true]
    exact (isReserved_of_same hsame).trans hreserved

/-- Behind the word stands what stands behind the name. -/
theorem skip_of_keyword {x : String} (hname : name c = .done w c')
    (h : keyword v c = .done x c₁) (hv : Plain v) : skip c₁.rest = skip c'.rest := by
  rw [(keyword_eq_word hv h).2, skip_dropWhile, (name_eq_word hname).2.2.1]

/-- The statements that begin with a name in any case. -/
def nameLed : Parser (Span → Statement) := labelStatement <|> assignment <|> callStatement

theorem kw_ne_done_of_name (h : name c = .done w c')
    (hv : Plain v ∧ isReserved v) : kw v c ≠ .done () r := by
  intro hkw
  have hnot := (name_eq_word h).2.2.2
  rw [isReserved_of_same (kw_eq_word hkw hv.1).1, hv.2] at hnot
  cases hnot

/-- Where a name stands, only `WAIT` and `WRITE` may be more than a name. -/
theorem statement_eq_nameLed (h : statement c = .done a r)
    (hname : name c = .done w c') : ∃ build span, a = build span ∧
      (waitForStatement c = .done build r ∨ transferStatement c = .done build r ∨
        nameLed c = .done build r) := by
  rw [statement_eq] at h
  obtain ⟨build, hkinds, ha⟩ := statementOf_eq_done.1 h
  have hkw {v : String} {f : Unit → Parser (Span → Statement)} {q : Parser (Span → Statement)}
      (hv : Plain v ∧ isReserved v) (h : (kw v >>= f <|> q) c = .done build r) :
      q c = .done build r := by
    refine (orElse_eq_done h).resolve_left fun h => ?_
    obtain ⟨_, _, hread, -⟩ := bind_eq_done.1 h
    exact kw_ne_done_of_name hname hv hread
  have hgoto {q : Parser (Span → Statement)} (h : (gotoStatement <|> q) c = .done build r) :
      q c = .done build r := by
    refine (orElse_eq_done h).resolve_left fun h => ?_
    obtain ⟨_, _, hgo, -⟩ := bind_eq_done.1 h
    rcases orElse_eq_done hgo with hgo | hgo
    · exact kw_ne_done_of_name hname (by decide) hgo
    · obtain ⟨_, _, hgo, -⟩ := seqRight_eq_done.1 hgo
      exact kw_ne_done_of_name hname (by decide) hgo
  refine ⟨build, _, ha, ?_⟩
  have hwait := hkw (by decide) <| hgoto <| hkw (by decide) <| hkw (by decide) <|
    hkw (by decide) <| hkw (by decide) <| hkw (by decide) <| hkw (by decide) hkinds
  refine (orElse_eq_done hwait).imp_right fun h => ?_
  exact orElse_eq_done (hkw (by decide) <| hkw (by decide) h)

/-- A transfer that begins with a name ends with arguments, perhaps behind the name of a file. -/
theorem arguments_of_transfer (hname : name c = .done w c')
    (h : transferStatement c = .done build r) : ∃ c₁ o c₂ es c₃, c₁.rest = skip c'.rest ∧
      maybe (lexeme name) c₁ = .done o c₂ ∧ arguments c₂ = .done es c₃ := by
  obtain ⟨_, _, hposition, h⟩ := bind_eq_done.1 h
  cases hposition
  obtain ⟨x, c₀, hverb, _, c₁, hblanks, o, c₂, hfile, es, c₃, harguments, -⟩ := bind₄_eq_done.1 h
  cases hblanks
  refine ⟨_, o, c₂, es, c₃, ?_, hfile, harguments⟩
  rcases orElse_eq_done hverb with hverb | hverb
  · exact skip_of_keyword hname hverb (by decide)
  · exact skip_of_keyword hname hverb (by decide)

/-- White space behind the name that a line begins with. -/
theorem lexeme_name_eq_done {x : String × Span} (h : lexeme name c = .done x r) :
    ∃ c', name c = .done x.1 c' ∧ r.rest = skip c'.rest := by
  obtain ⟨c', hname, hblanks⟩ := lexeme_eq_done h
  cases hblanks
  exact ⟨c', hname, rfl⟩

/-- A name makes a label only in front of two colons. -/
theorem label_ne_done (hname : name c = .done w c')
    (hhead : (skip c'.rest).head? ≠ some ':') : labelStatement c ≠ .done build r := by
  intro h
  obtain ⟨_, c₁, hname', h⟩ := bind_eq_done.1 h
  rw [hname] at hname'
  cases hname'
  obtain ⟨_, c₂, hspaces, _, _, hmark, -⟩ := bind₂_eq_done.1 h
  obtain ⟨t, ht, -⟩ := op_eq_done hmark (by decide)
  cases hspaces
  refine hhead ?_
  have hdrop : c'.rest.dropWhile isSpaceOrTab = "::".toList ++ t := by
    rw [← ht, Cursor.rest_drop, drop_length_takeWhile]
  rw [← skip_dropWhile, hdrop]
  exact congrArg List.head? (skip_cons (x := ':') rfl (by simp))

/-- What an assignment to a name reads: the suffixes, an equals sign, the value. -/
theorem assignment_eq_done (hname : name c = .done w c')
    (h : assignment c = .done build r) : ∃ base c₁ target c₂ c₃ value, c₁.rest = skip c'.rest ∧
      operand expression c = .done base c₁ ∧ suffixes base c₁ = .done target c₂ ∧
      op "=" c₂ = .done () c₃ ∧ expression c₃ = .done value r := by
  obtain ⟨target, c₂, hreference, h⟩ := bind_eq_done.1 h
  rw [reference_eq] at hreference
  obtain ⟨base, c₁, hoperand, hsuffixes⟩ := bind_eq_done.1 hreference
  obtain ⟨_, c₃, hop, value, r', hvalue, hpure⟩ := bind₂_eq_done.1 h
  cases hpure
  obtain ⟨e, r', hoperand', hr'⟩ := operand_of_name (q := expression) hname
  rw [hoperand] at hoperand'
  cases hoperand'
  exact ⟨base, c₁, target, c₂, c₃, value, hr', hoperand, hsuffixes, hop, hvalue⟩

/-- Where no suffix stands, the equals sign would have to. -/
theorem equals_ne_done {base : Expr} (hfailed : ∃ f, suffix expression c = .failed f)
    (hc : c.rest.head? ≠ some '=') (h : suffixes base c = .done target c₁) :
    op "=" c₁ ≠ .done () r := by
  rw [suffixes_of_failed hfailed] at h
  cases h
  exact fun hop => hc (head?_of_op hop (by decide))

/-- A name with nothing of its own behind it is a call. -/
theorem call_of_name (hname : name c = .done w c')
    (hhead : NoneOf ['[', '.', '(', '=', ':'] (skip c'.rest).head?)
    (h : nameLed c = .done build r) :
    r.rest = skip c'.rest ∧ ∃ ns, build = fun span => .call span w ns [] := by
  rcases orElse_eq_done h with h | h
  · exact absurd h (label_ne_done hname (hhead.ne (by decide)))
  rcases orElse_eq_done h with h | h
  · obtain ⟨base, c₁, target, c₂, c₃, value, hc₁, -, hsuffixes, hop, -⟩ :=
      assignment_eq_done hname h
    have hfailed : ∃ f, suffix expression c₁ = .failed f :=
      failsAt_suffix (fun b hb => hhead b (mem_append_left ['=', ':'] hb)) c₁ (by rw [hc₁])
    exact absurd hop (equals_ne_done hfailed (hc₁ ▸ (hhead.ne (by decide))) hsuffixes)
  · obtain ⟨x, c₁, hlexeme, o, c₂, harguments, hpure⟩ := bind₂_eq_done.1 h
    cases hpure
    obtain ⟨c'', hname', hc₁⟩ := lexeme_name_eq_done hlexeme
    rw [hname] at hname'
    cases hname'
    have hfailed : ∃ f, arguments c₁ = .failed f :=
      (failsAt_punct (hhead.ne (b := '(') (by decide))).bind c₁ (by rw [hc₁])
    rw [maybe_of_failed hfailed] at harguments
    cases harguments
    exact ⟨hc₁, x.2, rfl⟩

/-! ## Parentheses behind a name -/

/-- An expression in parentheses stands here. -/
def Enclosed (c : Cursor) : Prop :=
  ∃ t c₀ e r₀ t', c.rest = '(' :: t ∧ c₀.rest = skip t ∧ expression c₀ = .done e r₀ ∧
    r₀.rest = ')' :: t'

theorem enclosed_of_statement (h : statement c = .done a r)
    (hc : c.rest.head? = some '(') : Enclosed c := by
  obtain ⟨t, ht⟩ := head?_eq_some_iff.1 hc
  obtain ⟨build, hassignment⟩ := assignment_of_paren h hc
  obtain ⟨_, _, hreference, -⟩ := bind_eq_done.1 hassignment
  obtain ⟨_, _, hoperand, -⟩ := bind_eq_done.1 hreference
  obtain ⟨c₀, e₀, r₀, t', hc₀, hinner, hr₀, -⟩ := enclosed_of_operand hoperand ht
  exact ⟨t, c₀, e₀, r₀, t', ht, hc₀, hinner, hr₀⟩

/-- It may be taken for arguments. -/
theorem Enclosed.arguments (h : Enclosed c) (hcd : c.rest = d.rest) :
    ∃ es r, arguments d = .done es r := by
  obtain ⟨t, c₀, e, r₀, t', hc, hc₀, hinner, hr₀⟩ := h
  obtain ⟨build, r, hlist, -⟩ :=
    argumentList_of_enclosed (hcd.symm.trans hc) hc₀ hinner hr₀
  obtain ⟨es, r', harguments, -⟩ := arguments_of_argumentList hlist
  exact ⟨es, r', harguments⟩

/-- Parentheses behind a name hold arguments, if what follows them can be read at all. -/
theorem arguments_of_nameLed (hname : name c = .done w c')
    (hhead : (skip c'.rest).head? = some '(') (h : nameLed c = .done build r)
    (hr : r.rest.head? = some '(' → Enclosed r) (hd : d.rest = skip c'.rest) :
    ∃ es r', arguments d = .done es r' := by
  have hshared {c₁ : Cursor} {es : List Expr} {r₁ : Cursor} (hc₁ : c₁.rest = skip c'.rest)
      (h : arguments c₁ = .done es r₁) : ∃ es r', arguments d = .done es r' := by
    obtain ⟨es', r', hread, -⟩ := exists_done_of_sameRest lexis_sameRest.arguments
      (hc₁.trans hd.symm) h
    exact ⟨es', r', hread⟩
  rcases orElse_eq_done h with h | h
  · exact absurd h (label_ne_done hname (by rw [hhead]; simp))
  rcases orElse_eq_done h with h | h
  · -- an assignment needs the parentheses for a suffix
    obtain ⟨base, c₁, target, c₂, c₃, value, hc₁, -, hsuffixes, hop, -⟩ :=
      assignment_eq_done hname h
    have hopen : c₁.rest.head? = some '(' := by rw [hc₁, hhead]
    cases hsuffix : suffix expression c₁ with
    | done b c₄ =>
      obtain ⟨es, r', harguments, -⟩ :=
        arguments_of_argumentList ((suffix_eq_argumentList hopen).1 hsuffix)
      exact hshared hc₁ harguments
    | failed f =>
      exact absurd hop (equals_ne_done ⟨f, hsuffix⟩ (by rw [hopen]; simp) hsuffixes)
    | aborted f => exact absurd hsuffix (Retreats.ne_aborted c₁ f)
  · obtain ⟨x, c₁, hlexeme, o, c₂, harguments, hpure⟩ := bind₂_eq_done.1 h
    cases hpure
    obtain ⟨c'', hname', hc₁⟩ := lexeme_name_eq_done hlexeme
    rw [hname] at hname'
    cases hname'
    rcases maybe_eq_done harguments with ⟨es, -, hread⟩ | ⟨-, rfl⟩
    · exact hshared hc₁ hread
    · exact (hr (by rw [hc₁, hhead])).arguments (hc₁.trans hd.symm)

/-! ## Suffixes in front of an equals sign -/

/-- The text begins anew: nothing of it goes with a name in front, if an equals sign is to
follow. -/
inductive Fresh : List Char → Prop
  | other {t : List Char} (h : NoneOf ['[', '.', '(', '='] t.head?) : Fresh t
  | point {x : Char} {t : List Char} (hx : x.isDigit) : Fresh ('.' :: x :: t)
  | bracket {u : List Char} {x : Char} {t : List Char} (hu : Named u) (hx : isNameStart x) :
      Fresh ('[' :: (u ++ ']' :: x :: t))

theorem Fresh.append (h : Fresh t) (hne : t ≠ []) : Fresh (t ++ u) := by
  cases h with
  | other h =>
    obtain ⟨x, v, rfl⟩ := exists_cons_of_ne_nil hne
    exact .other h
  | point hx => exact .point hx
  | @bracket v x t hv hx =>
    rw [cons_append, append_assoc, cons_append, cons_append]
    exact .bracket hv hx

theorem fresh_of_all {q : Char → Bool}
    (hq : (['[', '.', '(', '='].all fun b => isMark b && !q b) = true)
    (h : t.head?.any q) : Fresh t :=
  .other (noneOf_of_all hq (all_of_any h))

theorem fresh_of_start (h : t.head?.any isNameStart) : Fresh t := fresh_of_all (by decide) h

theorem fresh_of_startsOperand (h : StartsOperand t) (hparen : t.head? ≠ some '(') : Fresh t := by
  cases h with
  | paren => exact absurd rfl hparen
  | digit hx => exact fresh_of_all (q := Char.isDigit) (by decide) (by simpa using hx)
  | point hx => exact .point hx
  | quote => exact fresh_of_all (q := (· == '\'')) (by decide) rfl
  | dollar => exact fresh_of_all (q := (· == '$')) (by decide) rfl
  | bracket hu hx => exact .bracket hu hx
  | word hx _ => exact fresh_of_start (by simpa using hx)

/-- Behind an operand, a point in front of a digit is no field. -/
theorem suffix_failed_of_point {x : Char} (hc : c.rest = '.' :: x :: t) (hx : x.isDigit) :
    ∃ f, suffix expression c = .failed f := by
  refine Retreats.failed fun build r h => ?_
  have hhead : c.rest.head? = some '.' := by rw [hc]; rfl
  have hsubscript : FailsAt (some '.') (subscript expression) := (failsAt_punct (by decide)).bind
  have hlist : FailsAt (some '.') (argumentList expression) := (failsAt_punct (by decide)).bind
  rw [suffix_eq, hsubscript.orElse_right_iff hhead, hlist.orElse_left_iff hhead] at h
  obtain ⟨_, _, hfield, -⟩ := bind_eq_done.1 h
  obtain ⟨f, hf⟩ := fieldName_failed hc hx
  rw [hf] at hfield
  cases hfield

/-- No equals sign is reached from there. -/
theorem Fresh.ne_done (h : Fresh c.rest)
    (hsuffixes : suffixes e c = .done target c₁) : op "=" c₁ ≠ .done () r := by
  have hnone {c : Cursor} {e : Expr} (h : NoneOf ['[', '.', '(', '='] c.rest.head?)
      (hsuffixes : suffixes e c = .done target c₁) : op "=" c₁ ≠ .done () r :=
    equals_ne_done (failsAt_suffix (fun b hb => h b (mem_append_left ['='] hb)) c rfl)
      (h.ne (by decide)) hsuffixes
  generalize hrest : c.rest = t at h
  cases h with
  | other h => exact hnone (hrest ▸ h) hsuffixes
  | point hx =>
    exact equals_ne_done (suffix_failed_of_point hrest hx) (by rw [hrest]; simp) hsuffixes
  | @bracket u x t hu hx =>
    cases hreserved : isReserved (String.ofList u) with
    | true =>
      obtain ⟨hword, hclose⟩ := word_of_named (t := x :: t) hu
      have hfailed := Retreats.failed fun build r =>
        suffix_ne_done_of_reserved hrest (by rwa [hword]) (by rw [hclose]; rfl)
      exact equals_ne_done hfailed (by rw [hrest]; simp) hsuffixes
    | false =>
      -- the bracket is a subscript, and behind it the name goes on
      obtain ⟨build, r', hsuffix, hr'⟩ := suffix_of_bracket hu hreserved hrest
      have hskip : skip r'.rest = x :: t := by
        rw [hr']
        exact skip_of_isOpening (by simp [isOpening, hx])
      obtain ⟨c₂, hc₂, heq⟩ := suffixes_of_done (e := e) hsuffix
      rw [heq] at hsuffixes
      refine hnone (noneOf_of_all (q := isNameStart) (by decide) ?_) hsuffixes
      rw [hc₂, hskip]
      exact hx

/-- The same text behind two expressions is read as the same suffixes. -/
theorem exists_suffixes {e' : Expr} (h : suffixes e c = .done target r)
    (hcd : c.rest = d.rest) :
    ∃ target' r', suffixes e' d = .done target' r' ∧ r'.rest = r.rest := by
  have hitem : Agrees SameRest SameRest
      (do let s ← spanned (suffix expression); blanks; return s) fun _ _ => True :=
    ((lexis_sameRest.suffix lexis_sameRest.expression).spanned_of_ne_nil (P := fun _ _ => True)
      (fun _ _ _ _ => trivial) fun _ _ _ => trivial).bind fun _ _ _ =>
      (keeps_blanks_sameRest.of_imp fun _ _ h => h.1).bind fun _ _ _ => .pure trivial
  have hkeeps : Keeps SameRest SameRest (fun _ _ => True) (suffixes e) (suffixes e') :=
    hitem.many.bind fun _ _ _ => .pure trivial
  exact exists_done_of_sameRest hkeeps hcd h

theorem head?_of_argumentList {q : Parser Expr} {build : Span → Expr → Expr}
    (h : argumentList q c = .done build r) : c.rest.head? = some '(' :=
  head?_of_bind (fun _ _ => head?_of_punct) h

theorem exists_argumentList {build : Span → Expr → Expr}
    (h : argumentList expression c = .done build r) (hcd : c.rest = d.rest) :
    ∃ build' r', argumentList expression d = .done build' r' ∧ r'.rest = r.rest := by
  have hhead := head?_of_argumentList h
  obtain ⟨build', r', hread, -, hr, -⟩ := (lexis_sameRest.suffix
    lexis_sameRest.expression).exists_right hcd ((suffix_eq_argumentList hhead).2 h)
  exact ⟨build', r', (suffix_eq_argumentList (hcd ▸ hhead)).1 hread, hr.symm⟩

/-- Arguments are one suffix, and others may follow. -/
theorem suffixes_of_argumentList {build : Span → Expr → Expr}
    (h : argumentList expression c = .done build r) (e : Expr) :
    ∃ e' c', c'.rest = skip r.rest ∧ suffixes e c = suffixes e' c' := by
  obtain ⟨c', hc', heq⟩ :=
    suffixes_of_done (e := e) ((suffix_eq_argumentList (head?_of_argumentList h)).2 h)
  exact ⟨_, c', hc', heq⟩

/-- Parentheses that begin a statement lead to an equals sign as a suffix as well. -/
theorem equation_of_paren (h : statement c = .done a r)
    (hc : c.rest.head? = some '(') (hcd : c.rest = d.rest) (e : Expr) :
    ∃ target d₁ d₂ value r', suffixes e d = .done target d₁ ∧
      op "=" d₁ = .done () d₂ ∧ expression d₂ = .done value r' := by
  obtain ⟨t, ht⟩ := head?_eq_some_iff.1 hc
  obtain ⟨build, hassignment⟩ := assignment_of_paren h hc
  obtain ⟨target, c₂, hreference, _, c₃, hop, value, _, hvalue, -⟩ := bind₃_eq_done.1 hassignment
  rw [reference_eq] at hreference
  obtain ⟨base, c₁, hoperand, hsuffixes⟩ := bind_eq_done.1 hreference
  obtain ⟨c₀, e₀, r₀, t', hc₀, hinner, hr₀, hc₁⟩ := enclosed_of_operand hoperand ht
  obtain ⟨b, r', hlist, hr'⟩ := argumentList_of_enclosed
    (hcd.symm.trans ht) hc₀ hinner hr₀
  obtain ⟨e', d₁, hd₁, heq⟩ := suffixes_of_argumentList hlist e
  rw [hr'] at hd₁
  obtain ⟨target', d₂, hread, hd₂⟩ := exists_suffixes hsuffixes (hc₁.trans hd₁.symm)
  obtain ⟨_, d₃, hop', hd₃⟩ :=
    exists_done_of_sameRest lexis_sameRest.op hd₂.symm hop
  obtain ⟨value', r'', hvalue', -⟩ :=
    exists_done_of_sameRest lexis_sameRest.expression hd₃.symm hvalue
  exact ⟨target', d₂, d₃, value', r'', heq.trans hread, hop', hvalue'⟩

/-! ## Arguments without formats -/

/-- Behind the expression the argument is at its end or goes on with a format. -/
theorem expression_of_argument (h : argument c = .done e r) :
    ∃ r', expression c = .done e r' ∧ (r' = r ∨ r'.rest.head? = some ':') := by
  obtain ⟨e', r', hexpression, formats, r'', hformats, hpure⟩ := bind₂_eq_done.1 h
  cases hpure
  refine ⟨r', hexpression, ?_⟩
  cases many_eq_done.1 hformats with
  | nil => exact .inl rfl
  | cons hformat _ _ =>
    obtain ⟨_, _, hmark, -⟩ := seqRight_eq_done.1 hformat
    exact .inr (head?_of_op hmark (by decide))

/-- Without their formats, the arguments are read to the end or up to the first format. -/
theorem sepTail_of_argument (h : sepTail (punct ',') argument c = .done es r)
    (hr : r.rest.head? = some ')') : ∃ es' r', sepTail (punct ',') expression c = .done es' r' ∧
      (r' = r ∨ r'.rest.head? = some ':') := by
  induction sepTail_eq_done.1 h with
  | nil => exact ⟨[], _, sepTail_of_head? (by simp) hr, .inl rfl⟩
  | @cons c next r e es hread hlt hrest ih =>
    obtain ⟨_, _, hsep, hitem⟩ := seqRight_eq_done.1 hread
    obtain ⟨next', hexpression, hnext⟩ := expression_of_argument hitem
    have hread' := seqRight_eq_done.2 ⟨_, _, hsep, hexpression⟩
    rcases hnext with rfl | hcolon
    · obtain ⟨es', r', htail, hr'⟩ := ih (sepTail_eq_done.2 hrest) hr
      exact ⟨e :: es', r', sepTail_eq_done.2 (.cons hread' hlt (sepTail_eq_done.1 htail)), hr'⟩
    · have hend := sepTail_eq_done.1 (sepTail_of_head? (q := expression) (by simp) hcolon)
      exact ⟨[e], next', sepTail_eq_done.2 (.cons hread' (length_lt_of_done hread') hend),
        .inr hcolon⟩

theorem sepBy_of_argument (h : sepBy (punct ',') argument c = .done es r)
    (hr : r.rest.head? = some ')') : ∃ es' r', sepBy (punct ',') expression c = .done es' r' ∧
      (r' = r ∨ r'.rest.head? = some ':') := by
  rcases sepBy_eq_done.1 h with ⟨-, rfl, rfl⟩ | ⟨e, next, es, hitem, hrest, rfl⟩
  · exact ⟨[], _, sepBy_eq_done.2 (.inl ⟨failsAt_expression (by decide) _ hr, rfl, rfl⟩), .inl rfl⟩
  obtain ⟨next', hexpression, hnext⟩ := expression_of_argument hitem
  obtain ⟨es', r', htail, hr'⟩ : ∃ es' r', sepTail (punct ',') expression next' = .done es' r' ∧
      (r' = r ∨ r'.rest.head? = some ':') := by
    rcases hnext with rfl | hcolon
    · exact sepTail_of_argument hrest hr
    · exact ⟨[], next', sepTail_of_head? (by simp) hcolon, .inr hcolon⟩
  exact ⟨e :: es', r', sepBy_eq_done.2 (.inr ⟨e, next', es', hexpression, htail, rfl⟩), hr'⟩

/-- Arguments without a format may stand behind an operand. -/
theorem argumentList_of_arguments (h : arguments c = .done es r) :
    (∃ build r', argumentList expression c = .done build r' ∧ skip r'.rest = r.rest) ∨
      ∃ c₁ es' r', punct '(' c = .done () c₁ ∧
        sepBy (punct ',') expression c₁ = .done es' r' ∧ r'.rest.head? = some ':' := by
  obtain ⟨_, c₁, hopen, _, r₁, hitems, _, r₂, hclose, hpure⟩ := bind₃_eq_done.1 h
  cases hpure
  obtain ⟨t, ht, hr₂⟩ := op_eq_done hclose (by decide)
  obtain ⟨es', r', hread, rfl | hcolon⟩ := sepBy_of_argument hitems (head?_of_op hclose (by decide))
  · obtain ⟨r₃, hchar, hr₃⟩ := reaches_char (x := ')') (s := t) ht
    exact .inl ⟨fun span base => .call span base es', r₃, bind_of_done hopen <|
      bind_of_done hread <| bind_of_done hchar rfl, by rw [hr₃, hr₂]⟩
  · exact .inr ⟨c₁, es', r', hopen, hread, hcolon⟩

end RobotSource.Karel.Grammar
