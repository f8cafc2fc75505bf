import RobotSource.Proofs.Karel.Grammar.Progress
import RobotSource.Proofs.Karel.Grammar.Spelling
/-!
# What is printed is read back

An expression in good form is printed as a text that the grammar reads as the same expression, places
aside. A printed operand is followed by nothing, by a bracket, a comma or a point, or by a space and
an operator (`Fence`, `Ends`). From there on a rule goes its own way, which `Resumes` keeps open: the
chains of operators and suffixes take the operand that has been read as their first and go on behind
it.

The rules are taken in turn, from the operands up to relations (`Reread`), and every kind of
expression enters at the rule of its rank.
-/

namespace RobotSource.Karel.Grammar

open Parsing Parsing.Parser Text List

variable {α : Type} {c d r : Cursor} {u t : List Char} {e : Expr} {n k : Nat}
variable {o : BinaryOp} {s : List Char}

/-! ## What follows an expression -/

/-- The characters that may stand directly behind a printed expression. -/
def fences : List Char := [' ', ',', ')', ']', '[', '(', '.']

/-- The text may stand directly behind a printed expression. -/
def Fence (t : List Char) : Prop := ∀ x, t.head? = some x → x ∈ fences

theorem Fence.any_eq_false {q : Char → Bool} (h : Fence t) (hq : (fences.all (!q ·)) = true) :
    t.head?.any q = false := by
  cases hhead : t.head? with
  | none => rfl
  | some x => simpa using List.all_eq_true.1 hq x (h x hhead)

theorem Fence.all_eq_true {q : Char → Bool} (h : Fence t) (hq : fences.all q) :
    t.head?.all q := by
  cases hhead : t.head? with
  | none => rfl
  | some x => simpa using List.all_eq_true.1 hq x (h x hhead)

theorem Fence.not_isWord (h : Fence t) : t.head?.any isWord = false :=
  h.any_eq_false (by decide)

theorem Fence.not_isNameChar (h : Fence t) : t.head?.any isNameChar = false :=
  h.any_eq_false (by decide)

theorem Fence.all_isMark (h : Fence t) : t.head?.all isMark :=
  h.all_eq_true (by decide)

theorem Fence.endsNumber (h : Fence t) (hpoint : t.head? ≠ some '.') : EndsNumber t := by
  rw [EndsNumber]
  cases hhead : t.head? with
  | none => rfl
  | some x =>
    have hall : (fences.all fun x =>
        x == '.' || !x.isDigit && x != '.' && x != 'e' && x != 'E') = true := by decide
    have hx := List.all_eq_true.1 hall x (h x hhead)
    have hne : x ≠ '.' := fun heq => hpoint (by rw [hhead, heq])
    simpa [hne] using hx

/-- The spelling of an operator. -/
def opChars (o : BinaryOp) : List Char := o.text.toList

/-- Nothing follows, or a comma or closing bracket, or an operator looser than the rank. -/
inductive Ends (k : Nat) : List Char → Prop
  | nil : Ends k []
  | close {x : Char} {t : List Char} (hx : x = ',' ∨ x = ')' ∨ x = ']') : Ends k (x :: t)
  | op {o : BinaryOp} {t : List Char} (ho : k < opRank o) : Ends k (' ' :: opChars o ++ ' ' :: t)

theorem Ends.mono {j : Nat} (h : Ends k t) (hle : j ≤ k) : Ends j t := by
  cases h with
  | nil => exact .nil
  | close hx => exact .close hx
  | op ho => exact .op (Nat.lt_of_le_of_lt hle ho)

theorem Ends.fence (h : Ends k t) : Fence t := by
  intro x hx
  cases h with
  | nil => cases hx
  | close hclose =>
    cases hx
    rcases hclose with rfl | rfl | rfl <;> simp [fences]
  | op ho =>
    cases hx
    simp [fences]

theorem Ends.head?_ne_point (h : Ends k t) : t.head? ≠ some '.' := by
  cases h with
  | nil => simp
  | close hx => rcases hx with rfl | rfl | rfl <;> simp
  | op ho => simp

/-- No operator begins with white space or makes up a comment. -/
theorem skip_op (o : BinaryOp) : skip (' ' :: opChars o ++ ' ' :: t) = opChars o ++ ' ' :: t := by
  rw [cons_append, skip_cons_of_isSpacing rfl]
  cases o <;> simp [opChars, BinaryOp.text] <;> exact skip_cons rfl (by simp)

theorem skip_close {x : Char} (hx : x = ',' ∨ x = ')' ∨ x = ']') : skip (x :: t) = x :: t := by
  rcases hx with rfl | rfl | rfl <;> exact skip_cons rfl (by simp)

/-- The operators. -/
def operators : List BinaryOp :=
  [.or, .and, .equal, .notEqual, .less, .lessEqual, .greater, .greaterEqual, .add, .subtract,
    .multiply, .divide, .integerDivide, .modulo]

/-- What may begin behind an expression of the rank, white space aside. -/
def followers (k : Nat) : List (Option Char) :=
  [none, some ',', some ')', some ']'] ++
    (operators.filter (k < opRank ·)).map fun o => (opChars o).head?

theorem Ends.head?_skip (h : Ends k t) : (skip t).head? ∈ followers k := by
  cases h with
  | nil => simp [followers]
  | close hx =>
    rw [skip_close hx]
    rcases hx with rfl | rfl | rfl <;> simp [followers]
  | @op o t ho =>
    rw [skip_op]
    refine mem_append_right _ (mem_map.2 ⟨o, ?_, ?_⟩)
    · refine mem_filter.2 ⟨?_, by simpa using ho⟩
      cases o <;> simp [operators]
    · cases o <;> rfl

/-- Behind an expression a parser fails if none of its first characters may stand there. -/
theorem Ends.exists_failed {p : Parser α} {bs : List Char} (h : Ends k t)
    (hp : ∀ x, NoneOf bs x → FailsAt x p)
    (hbs : ((followers k).all fun x => bs.all fun b => x.map lowerCase != some (lowerCase b)) = true)
    (hr : r.rest = skip t) : ∃ e, p r = .failed e := by
  refine hp r.rest.head? (fun b hb => ?_) r rfl
  have hx := List.all_eq_true.1 (List.all_eq_true.1 hbs _ h.head?_skip) b hb
  rw [hr]
  simpa using hx

/-! ## Chains -/

/-- Reading comes to the tail: the expression has been read, places aside, and the white space behind
it. -/
def Resumes (p : Parser Expr) (tail : Expr → Parser Expr) (e : Expr) (t : List Char) (c : Cursor) :
    Prop :=
  ∃ e' r, e'.unplaced = e.unplaced ∧ r.rest = skip t ∧ p c = tail e' r

/-- The suffixes behind an operand. -/
def suffixes (e : Expr) : Parser Expr := do
  let ss ← many (do let s ← spanned (suffix expression); blanks; return s)
  return ss.foldl (fun e (build, span) => build (e.span.cover span) e) e

theorem reference_eq : reference expression = operand expression >>= suffixes := rfl

theorem suffixes_of_failed (h : ∃ e, suffix expression c = .failed e) :
    suffixes e c = .done e c := by
  obtain ⟨f, hf⟩ := h
  have hspanned : ∃ f, spanned (suffix expression) c = .failed f :=
    ⟨f.noticeEnd, by rw [spanned, noticingEnd, bind_apply, position]; simp only [bind_apply, hf]⟩
  obtain ⟨f, hf⟩ := hspanned
  rw [suffixes, bind_apply, many, bind_apply, hf]
  rfl

theorem suffixes_of_done {build : Span → Expr → Expr} (h : suffix expression c = .done build d) :
    ∃ r, r.rest = skip d.rest ∧ suffixes e c =
      suffixes (build (e.span.cover ⟨c.position, d.position⟩) e) r := by
  obtain ⟨r, hblanks, hr⟩ := reaches_blanks d
  have hstep : (do let s ← spanned (suffix expression); blanks; return s : Parser _) c =
      .done (build, ⟨c.position, d.position⟩) r :=
    bind_of_done (spanned_eq_done.2 ⟨build, h, rfl⟩) <| bind_of_done hblanks rfl
  refine ⟨r, hr, ?_⟩
  rw [suffixes, bind_apply, many, hstep]
  simp only [length_lt_of_done hstep, if_true]
  rw [suffixes, bind_apply]
  cases many (do let s ← spanned (suffix expression); blanks; return s) r <;> rfl

theorem chainTail_of_failed {p : Parser Expr} {o : Parser BinaryOp} (h : ∃ e, o c = .failed e) :
    chainTail p o Expr.join e c = .done e c := by
  obtain ⟨f, hf⟩ := h
  rw [chainTail, hf]

theorem chainTail_of_done {p : Parser Expr} {o : Parser BinaryOp} [Consumes p] [Consumes o]
    {op : BinaryOp} {right : Expr} (ho : o c = .done op d) (hp : p d = .done right r) :
    chainTail p o Expr.join e c = chainTail p o Expr.join (e.join op right) r := by
  rw [chainTail, ho]
  simp only [hp, (length_lt_of_done hp).trans (length_lt_of_done ho), if_true]

/-! ## Operators -/

/-- Marks that do not stand there are not read. -/
theorem op_failed {sym : String} {v : List Char} (hmarks : (sym.toList.all isMark) = true)
    (hc : c.rest = v) (h : ¬ sym.toList <+: v) : ∃ e, op sym c = .failed e := by
  have hmatch : matchLength? sym.toList c.rest = none := by
    rw [matchLength?_marks (List.all_eq_true.1 hmarks), hc, if_neg h]
  exact ⟨_, by rw [op, bind_apply, symbol, hmatch]⟩

theorem not_isWord_space : (' ' :: t).head?.any isWord = false := by
  rw [head?_cons, Option.any_some]
  decide

theorem reaches_orElse {p : Parser Unit} {q : Parser BinaryOp} {o' : BinaryOp}
    (hfailed : ∃ e, p c = .failed e) (h : Reaches q c o s) : Reaches ((p *> pure o') <|> q) c o s :=
  .orElse_of_failed (hfailed.imp fun _ => map_eq_failed.2) h

/-- An operator of marks is passed over where another one stands. -/
theorem reaches_orElse_op {q : Parser BinaryOp} {o' : BinaryOp} {sym : String}
    (hc : c.rest = opChars o ++ ' ' :: t) (h : Reaches q c o s)
    (hmarks : (sym.toList.all isMark) = true := by decide)
    (hnot : ¬ sym.toList <+: opChars o ++ ' ' :: t := by simp [opChars, BinaryOp.text]) :
    Reaches ((op sym *> pure o') <|> q) c o s :=
  reaches_orElse (op_failed hmarks hc hnot) h

theorem reaches_productOp (ho : opRank o = 2) (hc : c.rest = opChars o ++ ' ' :: t) :
    Reaches productOp c o (skip t) := by
  have hspace : skip (' ' :: t) = skip t := skip_cons_of_isSpacing rfl
  rw [← hspace]
  cases o with
  | multiply => exact .orElse (.seqRight_pure (reaches_op hc))
  | divide =>
    exact reaches_orElse_op hc <| .orElse (.seqRight_pure (reaches_op hc))
  | integerDivide =>
    exact reaches_orElse_op hc <| reaches_orElse_op hc <|
      .orElse (.seqRight_pure (reaches_kw hc not_isWord_space))
  | modulo =>
    have hhead : c.rest.head? = some 'M' := by rw [hc]; rfl
    exact reaches_orElse_op hc <| reaches_orElse_op hc <|
      reaches_orElse (failsAt_word (by decide) c hhead) <|
      .orElse (.seqRight_pure (reaches_kw hc not_isWord_space))
  | and =>
    have hhead : c.rest.head? = some 'A' := by rw [hc]; rfl
    exact reaches_orElse_op hc <| reaches_orElse_op hc <|
      reaches_orElse (failsAt_word (by decide) c hhead) <|
      reaches_orElse (failsAt_word (by decide) c hhead) <|
      .seqRight_pure (reaches_kw hc not_isWord_space)
  | _ => cases ho

theorem reaches_sumOp (ho : opRank o = 4) (hc : c.rest = opChars o ++ ' ' :: t) :
    Reaches sumOp c o (skip t) := by
  have hspace : skip (' ' :: t) = skip t := skip_cons_of_isSpacing rfl
  rw [← hspace]
  cases o with
  | add => exact .orElse (.seqRight_pure (reaches_op hc))
  | subtract =>
    exact reaches_orElse_op hc <| .orElse (.seqRight_pure (reaches_op hc))
  | or =>
    exact reaches_orElse_op hc <| reaches_orElse_op hc <|
      .seqRight_pure (reaches_kw hc not_isWord_space)
  | _ => cases ho

theorem reaches_relationOp (ho : opRank o = 5) (hc : c.rest = opChars o ++ ' ' :: t) :
    Reaches relationOp c o (skip t) := by
  have hspace : skip (' ' :: t) = skip t := skip_cons_of_isSpacing rfl
  rw [← hspace]
  cases o with
  | lessEqual => exact .orElse (.seqRight_pure (reaches_op hc))
  | greaterEqual =>
    exact reaches_orElse_op hc <| .orElse (.seqRight_pure (reaches_op hc))
  | notEqual =>
    exact reaches_orElse_op hc <| reaches_orElse_op hc <|
      .orElse (.seqRight_pure (reaches_op hc))
  | equal =>
    exact reaches_orElse_op hc <| reaches_orElse_op hc <| reaches_orElse_op hc <|
      .orElse (.seqRight_pure (reaches_op hc))
  | less =>
    exact reaches_orElse_op hc <| reaches_orElse_op hc <| reaches_orElse_op hc <|
      reaches_orElse_op hc <| .orElse (.seqRight_pure (reaches_op hc))
  | greater =>
    exact reaches_orElse_op hc <| reaches_orElse_op hc <| reaches_orElse_op hc <|
      reaches_orElse_op hc <| reaches_orElse_op hc <|
      .seqRight_pure (reaches_op hc)
  | _ => cases ho

/-! ## The rules in turn -/

/-- A rule reads the printed expression back, up to its tail, if what follows is of the kind. -/
def Rereads (p : Parser Expr) (tail : Expr → Parser Expr) (follows : List Char → Prop) (e : Expr) :
    Prop :=
  ∀ c t, c.rest = e.printed ++ t → follows t → Resumes p tail e t c

/-- The further factors of a product. -/
def factors : Expr → Parser Expr := chainTail (negation expression) productOp Expr.join

/-- The further terms of a sum. -/
def terms : Expr → Parser Expr := chainTail (signed expression) sumOp Expr.join

/-- A point may follow an operand, unless it is a number. -/
def EndsOperand (e : Expr) (t : List Char) : Prop :=
  Fence t ∧ (e.isNumber = true → t.head? ≠ some '.')

theorem Ends.endsOperand (h : Ends k t) : EndsOperand e t := ⟨h.fence, fun _ => h.head?_ne_point⟩

/-- The expression is read back as an operand. -/
abbrev RereadsOperand (e : Expr) : Prop :=
  Rereads (reference expression) suffixes (EndsOperand e) e

/-- The expression is read back as a product, and likewise by the other rules. -/
abbrev RereadsProduct (e : Expr) : Prop := Rereads (product expression) factors (Ends 1) e

abbrev RereadsNegation (e : Expr) : Prop := Rereads (negation expression) pure (Ends 1) e

abbrev RereadsSum (e : Expr) : Prop := Rereads (sum expression) terms (Ends 3) e

abbrev RereadsSigned (e : Expr) : Prop := Rereads (signed expression) pure (Ends 3) e

abbrev RereadsRelation (e : Expr) : Prop := Rereads expression pure (Ends 5) e

/-- The expression is read back by every rule that its rank allows; the others are left out. -/
structure Reread (e : Expr) : Prop where
  reference : e.rank = 0 → RereadsOperand e := by intro; omega
  negation : e.rank ≤ 1 → RereadsNegation e := by intro; omega
  product : e.rank ≤ 2 → RereadsProduct e := by intro; omega
  signed : e.rank ≤ 3 → RereadsSigned e := by intro; omega
  sum : e.rank ≤ 4 → RereadsSum e := by intro; omega
  relation : RereadsRelation e

/-- Another first letter than that of the keyword. -/
theorem kw_failed {word : String} {x : Char} {v : List Char} (hc : c.rest = x :: v)
    (h : FailsAt.beginsApart x word.toList = true := by decide) : ∃ f, kw word c = .failed f :=
  failsAt_word (x := x) h c (by rw [hc]; rfl)

/-- Before an operand no negation stands. -/
theorem kw_not_failed (h : e.Formed) (hrank : e.rank = 0) (hc : c.rest = e.printed ++ t)
    (ht : Fence t) : ∃ f, kw "NOT" c = .failed f := by
  have hfence {x : Char} {s : List Char} (hx : x ∈ fences) : Fence (x :: s) := by
    rintro y ⟨⟩
    exact hx
  induction h generalizing t with
  | number h =>
    obtain ⟨x, s, hxs, hx⟩ := h.exists_cons
    rw [Expr.printed, hxs] at hc
    refine failsAt_kw (x := x) (b := 'N') rfl (fun heq => ?_) c (by rw [hc]; rfl)
    rcases hx with hx | rfl
    · rw [Option.map_some, lowerCase_of_isDigit hx] at heq
      rw [singleton_inj.1 (Option.some_inj.1 heq)] at hx
      cases hx
    · exact absurd heq (by decide)
  | string _ => exact kw_failed hc
  | @boolean _ value => cases value <;> exact kw_failed hc
  | @identifier _ name h hreserved _ =>
    have hne : sameIgnoringCase name "NOT" = false := by
      refine Bool.eq_false_iff.2 fun hsame => ?_
      have hmem : "NOT" ∈ reservedWords := by simp [reservedWords]
      rw [isReserved, any_eq_false] at hreserved
      exact hreserved _ hmem hsame
    have hkeyword : ∃ f, keyword "NOT" c = .failed f :=
      keyword_failed_of_name (by decide) (by decide) h.chars hc ht.all_isMark hne
    obtain ⟨f, hf⟩ := hkeyword
    exact ⟨f, by rw [kw, bind_apply, hf]⟩
  | system htext _ =>
    rw [Expr.printed, htext] at hc
    exact kw_failed hc
  | programVariable _ _ => exact kw_failed hc
  | index _ hbase _ _ ih _ =>
    rw [Expr.printed, append_assoc, append_assoc] at hc
    exact ih hbase hc (hfence (by simp [fences]))
  | field _ hbase _ ih =>
    rw [Expr.printed, append_assoc] at hc
    exact ih hbase hc (hfence (by simp [fences]))
  | call _ hbase _ ih _ =>
    rw [Expr.printed, append_assoc, append_assoc] at hc
    exact ih hbase hc (hfence (by simp [fences]))
  | not _ _ _ => cases hrank
  | @sign _ op _ hop _ _ _ => cases op <;> first | exact absurd rfl hop | cases hrank
  | @binary _ op _ _ _ _ _ _ _ _ => cases op <;> cases hrank
  | paren _ _ => exact kw_failed hc

theorem rereads_negation (hformed : e.Formed) (hrank : e.rank = 0)
    (h : RereadsOperand e) : RereadsNegation e := by
  intro c t hc ht
  obtain ⟨e', r, he', hr, hread⟩ := h c t hc ht.endsOperand
  have hnot : ∃ f, (do let start ← position; kw "NOT"; return start : Parser Position) c =
      .failed f := by
    obtain ⟨f, hf⟩ := kw_not_failed hformed hrank hc ht.fence
    exact ⟨f, by rw [bind_apply, position]; simp only [bind_apply, hf]⟩
  obtain ⟨f, hf⟩ := hnot
  have hend := suffixes_of_failed (e := e') (c := r)
    (ht.exists_failed (fun _ => failsAt_suffix) (by decide) hr)
  refine ⟨e', r, he', hr, ?_⟩
  rw [negation, bind_apply, many, hf]
  simp only
  rw [bind_apply, hread, hend]
  rfl

theorem rereads_product (h : RereadsNegation e) :
    RereadsProduct e := by
  intro c t hc ht
  obtain ⟨e', r, he', hr, hread⟩ := h c t hc ht
  exact ⟨e', r, he', hr, by rw [product, chainLeft, bind_apply, hread]; rfl⟩

/-- A product is over where no operator of a product follows. -/
theorem factors_of_ends (ht : Ends 2 t) (hr : r.rest = skip t) : factors e r = .done e r :=
  chainTail_of_failed (ht.exists_failed (fun _ => failsAt_productOp) (by decide) hr)

theorem rereads_signed (hopens : Opens e.printed) (h : RereadsProduct e) :
    RereadsSigned e := by
  intro c t hc ht
  obtain ⟨e', r, he', hr, hread⟩ := h c t hc (ht.mono (by decide))
  have hsign : ∃ f, sign c = .failed f := by
    obtain ⟨x, s, hx, hopening⟩ := hopens
    refine failsAt_sign (x := x) (fun b hb heq => ?_) c (by rw [hc, hx]; rfl)
    have hmark : isMark b := by
      simp only [mem_cons, not_mem_nil, or_false] at hb
      rcases hb with rfl | rfl <;> decide
    rw [Option.map_some, Option.some_inj] at heq
    rw [eq_of_lowerCase_eq_mark hmark heq] at hopening
    simp only [mem_cons, not_mem_nil, or_false] at hb
    rcases hb with rfl | rfl <;> exact absurd hopening (by decide)
  refine ⟨e', r, he', hr, ?_⟩
  rw [signed, bind_apply, position]
  simp only
  rw [bind_apply, maybe_of_failed hsign]
  simp only
  rw [hread, factors_of_ends (ht.mono (by decide)) hr]
  rfl

theorem rereads_sum (h : RereadsSigned e) : RereadsSum e := by
  intro c t hc ht
  obtain ⟨e', r, he', hr, hread⟩ := h c t hc ht
  exact ⟨e', r, he', hr, by rw [sum, chainLeft, bind_apply, hread]; rfl⟩

/-- A sum is over where no operator of a sum follows. -/
theorem terms_of_ends (ht : Ends 4 t) (hr : r.rest = skip t) : terms e r = .done e r :=
  chainTail_of_failed (ht.exists_failed (fun _ => failsAt_sumOp) (by decide) hr)

theorem rereads_relation (h : RereadsSum e) : RereadsRelation e := by
  intro c t hc ht
  obtain ⟨e', r, he', hr, hread⟩ := h c t hc (ht.mono (by decide))
  have hop := ht.exists_failed (fun _ => failsAt_relationOp) (by decide) hr
  refine ⟨e', r, he', hr, ?_⟩
  rw [expression_eq, relation, bind_apply, hread, terms_of_ends (ht.mono (by decide)) hr]
  simp only
  rw [bind_apply, maybe_of_failed hop]

namespace Reread

theorem of_relation (hrank : e.rank = 5) (h : RereadsRelation e) :
    Reread e where
  relation := h

theorem of_sum (hrank : e.rank = 4) (h : RereadsSum e) : Reread e where
  sum _ := h
  relation := rereads_relation h

theorem of_signed (hrank : e.rank = 3) (h : RereadsSigned e) :
    Reread e where
  signed _ := h
  sum _ := rereads_sum h
  relation := rereads_relation (rereads_sum h)

theorem of_product (hrank : e.rank = 2) (hopens : Opens e.printed)
    (h : RereadsProduct e) : Reread e where
  product _ := h
  signed _ := rereads_signed hopens h
  sum _ := rereads_sum (rereads_signed hopens h)
  relation := rereads_relation (rereads_sum (rereads_signed hopens h))

theorem of_negation (hrank : e.rank = 1) (hopens : Opens e.printed)
    (h : RereadsNegation e) : Reread e where
  negation _ := h
  product _ := rereads_product h
  signed _ := rereads_signed hopens (rereads_product h)
  sum _ := rereads_sum (rereads_signed hopens (rereads_product h))
  relation := rereads_relation (rereads_sum (rereads_signed hopens (rereads_product h)))

theorem of_reference (hformed : e.Formed) (hrank : e.rank = 0)
    (h : RereadsOperand e) : Reread e := by
  have hopens := hformed.opens (by omega)
  have hnegation := rereads_negation hformed hrank h
  have hproduct := rereads_product hnegation
  have hsum := rereads_sum (rereads_signed hopens hproduct)
  exact ⟨fun _ => h, fun _ => hnegation, fun _ => hproduct, fun _ => rereads_signed hopens hproduct,
    fun _ => hsum, rereads_relation hsum⟩

end Reread

end RobotSource.Karel.Grammar
