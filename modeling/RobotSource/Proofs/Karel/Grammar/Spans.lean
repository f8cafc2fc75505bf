import RobotSource.Karel.Grammar.Program
import RobotSource.Proofs.Karel.Grammar.Placing
/-!
# The spans that the rules give

Rule by rule, what is read from a place on is in place: its nodes end behind their last tokens, and
each of them holds the nodes of its parts.
-/

namespace RobotSource.Karel.Grammar

open Parsing Parsing.Parser Text List

variable {α : Type} {text : List Char} {b c r : Cursor} {ns : List Node}

/-! ## Expressions -/

/-- A point with a field behind it is a token, as no digit follows. -/
theorem tokenLength?_point {field : String} {t : List Char} (hc : c.rest = '.' :: t)
    (h : (name <|> systemName) (c.drop 1) = .done field r) : tokenLength? c.rest = some 1 := by
  have hrest : (c.drop 1).rest = t := by
    rw [Cursor.rest_drop, hc]
    rfl
  have hdigit : t.head?.any Char.isDigit = false := by
    by_contra hdigit
    obtain ⟨x, s, rfl, hx⟩ := exists_cons_of_any (by simpa using hdigit)
    have hname : isNameStart x = false := by
      by_contra hname
      rw [not_isDigit_of_isNameStart (by simpa using hname)] at hx
      cases hx
    have hdollar : some x ≠ some '$' := by
      rintro heq
      cases heq
      exact absurd hx (by decide)
    have hfails : FailsAt (some x) (name <|> systemName) :=
      (failsAt_name (by simpa using hname)).orElse (failsAt_systemName hdollar)
    exact hfails.ne_done (by rw [hrest]; rfl) h
  have hdouble : ¬ ('.' :: t).take 2 ∈ doubleMarks := by
    cases t <;> simp [doubleMarks]
  rw [hc, tokenLength?_mark (by decide) (by simpa using hdigit) hdouble]

/-! ### Operators -/

theorem Starts.value {p : Parser Unit} {a : α} (h : Starts text p fun _ => []) :
    Starts text (p *> pure a) fun _ => [] :=
  h.seqRight (.pure rfl)

theorem starts_productOp : Starts text productOp fun _ => [] :=
  .orElse starts_op.value <| .orElse starts_op.value <|
    .orElse starts_kw.value <| .orElse starts_kw.value
      starts_kw.value

theorem starts_sign : Starts text sign fun _ => [] :=
  .orElse starts_op.value starts_op.value

theorem starts_sumOp : Starts text sumOp fun _ => [] :=
  .orElse starts_op.value <| .orElse starts_op.value
    starts_kw.value

/-- An operator that has failed does not stand there. -/
theorem ne_append_of_op {sym : String} {f : Failure} (hsym : Ascii sym.toList)
    (h : op sym c = .failed f) (t : List Char) : c.rest ≠ sym.toList ++ t := by
  intro hc
  obtain ⟨r, hdone, -⟩ := reaches_op hc hsym
  rw [h] at hdone
  cases hdone

/-- A relation of one mark is tried only where no longer one stands, so it is a token. -/
theorem starts_relationOp : Starts text relationOp fun _ => [] := by
  intro c o r hc hdone
  rcases orElse_cases hdone with hop | ⟨⟨_, hle⟩, hdone⟩
  · exact starts_double.value c o r hc hop
  rcases orElse_cases hdone with hop | ⟨⟨_, hge⟩, hdone⟩
  · exact starts_double.value c o r hc hop
  rcases orElse_cases hdone with hop | ⟨⟨_, hne⟩, hdone⟩
  · exact starts_double.value c o r hc hop
  have htoken {x : Char} {t : List Char} (hx : x = '<' ∨ x = '>') (ht : c.rest = x :: t) :
      tokenLength? c.rest = some 1 := by
    rw [ht]
    refine tokenLength?_mark ?_ ?_ fun hmem => ?_
    · rcases hx with rfl | rfl <;> decide
    · rintro rfl
      simp at hx
    obtain ⟨s, hs⟩ := take_prefix 2 (x :: t)
    simp only [doubleMarks, mem_cons, not_mem_nil, or_false] at hmem
    rcases hmem with hd | hd | hd | hd <;> rw [hd, ← ht] at hs
    · exact ne_append_of_op (by decide) (map_eq_failed.1 hle) s hs.symm
    · exact ne_append_of_op (by decide) (map_eq_failed.1 hge) s hs.symm
    · exact ne_append_of_op (by decide) (map_eq_failed.1 hne) s hs.symm
    · rw [ht] at hs
      rcases hx with rfl | rfl <;> cases hs
  rcases orElse_eq_done hdone with hop | hdone
  · exact starts_op.value c o r hc hop
  rcases orElse_eq_done hdone with hop | hop <;>
    obtain ⟨_, _, hop, hpure⟩ := seqRight_eq_done.1 hop <;> cases hpure
  · exact at_op (by decide) hc hop fun t ht => htoken (.inl rfl) ht
  · exact at_op (by decide) hc hop fun t ht => htoken (.inr rfl) ht

/-! ### Operands and operators -/

theorem node_join (left : Expr) (o : BinaryOp) (right : Expr) : (left.join o right).node =
    .mk ⟨left.node.span.start, right.node.span.stop⟩ .any [left.node, right.node] := by
  rw [Expr.join, Expr.node, left.span_node, right.span_node]
  rfl

/-- Operands with operators between them are in place if each operand is. -/
theorem starts_chain {item : Parser Expr} {o : Parser BinaryOp}
    (h : Starts text item fun e => [e.node]) (ho : Starts text o fun _ => []) :
    Starts text (chainLeft item o Expr.join) fun e => [e.node] := by
  refine h.bind fun left b => Yields.chainTail (B := fun e => At text b [e.node])
    (J := fun e _ => At text b [e.node]) (fun e => ho.leaves b [e.node]) ?_ left
  intro left o c right r hc hdone
  rw [node_join]
  exact hc.join (h c right r hc.cursor hdone)

section
variable {q : Parser Expr} (hq : Starts text q fun e => [e.node])
include hq

theorem made_leaf : From text (leaf q) (Made (Behind text) Expr.node) := by
  refine .orElse ?_ <| .orElse (lexesOne_number.lexes.made fun _ _ => rfl) <|
    .orElse (lexesOne_stringLiteral.lexes.made fun _ _ => rfl) <|
    .orElse (lexesOne_systemName.lexes.made fun _ _ => rfl) <|
    .orElse (lexes_programVariable.made fun _ _ => rfl) <|
    .orElse (lexes_boolean.made fun _ _ => rfl)
      (lexesOne_name.lexes.made fun _ _ => rfl)
  have hclose : LexesOne (char ')') := lexesOne_char
  exact starts_op.bind fun _ b => (hq.adds b []).bind fun inner =>
    (hclose.lexes.behind.imp (fun _ hc => hc.toBehind) fun _ _ hc => hc).bind fun _ =>
    .pure fun _ hc => ⟨_, hc, fun _ => rfl⟩

theorem starts_operand : Starts text (operand q) fun e => [e.node] :=
  (lexeme_of_made (made_leaf hq)).bind fun _ _ => .pure fun _ hc => hc

/-- A suffix reaches up to the cursor and becomes part of a node in front of it. -/
theorem suffix_reaches : From text (suffix q) fun b build c => ∃ ns,
    Behind text b (.mk ⟨b.position, c.position⟩ .any ns :: ns) c ∧
      ∀ span e, (build span e).node = .mk span .any (e.node :: ns) := by
  refine .orElse ?_ (.orElse ?_ ?_)
  · refine starts_punct.bind fun _ b => (Gathers.sepBy1 starts_punct.leaves hq.adds b []).bind fun indices => ?_
    intro c build r hc hdone
    obtain ⟨_, c₁, hclose, hpure⟩ := bind_eq_done.1 hdone
    cases hpure
    refine ⟨_, hc.close lexesOne_char hclose, fun span e => ?_⟩
    rw [Expr.node, Expr.nodes_eq_flatMap]
    rfl
  · intro c build r hc hdone
    obtain ⟨_, c₁, hpoint, field, c₂, hfield, hpure⟩ := bind₂_eq_done.1 hdone
    cases hpure
    obtain ⟨-, rfl, t, ht⟩ := char_eq_done.1 hpoint
    have hone : LexesOne (name <|> systemName) := lexesOne_name.orElse lexesOne_systemName
    obtain ⟨hsettled, -⟩ := hone _ _ _ hfield
    have hmark := walk_token hc.settled (tokenLength?_point ht hfield)
    have hat : At text c [] (c.drop 1) := ⟨⟨hc, _, hmark, by simp, .token _, by simp⟩, hsettled⟩
    exact ⟨_, hat.close hone hfield, fun span e => rfl⟩
  · refine starts_punct.bind fun _ b => (Gathers.sepBy starts_punct.leaves hq.adds b []).bind fun arguments => ?_
    intro c build r hc hdone
    obtain ⟨_, c₁, hclose, hpure⟩ := bind_eq_done.1 hdone
    cases hpure
    refine ⟨_, hc.close lexesOne_char hclose, fun span e => ?_⟩
    rw [Expr.node, Expr.nodes_eq_flatMap]
    rfl

/-- The node of a suffix takes that of the operand in. -/
theorem at_suffix {e : Expr} {x : (Span → Expr → Expr) × Span} (hc : At text b [e.node] c)
    (hdone : (do let s ← spanned (suffix q); blanks; return s : Parser _) c = .done x r) :
    At text b [(x.1 (e.span.cover x.2) e).node] r := by
  obtain ⟨⟨build, span⟩, c₁, hspanned, _, c₂, hblanks, hpure⟩ := bind₂_eq_done.1 hdone
  cases hpure
  obtain ⟨_, hsuffix, heq⟩ := spanned_eq_done.1 hspanned
  cases heq
  obtain ⟨ms, hms, hnode⟩ := suffix_reaches hq c build c₁ hc.cursor hsuffix
  have hstop (k : Node) (hk : k ∈ ms) : k.span.stop ≤ c₁.position :=
    (hms.nested (mem_cons_of_mem _ hk)).2.2
  have hcover : Behind text b
      [.mk ⟨e.node.span.start, c₁.position⟩ .any (e.node :: ms)] c₁ :=
    hc.toBehind.cover (mem_singleton_self _) hms mem_cons_self fun k hk =>
      (mem_cons.1 hk).imp_right fun hk => ⟨mem_cons_of_mem _ hk, hstop k hk⟩
  rw [hnode, ← e.span_node]
  exact yields_blanks c₁ _ r hcover hblanks

theorem starts_reference : Starts text (reference q) fun e => [e.node] := by
  refine (starts_operand hq).bind fun base b => ?_
  have hmany := Yields.many (p := do let s ← spanned (suffix q); blanks; return s)
    (I := fun suffixes => At text b
      [(suffixes.foldl (fun e x => x.1 (e.span.cover x.2) e) base).node]) (fun suffixes => ?_) []
  · exact hmany.bind fun suffixes => .pure fun _ hc => hc
  intro c x r hc hdone
  rw [foldl_append]
  exact at_suffix hq hc hdone

/-- The node of a negation begins where its first word does. -/
theorem starts_negation : Starts text (negation q) fun e => [e.node] := by
  intro c e r hc hdone
  -- behind some negations, whatever is read in place will be in place with all of them before it
  have hmany := Yields.many (p := do let start ← position; kw "NOT"; return start)
    (I := fun starts d => Place text d ∧ ∀ e r, At text d [e.node] r → At text c
      [(starts.foldr (fun start e => Expr.unary ⟨start, e.span.stop⟩ .not e) e).node] r)
    (fun starts => ?_) []
  · obtain ⟨starts, c₁, hstarts, inner, c₂, hinner, hpure⟩ := bind₂_eq_done.1 hdone
    cases hpure
    obtain ⟨hplace, hall⟩ := hmany c starts c₁ ⟨hc, fun _ _ h => h⟩ hstarts
    exact hall inner r (starts_reference hq c₁ inner r hplace hinner)
  · rintro d start r ⟨hd, hall⟩ hdone
    obtain ⟨_, _, hposition, hdone⟩ := bind_eq_done.1 hdone
    cases hposition
    obtain ⟨_, _, hnot, hpure⟩ := bind_eq_done.1 hdone
    cases hpure
    have hat : At text d [] r := starts_kw d _ r hd hnot
    refine ⟨hat.cursor, fun e s hs => ?_⟩
    rw [foldr_append]
    refine hall _ s ?_
    rw [foldr_cons, foldr_nil, Expr.node, ← e.span_node]
    exact hat.prepend hs

theorem starts_product : Starts text (product q) fun e => [e.node] :=
  starts_chain (starts_negation hq) starts_productOp

theorem starts_signed : Starts text (signed q) fun e => [e.node] := by
  intro c e r hc hdone
  obtain ⟨_, _, hposition, hread⟩ := bind_eq_done.1 hdone
  cases hposition
  obtain ⟨o, c₁, hmaybe, hread⟩ := bind_eq_done.1 hread
  rcases maybe_eq_done hmaybe with ⟨o, rfl, hsign⟩ | ⟨rfl, rfl⟩
  · obtain ⟨inner, c₂, hinner, hpure⟩ := bind_eq_done.1 hread
    cases hpure
    have hat := starts_sign c o c₁ hc hsign
    change At text c [(Expr.unary _ o inner).node] r
    rw [Expr.node, ← inner.span_node]
    exact hat.prepend (starts_product hq c₁ inner r hat.cursor hinner)
  · exact starts_product hq c₁ e r hc hread

theorem starts_sum : Starts text (sum q) fun e => [e.node] :=
  starts_chain (starts_signed hq) starts_sumOp

theorem starts_relation : Starts text (relation q) fun e => [e.node] := by
  refine (starts_sum hq).bind fun left b => ?_
  intro c e r hc hdone
  obtain ⟨o, c₁, hmaybe, hread⟩ := bind_eq_done.1 hdone
  rcases maybe_eq_done hmaybe with ⟨o, rfl, hop⟩ | ⟨rfl, rfl⟩
  · obtain ⟨right, c₂, hright, hpure⟩ := bind_eq_done.1 hread
    cases hpure
    have hat : At text b [left.node] c₁ := starts_relationOp.leaves b _ c o c₁ hc hop
    change At text b [(left.join o right).node] r
    rw [node_join]
    exact hat.join (starts_sum hq c₁ right r hat.cursor hright)
  · cases hread
    exact hc

end

theorem starts_expression : Starts text expression fun e => [e.node] :=
  .nested fun _ hq => starts_relation hq

/-! ## Types -/

theorem node_typeOfWord (word : String) (span : Span) :
    (typeOfWord word span).node = .mk span .any [] := by
  rw [typeOfWord]
  split
  · rfl
  split
  · rfl
  split <;> rfl

/-- The nodes of names declared together: each reaches from its name to the end of the type. -/
def NameGroup.nodes (g : NameGroup) : List Node :=
  g.names.flatMap fun x => [.mk (x.2.cover g.type.span) .any [g.type.node]]

theorem NameGroup.flatMap_items {build : String → Option String → DataType → Span → α}
    {node : α → Node}
    (h : ∀ name storage type span, node (build name storage type span) = .mk span .any [type.node])
    (groups : List NameGroup) :
    ((NameGroup.items build groups).flatMap fun a => [node a]) = groups.flatMap NameGroup.nodes := by
  rw [NameGroup.items, flatMap_assoc]
  congr 1
  funext g
  rw [NameGroup.nodes, flatMap_map]
  congr 1
  funext x
  rw [h]

theorem starts_arrayBound : Starts text arrayBound ArrayBound.nodes := by
  refine .orElse (starts_punct.seqRight (.pure rfl)) (.map ?_)
  exact starts_expression

/-- A colon is no keyword. -/
theorem failsAt_colon {w : String} [h : Among w letterWords] : FailsAt (some ':') (kw w) :=
  failsAt_word ((by decide +kernel : ∀ w ∈ letterWords.flatten,
    FailsAt.beginsApart (some ':') w.toList = true) w h.mem)

theorem failsAt_dataTypeOf (q : Parser DataType) : FailsAt (some ':') (dataTypeOf q) :=
  (failsAt_lexeme <| failsAt_colon.bind.orElse <| failsAt_colon.bind.orElse <|
    failsAt_colon.bind.orElse <| failsAt_colon.bind.orElse (FailsAt.identifier (by decide)).map).bind

section
variable {q : Parser DataType} (hq : Starts text q fun t => [t.node]) (hcolon : AvoidsColon q)
include hq

include hcolon in
theorem starts_nameGroupOf : Starts text (nameGroupOf q) NameGroup.nodes := by
  intro c g r hc hdone
  obtain ⟨names, c₁, hnames, storage, c₂, hstorage, _, c₃, hpunct, type, c₄, htype, hpure⟩ :=
    bind₄_eq_done.1 hdone
  cases hpure
  have hname : Starts text (lexeme name) fun x => [.mk x.2 .any []] := lexesOne_name.lexes.lexeme
  have hin : Starts text (kw "IN" *> ident) fun _ => [] :=
    starts_kw.seqRight starts_ident.adds
  have hat := hname.sepBy1 starts_punct.leaves c names c₁ hc hnames
  have hat := hin.leaves.maybe c _ c₁ storage c₂ hat hstorage
  have hat : At text c _ c₃ :=
    (yields_colon c₂ _ c₃ hat hpunct).resolve_right fun h => hcolon _ _ _ h htype
  have hat' := hq c₃ type r hat.cursor htype
  refine ⟨Behind.of_forall (hat.append hat').toBehind fun n hn => ?_, hat'.settled⟩
  obtain ⟨x, hx, hn⟩ := mem_flatMap.1 hn
  have hmem : Node.mk x.2 .any [] ∈ names.flatMap fun x => [.mk x.2 .any []] :=
    mem_flatMap.2 ⟨x, hx, mem_singleton_self _⟩
  rw [mem_singleton.1 hn, ← type.span_node]
  exact hat.toBehind.cover hmem hat'.toBehind (mem_singleton_self _) fun k hk =>
    .inr ⟨hk, le_of_eq (by rw [mem_singleton.1 hk])⟩

theorem made_arrayType : From text (arrayType q) (Made (At text) DataType.node) := by
  have hbounds : Adds text (do punct '['
                               let bounds ← sepBy1 (punct ',') arrayBound
                               punct ']'
                               return bounds) fun bounds => bounds.flatMap ArrayBound.nodes :=
    fun b ns => (starts_punct.leaves b ns).bind fun _ =>
      (Gathers.sepBy1 starts_punct.leaves starts_arrayBound.adds b ns).bind fun _ =>
      (starts_punct.leaves b _).bind fun _ => .pure fun _ hc => hc
  refine starts_kw.bind fun _ b => (hbounds.maybe b []).bind fun bounds =>
    (starts_kw.leaves b _).bind fun _ => (hq.adds b _).bind fun element => .pure fun _ hc => ⟨_, hc, ?_⟩
  intro span
  cases bounds <;> rfl

include hcolon in
theorem made_structureType : From text (structureType q) (Made (At text) DataType.node) := by
  refine starts_kw.bind fun _ b =>
    ((starts_nameGroupOf hq hcolon).many1.adds b []).bind fun groups =>
    (starts_kw.leaves b _).bind fun _ => .pure fun _ hc => ⟨_, hc, fun span => ?_⟩
  rw [DataType.node, DataType.fieldNodes_eq_flatMap]
  congr 1
  exact NameGroup.flatMap_items (fun _ _ _ _ => rfl) groups

theorem made_pathType : From text (pathType q) (Made (At text) DataType.node) := by
  have hheader : Adds text (do kw "PATHHEADER"
                               op "="
                               let header ← q
                               punct ','
                               return header) fun t => [t.node] :=
    fun b ns => (starts_kw.leaves b ns).bind fun _ => (starts_op.leaves b ns).bind fun _ =>
      (hq.adds b ns).bind fun _ => (starts_punct.leaves b _).bind fun _ => .pure fun _ hc => hc
  refine starts_kw.bind fun _ b => (hheader.maybe b []).bind fun header =>
    (starts_kw.leaves b _).bind fun _ => (starts_op.leaves b _).bind fun _ =>
    (hq.adds b _).bind fun node => .pure fun _ hc => ⟨_, hc, fun span => ?_⟩
  cases header <;> rfl

end

theorem made_stringType : From text stringType (Made (Behind text) DataType.node) := by
  have hclose : LexesOne (char ']') := lexesOne_char
  refine starts_kw.bind fun _ b => (starts_punct.leaves b []).bind fun _ =>
    (starts_expression.adds b []).bind fun length =>
    (hclose.lexes.behind.imp (fun _ hc => hc.toBehind) fun _ _ hc => hc).bind fun _ =>
    .pure fun _ hc => ⟨_, hc, fun _ => rfl⟩

/-- A motion group is read over. -/
theorem starts_motionGroup : Starts text motionGroup fun _ => [] := by
  have hgroup : Lexes (keyword "GROUP") := lexes_keyword
  have hopen : LexesOne (char '[') := lexesOne_char
  exact starts_kw.bind fun _ b =>
    (hgroup.behind.imp (fun _ hc => hc.toBehind) fun _ _ hc => hc).bind fun _ =>
    (hopen.lexes.behind.bind fun _ => yields_blanks).bind fun _ =>
    (starts_expression.leaves b []).bind fun _ => starts_punct.leaves b []

theorem Made.behind {τ : Type} {node : τ → Node} {build : Span → τ}
    (h : Made (At text) node b build c) : Made (Behind text) node b build c := by
  obtain ⟨ns, hns, hnode⟩ := h
  exact ⟨ns, hns.toBehind, hnode⟩

theorem starts_dataType : Starts text dataType fun t => [t.node] := by
  refine .nested_of_failsAt failsAt_dataTypeOf fun q hq hcolon => ?_
  have hword : From text (typeOfWord <$> identifier) (Made (Behind text) DataType.node) :=
    lexesOne_identifier.lexes.made node_typeOfWord
  refine (lexeme_of_made (.orElse ((made_arrayType hq).imp fun _ _ _ => Made.behind) <|
    .orElse ((made_structureType hq hcolon).imp fun _ _ _ => Made.behind) <|
    .orElse ((made_pathType hq).imp fun _ _ _ => Made.behind) <|
    .orElse made_stringType hword)).bind fun x b => ?_
  exact (starts_motionGroup.leaves.maybe b _).bind fun _ => .pure fun _ hc => hc

theorem avoidsColon_dataType : AvoidsColon dataType :=
  avoidsColon_of_failsAt (failsAt_nested failsAt_dataTypeOf)

theorem starts_nameGroup : Starts text nameGroup NameGroup.nodes :=
  starts_nameGroupOf starts_dataType avoidsColon_dataType

/-! ## Simple statements -/

theorem made_returnStatement : From text returnStatement (Made (At text) Statement.node) := by
  have hvalue : Adds text (do punct '('
                              let value ← expression
                              punct ')'
                              return value) fun e => [e.node] :=
    fun b ns => (starts_punct.leaves b ns).bind fun _ =>
      (starts_expression.adds b ns).bind fun _ =>
      (starts_punct.leaves b _).bind fun _ => .pure fun _ hc => hc
  exact starts_kw.bind fun _ b => (hvalue.maybe b []).bind fun value =>
    .pure fun _ hc => ⟨_, hc, fun _ => rfl⟩

theorem made_gotoStatement : From text gotoStatement (Made (At text) Statement.node) := by
  have hgoto : Starts text (kw "GOTO" <|> (kw "GO" *> kw "TO")) fun _ => [] :=
    .orElse starts_kw (starts_kw.seqRight starts_kw.adds)
  exact hgoto.bind fun _ b => (starts_ident.leaves b []).bind fun label =>
    .pure fun _ hc => ⟨_, hc, fun _ => rfl⟩

/-- Spaces may stand between a label and its colons, but no line break and no comment. -/
theorem made_labelStatement : From text labelStatement (Made (At text) Statement.node) := by
  refine lexesOne_name.lexes.begins.bind fun label b => ?_
  intro c build r hc hdone
  obtain ⟨_, c₁, hspaces, _, c₂, hop, hpure⟩ := bind₂_eq_done.1 hdone
  cases hpure
  obtain ⟨ls, hwalk, hls⟩ := walk_spaces hspaces
  have hsettled : Settled c₁ := by
    obtain ⟨_, _, hsymbol, -⟩ := bind_eq_done.1 hop
    obtain ⟨t, ht, -⟩ := symbol_marks_eq_done (by decide) hsymbol
    exact settled_of_cons ht (by decide) (by decide)
  have hat : At text b [] c₁ := ⟨hc.extend hwalk hls, hsettled⟩
  exact ⟨_, starts_double.leaves b [] c₁ _ r hat hop, fun _ => rfl⟩

theorem made_delayStatement : From text delayStatement (Made (At text) Statement.node) :=
  starts_kw.bind fun _ b => (starts_expression.adds b []).bind fun _ =>
    .pure fun _ hc => ⟨_, hc, fun _ => rfl⟩

theorem made_waitForStatement : From text waitForStatement (Made (At text) Statement.node) :=
  starts_kw.bind fun _ b => (starts_kw.leaves b []).bind fun _ =>
    (starts_expression.adds b []).bind fun _ =>
    .pure fun _ hc => ⟨_, hc, fun _ => rfl⟩

theorem starts_argument : Starts text argument fun e => [e.node] := by
  have hformat : Leaves (At text) (many (op "::" *> sum expression)) := fun b ns => by
    have hitem : Starts text (op "::" *> sum expression) fun e => [e.node] :=
      starts_double.seqRight (starts_sum starts_expression).adds
    have hmany := Yields.many (I := fun _ => At text b ns) (fun _ => hitem.leaves b ns) []
    exact hmany
  exact starts_expression.bind fun _ b => (hformat b _).bind fun _ => .pure fun _ hc => hc

theorem starts_arguments : Starts text arguments Expr.nodes := by
  refine starts_punct.bind fun _ b =>
    (Gathers.sepBy starts_punct.leaves starts_argument.adds b []).bind fun es =>
    (starts_op.leaves b _).bind fun _ => .pure fun _ hc => ?_
  rwa [Expr.nodes_eq_flatMap]

theorem made_transferStatement : From text transferStatement (Made (At text) Statement.node) := by
  have hverb : Lexes (keyword "WRITE" <|> keyword "READ") :=
    lexes_keyword.orElse lexes_keyword
  have hfile : Starts text (lexeme name) fun x => [.mk x.2 .any []] := lexesOne_name.lexes.lexeme
  refine .position fun start => hverb.begins.bind fun verb b => yields_blanks.bind fun _ =>
    (hfile.adds.maybe b []).bind fun file => (starts_arguments.adds b _).bind fun es =>
    .pure fun _ hc => ⟨_, hc, fun span => ?_⟩
  cases file with
  | none => rfl
  | some file => rfl

theorem made_callStatement : From text callStatement (Made (At text) Statement.node) := by
  refine lexesOne_name.lexes.lexeme.forget.bind fun x b =>
    (starts_arguments.adds.maybe b []).bind fun es => .pure fun _ hc => ⟨_, hc, fun span => ?_⟩
  cases es <;> rfl

theorem made_assignment : From text assignment (Made (At text) Statement.node) :=
  (starts_reference starts_expression).bind fun _ b =>
    (starts_op.leaves b _).bind fun _ => (starts_expression.adds b _).bind fun _ =>
    .pure fun _ hc => ⟨_, hc, fun _ => rfl⟩

/-! ## Blocks -/

section
variable {q : Parser Statement} (hq : Starts text q fun s => [s.node]) (hcolon : AvoidsColon q)
include hq

theorem adds_body : Adds text (many q) Statement.nodes := by
  intro b ns
  refine (hq.adds.many b ns).imp (fun _ hc => hc) fun ss _ hr => ?_
  rwa [Statement.nodes_eq_flatMap]

theorem made_ifStatement : From text (ifStatement q) (Made (At text) Statement.node) := by
  have helse : Adds text (kw "ELSE" *> many q) Statement.nodes :=
    .seqRight starts_kw.leaves (adds_body hq)
  refine starts_kw.bind fun _ b => (starts_expression.adds b []).bind fun condition =>
    (starts_kw.leaves b _).bind fun _ => (adds_body hq b _).bind fun thenBranch =>
    (helse.maybe b _).bind fun elseBranch => (starts_kw.leaves b _).bind fun _ =>
    .pure fun _ hc => ⟨_, hc, fun span => ?_⟩
  cases elseBranch <;> rfl

theorem made_forStatement : From text (forStatement q) (Made (At text) Statement.node) := by
  have hdirection : Starts text ((kw "DOWNTO" *> pure LoopDirection.down) <|>
      (kw "TO" *> pure .up)) fun _ => [] :=
    .orElse starts_kw.value starts_kw.value
  refine starts_kw.bind fun _ b => (starts_ident.leaves b []).bind fun counter =>
    (starts_op.leaves b _).bind fun _ =>
    (starts_expression.adds b []).bind fun initial => (hdirection.leaves b _).bind fun direction =>
    (starts_expression.adds b _).bind fun limit => (starts_kw.leaves b _).bind fun _ =>
    (adds_body hq b _).bind fun body => (starts_kw.leaves b _).bind fun _ =>
    .pure fun _ hc => ⟨_, hc, fun span => ?_⟩
  rfl

theorem made_whileStatement : From text (whileStatement q) (Made (At text) Statement.node) := by
  refine starts_kw.bind fun _ b => (starts_expression.adds b []).bind fun condition =>
    (starts_kw.leaves b _).bind fun _ => (adds_body hq b _).bind fun body =>
    (starts_kw.leaves b _).bind fun _ => .pure fun _ hc => ⟨_, hc, fun span => ?_⟩
  rfl

theorem made_repeatStatement : From text (repeatStatement q) (Made (At text) Statement.node) := by
  refine starts_kw.bind fun _ b => (adds_body hq b []).bind fun body =>
    (starts_kw.leaves b _).bind fun _ => (starts_expression.adds b _).bind fun condition =>
    .pure fun _ hc => ⟨_, hc, fun span => ?_⟩
  rfl

include hcolon

theorem gathers_body : Gathers (Near text) (many q) Statement.nodes := by
  intro b ns
  refine ((hq.gathersNear hcolon).many b ns).imp (fun _ hc => hc) fun ss _ hr => ?_
  rwa [Statement.nodes_eq_flatMap]

theorem gathers_selectCase : Gathers (Near text) (selectCase q)
    fun k => Expr.nodes k.values ++ Statement.nodes k.body := by
  intro b ns
  refine (starts_kw.near (avoidsColon_of_failsAt failsAt_colon) b ns).bind fun _ =>
    (starts_punct.leaves b _).bind fun _ =>
    (Gathers.sepBy1 starts_punct.leaves starts_expression.adds b _).bind fun values =>
    (starts_punct.leaves b _).bind fun _ => yields_colon.bind fun _ =>
    (gathers_body hq hcolon b _).bind fun body => .pure fun _ hc => ?_
  simpa [Expr.nodes_eq_flatMap] using hc

theorem made_selectStatement : From text (selectStatement q) (Made (At text) Statement.node) := by
  have helse : Gathers (Near text) (kw "ELSE" *> punct ':' *> many q) Statement.nodes := fun b ns =>
    ((starts_kw.near (avoidsColon_of_failsAt failsAt_colon) b ns).seqRight yields_colon).seqRight (by
      simpa using gathers_body hq hcolon b ns)
  refine starts_kw.bind fun _ b => (starts_expression.adds b []).bind fun subject =>
    (starts_kw.leaves b _).bind fun _ =>
    (((gathers_selectCase hq hcolon).many1 b _).imp (fun _ hc => .inl hc) fun _ _ hr => hr).bind
    fun cases => (helse.maybe b _).bind fun elseBranch => (starts_kw.near (avoidsColon_of_failsAt failsAt_colon) b _).bind fun _ =>
    .pure fun _ hc => ⟨_, hc, fun span => ?_⟩
  rw [Statement.node, Statement.caseNodes_eq_flatMap, append_nil]
  cases elseBranch <;> rw [Statement.elseNodes] <;> rfl

end

theorem failsAt_statementOf (q : Parser Statement) : FailsAt (some ':') (statementOf q) := by
  have hshut : Shut (some ':') := by decide
  have hname : FailsAt (some ':') name := failsAt_name (by decide)
  have hverb : FailsAt (some ':') (keyword "WRITE" <|> keyword "READ") :=
    .orElse (.keyword_apart (by decide)) (.keyword_apart (by decide))
  have hgoto : FailsAt (some ':') (kw "GOTO" <|> (kw "GO" *> kw "TO")) :=
    failsAt_colon.orElse failsAt_colon.seqRight
  exact (failsAt_coded <| failsAt_colon.bind.orElse <| failsAt_colon.bind.orElse <|
    failsAt_colon.bind.orElse <| failsAt_colon.bind.orElse <| failsAt_colon.bind.orElse <|
    failsAt_colon.bind.orElse <| hgoto.bind.orElse <| failsAt_colon.bind.orElse <|
    failsAt_colon.bind.orElse <| failsAt_colon.seqRight.orElse <|
    failsAt_colon.seqRight.orElse <| (FailsAt.position_bind fun _ => hverb.bind).orElse <|
    hname.bind.orElse <| (failsAt_reference hshut).bind.orElse (failsAt_lexeme hname).bind).bind

/-- **Statements are in place.** -/
theorem starts_statement : Starts text statement fun s => [s.node] := by
  refine .nested_of_failsAt failsAt_statementOf fun q hq hcolon => ?_
  have hbare {word : String} {build : Span → Statement} [Lettered word]
      (hbuild : ∀ span, (build span).node = .mk span .any []) :
      From text (kw word *> pure build) (Made (At text) Statement.node) :=
    starts_kw.bind fun _ _ => .pure fun _ hc => ⟨_, hc, hbuild⟩
  refine (starts_of_made (.orElse (made_ifStatement hq) <| .orElse (made_forStatement hq) <|
    .orElse (made_whileStatement hq) <| .orElse (made_repeatStatement hq) <|
    .orElse (made_selectStatement hq hcolon) <| .orElse made_returnStatement <|
    .orElse made_gotoStatement <| .orElse made_delayStatement <| .orElse made_waitForStatement <|
    .orElse (hbare fun _ => rfl) <|
    .orElse (hbare fun _ => rfl) <|
    .orElse made_transferStatement <| .orElse made_labelStatement <|
    .orElse made_assignment made_callStatement)).bind fun _ _ => .pure fun _ hc => hc

theorem adds_statements : Adds text statements Statement.nodes := adds_body starts_statement

end RobotSource.Karel.Grammar
