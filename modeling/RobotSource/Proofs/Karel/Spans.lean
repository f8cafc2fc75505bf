import RobotSource.Proofs.Karel.Grammar.Spans
/-!
# The spans of Karel programs

Declarations are read like statements and expressions, from place to place. Between them directives
may stand, so the state of the whole program is a simpler one (`Along`). A program that has been read
leaves nothing of the text over, hence there are no stray characters in it, and from the end of any
node only white space and comments lead to the next token.
-/

namespace RobotSource.Karel.Grammar

open Parsing Parsing.Parser Text
open List hiding takeWhile

variable {α : Type} {text : List Char} {b c r : Cursor} {ns : List Node} {p : Parser α}
  {ν : α → List Node}

/-! ## Declarations -/

/-- A name with its value behind it. -/
theorem starts_constant : Starts text constant fun k => [k.node] := by
  refine lexesOne_name.lexes.lexeme.bind fun x b =>
    ((starts_op).leaves b _).bind fun _ => ?_
  intro c k r hc hdone
  obtain ⟨value, c₁, hvalue, hpure⟩ := bind_eq_done.1 hdone
  cases hpure
  change At text b [.mk ⟨x.2.start, value.span.stop⟩ .any [value.node]] r
  rw [← value.span_node]
  exact hc.reach (starts_expression c value r hc.cursor hvalue)

theorem starts_typeDeclaration : Starts text typeDeclaration fun t => [t.node] := by
  have howner : Starts text (kw "FROM" *> ident) fun _ => [] :=
    (starts_kw).seqRight starts_ident.adds
  refine lexesOne_name.lexes.lexeme.bind fun x b => (howner.leaves.maybe b _).bind fun owner =>
    ((starts_op).leaves b _).bind fun _ => ?_
  intro c t r hc hdone
  obtain ⟨type, c₁, htype, hpure⟩ := bind_eq_done.1 hdone
  cases hpure
  change At text b [.mk ⟨x.2.start, type.span.stop⟩ .any [type.node]] r
  rw [← type.span_node]
  exact hc.reach (starts_dataType c type r hc.cursor htype)

theorem starts_varItems : Starts text varItems fun vs => vs.flatMap fun v => [v.node] := by
  refine .map (starts_nameGroup.many1.imp fun b groups c hc => ?_)
  have hitems : ((NameGroup.items Variable.mk groups).flatMap fun v => [v.node]) =
      groups.flatMap NameGroup.nodes :=
    NameGroup.flatMap_items (fun _ _ _ _ => rfl) groups
  simpa only [hitems] using hc

theorem starts_dataSection : Starts text dataSection DataSection.nodes := by
  refine .orElse (.map ?_) (.orElse (.map ?_) (.map ?_))
  · exact (starts_kw).seqRight starts_constant.many1.adds
  · exact (starts_kw).seqRight starts_typeDeclaration.many1.adds
  · exact (starts_kw).seqRight starts_varItems.adds

theorem starts_dataDeclaration : Starts text dataDeclaration fun d => [d.node] :=
  starts_dataSection.coded.bind fun _ _ => .pure fun _ hc => hc

theorem starts_parameters : Starts text parameters fun vs => vs.flatMap fun v => [v.node] := by
  refine (starts_punct).bind fun _ b =>
    (Gathers.sepBy1 (starts_punct).leaves starts_nameGroup.adds b []).bind fun groups =>
    ((starts_punct).leaves b _).bind fun _ => .pure fun _ hc => ?_
  have hitems : ((NameGroup.items (fun name _ type span => (⟨name, none, type, span⟩ : Variable))
      groups).flatMap fun v => [v.node]) = groups.flatMap NameGroup.nodes :=
    NameGroup.flatMap_items (fun _ _ _ _ => rfl) groups
  simpa only [hitems, nil_append] using hc

theorem starts_matching {what : String} {p : Parser String} (h : Starts text p fun _ => []) :
    Starts text (matching what p) fun _ => [] := by
  intro c a r hc hdone
  rw [matching] at hdone
  cases hp : p c with
  | done word c₁ =>
    rw [hp] at hdone
    simp only at hdone
    split at hdone
    · cases hdone
      exact h c word _ hc hp
    · cases hdone
  | failed f =>
    rw [hp] at hdone
    cases hdone
  | aborted f =>
    rw [hp] at hdone
    cases hdone

theorem adds_routineBody (name : String) : Adds text (routineBody name)
    fun x => (x.1.flatMap fun d => [d.node]) ++ Statement.nodes x.2 := by
  intro b ns
  refine (starts_dataDeclaration.adds.many b ns).bind fun locals =>
    ((starts_kw).leaves b _).bind fun _ => (adds_statements b _).bind fun body =>
    ((starts_kw).leaves b _).bind fun _ =>
    ((starts_matching starts_ident).leaves b _).bind fun _ => .pure fun _ hc => ?_
  rwa [← append_assoc]

theorem starts_routine : Starts text routine Routine.nodes := by
  have howner : Starts text (kw "FROM" *> ident) fun _ => [] :=
    (starts_kw).seqRight starts_ident.adds
  have hreturn : Adds text (punct ':' *> dataType) fun t => [t.node] :=
    starts_dataType.addsColon avoidsColon_dataType
  refine (starts_kw).bind fun _ b =>
    (lexesOne_name.lexes.lexeme.leaves b []).bind fun x =>
    (starts_parameters.adds.maybe b []).bind fun parameters =>
    (hreturn.maybe b _).bind fun returnType => (howner.leaves.maybe b _).bind fun owner => ?_
  have hhead : (parameters.elim [] fun vs => vs.flatMap fun v => [v.node]) ++
      (returnType.elim [] fun t => [t.node]) =
      ((parameters.getD []).flatMap fun v => [v.node]) ++ DataType.headerNodes returnType := by
    cases parameters <;> cases returnType <;> simp [DataType.headerNodes]
  dsimp only
  rw [nil_append, hhead]
  split
  · intro c routine r hc hdone
    cases hdone
    simpa [Routine.nodes, Statement.elseNodes] using hc
  · intro c routine r hc hdone
    obtain ⟨content, c₁, hcontent, hpure⟩ := bind_eq_done.1 hdone
    cases hpure
    have hat := (adds_routineBody x.1).maybe b _ c content r hc hcontent
    cases content <;> simpa [Routine.nodes, Statement.elseNodes] using hat

theorem starts_declaration : Starts text declaration fun d => [d.node] := by
  have hkind : Starts text ((DeclarationKind.data <$> dataSection) <|> (.routine <$> routine))
      DeclarationKind.nodes :=
    .orElse (.map starts_dataSection) (.map starts_routine)
  exact hkind.coded.bind fun _ _ => .pure fun _ hc => hc

/-! ## Between declarations -/

/-- The cursor is at a place, and the nodes of what has been read lie before it. -/
structure Along (text : List Char) (ns : List Node) (c : Cursor) : Prop where
  place : Place text c
  nested : ∀ n ∈ ns, n.Nested (TokenStart text) (TokenEnd text)
  inside : ∀ n ∈ ns, .first ≤ n.span.start ∧ n.span.stop ≤ c.position

theorem Along.walk {ls : List Piece} (h : Along text ns c) (hwalk : Walk ls c r)
    (hls : ∀ l ∈ ls, l.kind ≠ .stray) (hr : Settled r) : Along text ns r :=
  ⟨h.place.walk hwalk hls hr, h.nested, fun n hn =>
    ⟨(h.inside n hn).1, (h.inside n hn).2.trans hwalk.passes.le⟩⟩

theorem Along.sub {ms : List Node} (h : Along text ns c) (hms : ms ⊆ ns) : Along text ms c :=
  ⟨h.place, fun n hn => h.nested n (hms hn), fun n hn => h.inside n (hms hn)⟩

/-- What is read from a place on is put to what has been read. -/
theorem Starts.along (h : Starts text p ν) : Gathers (fun _ : Unit => Along text) p ν := by
  intro _ ns c a r hc hdone
  have hat := h c a r hc.place hdone
  obtain ⟨ks, hreached, -⟩ := hc.place.reached
  obtain ⟨-, ls, hwalk, -⟩ := hat.toBehind
  refine ⟨hat.cursor, fun n hn => ?_, fun n hn => ?_⟩ <;> rcases mem_append.1 hn with hn | hn
  · exact hc.nested n hn
  · exact (hat.toBehind.nested hn).1
  · exact ⟨(hc.inside n hn).1, (hc.inside n hn).2.trans hwalk.passes.le⟩
  · obtain ⟨-, hstart, hstop⟩ := hat.toBehind.nested hn
    exact ⟨hreached.passes.le.trans hstart, hstop⟩

theorem Starts.leavesAlong (h : Starts text p ν) : Leaves (fun _ : Unit => Along text) p :=
  fun i ns => (h.forget.along i ns).imp (fun _ hc => hc) fun _ _ hr => by rwa [List.append_nil] at hr

/-- A directive makes up the rest of its line. -/
theorem walk_directive {name : String} {t tail : List Char} {c₁ : Cursor} (hc : c.rest = '%' :: t)
    (hname : identifier (c.drop 1) = .done name c₁) (htail : restOfLine c₁ = .done tail r) :
    Walk [⟨.directive, '%' :: t.takeWhile fun y => !isBreak y⟩] c r := by
  have hrest : (c.drop 1).rest = t := by
    rw [Cursor.rest_drop, hc]
    rfl
  obtain ⟨-, rfl, rfl⟩ := identifier_eq_done.1 hname
  rw [hrest] at htail
  rw [restOfLine, takeWhile, Cursor.rest_drop, hrest, drop_length_takeWhile] at htail
  cases htail
  -- the name holds no line break, so the line goes on through it
  have hline : (t.takeWhile fun y => !isBreak y) = t.takeWhile isNameChar ++
      (t.dropWhile isNameChar).takeWhile fun y => !isBreak y := by
    have happend : (t.takeWhile isNameChar ++ t.dropWhile isNameChar).takeWhile
        (fun y => !isBreak y) = t.takeWhile isNameChar ++
          (t.dropWhile isNameChar).takeWhile fun y => !isBreak y := by
      refine takeWhile_append_of_pos fun y hy => ?_
      have hname := all_eq_true.1 all_takeWhile y hy
      by_contra hbreak
      simp only [isBreak, Bool.not_eq_true', Bool.not_eq_false, Bool.or_eq_true, beq_iff_eq] at hbreak
      rcases hbreak with rfl | rfl <;> exact absurd hname (by decide)
    rwa [takeWhile_append_dropWhile] at happend
  have hlength : 1 + ((t.takeWhile isNameChar).length +
      ((t.dropWhile isNameChar).takeWhile fun y => !isBreak y).length) =
      (t.takeWhile fun y => !isBreak y).length + 1 := by
    rw [hline, length_append]
    omega
  rw [Cursor.drop_drop, Cursor.drop_drop, hlength]
  refine walk_drop ?_ ?_ <;> rw [hc, drop_succ_cons, drop_length_takeWhile]
  · simp
  · exact pieces_directive t

/-- A directive begins where it is found, and white space is taken behind it. -/
theorem exists_walk_of_directive {d : Directive} (h : directive c = .done d r) :
    ∃ line ls, Walk (⟨.directive, line⟩ :: ls) c r ∧ Ordinary ls ∧ Settled r ∧
      d.span.start = c.position := by
  obtain ⟨⟨⟨name, tail⟩, span⟩, c₁, hspanned, _, c₂, hblanks, hpure⟩ := bind₂_eq_done.1 h
  cases hpure
  obtain ⟨x, hread, heq⟩ := spanned_eq_done.1 hspanned
  obtain ⟨-, rfl⟩ := Prod.mk.inj heq
  obtain ⟨_, d₁, hpercent, hread⟩ := bind_eq_done.1 hread
  obtain ⟨-, rfl, t, ht⟩ := char_eq_done.1 hpercent
  obtain ⟨name', d₂, hname, tail', d₃, htail, hpure⟩ := bind₂_eq_done.1 hread
  cases hpure
  cases hblanks
  obtain ⟨ls, hgap, hls, hsettled⟩ := walk_blanks c₁
  exact ⟨_, ls, (walk_directive ht hname htail).trans hgap, hls, hsettled, rfl⟩

theorem leaves_directive : Leaves (fun _ : Unit => Along text) directive := by
  intro _ ns c d r hc hdone
  obtain ⟨line, ls, hwalk, hls, hsettled, -⟩ := exists_walk_of_directive hdone
  exact hc.walk hwalk (forall_mem_cons.2 ⟨by simp, fun _ => hls.ne_stray⟩) hsettled

/-! ## Programs -/

/-- The nodes of what may stand before the main body. -/
def PrologueItem.nodes (i : PrologueItem) : List Node := i.declaration?.elim [] fun d => [d.node]

theorem gathers_prologue : Gathers (fun _ : Unit => Along text)
    (many ((PrologueItem.directive <$> directive) <|> (.declaration <$> declaration)))
    fun items => items.flatMap PrologueItem.nodes := by
  refine Gathers.many (.orElse (.map ?_) (.map ?_))
  · exact .of_leaves leaves_directive fun _ => rfl
  · exact starts_declaration.along

theorem gathers_statements :
    Gathers (fun _ : Unit => Along text) statements Statement.nodes := by
  intro i ns
  refine (starts_statement.along.many i ns).imp (fun _ hc => hc) fun ss _ hr => ?_
  rwa [Statement.nodes_eq_flatMap]

/-- The first place of a text is behind its leading white space. -/
theorem place_blanks {a : Unit} (hpaired : returnsPaired text)
    (h : blanks ⟨text, .first⟩ = .done a c) : Place text c := by
  cases h
  obtain ⟨ls, hwalk, hls, hsettled⟩ := walk_blanks ⟨text, .first⟩
  refine ⟨⟨ls, hwalk, fun _ => hls.ne_stray⟩, ?_, hsettled⟩
  have hrest := hwalk.passes.rest
  simp only at hrest
  rw [hrest] at hpaired
  exact returnsPaired_of_append hpaired

theorem yields_endOfText {A : Cursor → Prop} :
    Yields A endOfText fun _ c => A c ∧ c.rest = [] := by
  intro c a r hc hdone
  rw [endOfText] at hdone
  split at hdone
  · rename_i hend
    cases hdone
    exact ⟨hc, isEmpty_iff.1 hend⟩
  · cases hdone

theorem flatMap_declaration? (items : List PrologueItem) :
    ((items.filterMap PrologueItem.declaration?).flatMap fun d => [d.node]) =
      items.flatMap PrologueItem.nodes := by
  induction items with
  | nil => rfl
  | cons i items ih =>
    rw [flatMap_cons, ← ih]
    cases i <;> rfl

/-- **A program that has been read is in place**, and nothing is left of the text. -/
theorem along_of_program {p : Program} (hpaired : returnsPaired text)
    (h : program ⟨text, .first⟩ = .done p r) :
    Along text p.nodes r ∧ r.rest = [] ∧ p.span = ⟨.first, r.position⟩ := by
  obtain ⟨_, _, htop, h⟩ := bind_eq_done.1 h
  cases htop
  obtain ⟨_, c₁, hblanks, _, _, hcursor, h⟩ := bind₂_eq_done.1 h
  cases hcursor
  -- the heading is read like a statement; from there on declarations and directives alternate
  obtain ⟨_, c₂, hword, h⟩ := bind_eq_done.1 h
  have hat : At text c₁ [] c₂ := starts_kw c₁ _ c₂ (place_blanks hpaired hblanks) hword
  obtain ⟨name, c₃, hname, h⟩ := bind_eq_done.1 h
  have hbehind := lexesOne_name.lexes.behind c₂ name c₃ hat.toBehind hname
  obtain ⟨_, c₄, hspaces, h⟩ := bind_eq_done.1 h
  obtain ⟨ls, hwalk, hls⟩ := walk_spaces hspaces
  obtain ⟨_, _, hcursor, h⟩ := bind_eq_done.1 h
  cases hcursor
  obtain ⟨_, c₅, hblanks, h⟩ := bind_eq_done.1 h
  have hat := yields_blanks c₄ _ c₅ (hbehind.extend hwalk hls) hblanks
  refine (show Yields (Along text []) _ fun p r => Along text p.nodes r ∧ r.rest = [] ∧
    p.span = ⟨.first, r.position⟩ from (gathers_prologue () []).bind fun prologue =>
    ((starts_kw).leavesAlong () _).bind fun _ =>
    (gathers_statements () _).bind fun main => ((starts_kw).leavesAlong () _).bind fun _ =>
    (starts_ident.leavesAlong () _).bind fun _ =>
    (starts_declaration.along.many () _).bind fun trailing =>
    (Yields.position (B := fun s c => Along text _ c ∧ s = c.position) fun _ hc => ⟨hc, rfl⟩).bind
    fun stop => yields_endOfText.bind fun _ => .pure fun _ hc => ?_) c₅ p r
    ⟨hat.cursor, by simp, by simp⟩ h
  obtain ⟨⟨halong, hstop⟩, hrest⟩ := hc
  refine ⟨halong.sub fun n hn => ?_, hrest, by rw [hstop]⟩
  rw [Program.nodes, flatMap_append, flatMap_declaration?] at hn
  simp only [mem_append] at hn ⊢
  tauto

end RobotSource.Karel.Grammar

namespace RobotSource.Karel.Program

open Grammar Parsing

/-- **The spans of a program are exact.** Every declaration, type, field, variable, constant,
statement and expression lies inside what it belongs to, begins with a token and ends behind one, and
nothing but white space and comments follows up to the next token. -/
theorem spansNested_of_parse {text : String} {p : Program}
    (hpaired : returnsPaired text.toList = true) (h : Program.parse text = .ok p) :
    p.SpansNested text.toList := by
  obtain ⟨r, hdone⟩ := Parser.run_eq_ok.1 h
  obtain ⟨halong, hrest, hspan⟩ := along_of_program hpaired hdone
  obtain ⟨ls, hwalk, hls⟩ := halong.place.reached
  have hstray : ∀ l ∈ pieces text.toList, l.kind ≠ .stray := by
    have hpieces : pieces text.toList = ls := by
      rw [hwalk.pieces, hrest, pieces, List.append_nil]
    rwa [hpieces]
  refine ⟨?_, ?_, fun n hn => (halong.nested n hn).mono fun q hq => hq.endsToken hstray⟩
  · rw [hspan]
    exact hwalk.passes.le
  · rw [hspan]
    exact halong.inside

/-- Quotes and dashes in comments, dashes in a string, a directive, and line breaks of two
characters. -/
theorem spansNested_of_parse_commented :
    let text := "PROGRAM p\r\n%DELAY -- it's\r\nVAR a, b : ARRAY[2] OF REAL -- it's\r\nBEGIN\r\n" ++
      "  a[1] = -x.y -- don't '--\r\n  -- nor here\r\n  WRITE('-- no', 'z') -- '\r\nEND p\r\n"
    returnsPaired text.toList = true ∧ ∃ p, Program.parse text = .ok p ∧
      p.main.map Statement.span = [⟨⟨5, 3⟩, ⟨5, 14⟩⟩, ⟨⟨7, 3⟩, ⟨7, 22⟩⟩] ∧
      p.SpansNested text.toList := by
  intro text
  have hpaired : returnsPaired text.toList := by decide +kernel
  have hmap : (Program.parse text).map (fun p => p.main.map Statement.span) =
      .ok [⟨⟨5, 3⟩, ⟨5, 14⟩⟩, ⟨⟨7, 3⟩, ⟨7, 22⟩⟩] := by decide +kernel
  cases hparse : Program.parse text with
  | ok p =>
    rw [hparse] at hmap
    exact ⟨hpaired, p, rfl, Except.ok.inj hmap, spansNested_of_parse hpaired hparse⟩
  | error e =>
    rw [hparse] at hmap
    cases hmap

end RobotSource.Karel.Program
