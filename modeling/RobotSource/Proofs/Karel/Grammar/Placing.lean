import RobotSource.Proofs.Karel.Grammar.Lexing
import RobotSource.Proofs.Karel.Outline
/-!
# Nodes in place in a Karel text

A parser moves from place to place between the pieces of the text. `At` is the state behind something
that has been read: white space is taken, and nodes lie between the place where reading began and the
end of the code. `Behind` is the state directly behind a token, before white space is taken.

Parsers that begin at a place read at least one token (`Starts`); those inside a rule go on from a
state (`Adds`). `coded` finds the end of the code by a scan, which `Starts.coded` ties to the pieces.
-/

namespace RobotSource.Karel.Grammar

open Parsing Parsing.Parser Text List

variable {α β : Type} {text : List Char} {b c r : Cursor} {ns ms : List Node} {ls : List Piece}
  {p q : Parser α} {here last : Position}
variable {rule : Parser α → Parser α}

/-! ## The end of the code, piece by piece -/

theorem codeEnd_append (ls ms : List Piece) : codeEnd here last (ls ++ ms) =
    codeEnd (here.afterAll (flat ls)) (codeEnd here last ls) ms := by
  induction ls generalizing here last with
  | nil => rfl
  | cons l ls ih => rw [cons_append, codeEnd, ih, flat_cons, Position.afterAll_append, codeEnd]

/-- The end of the code does not depend on what came before the first token. -/
theorem codeEnd_of_token {l : Piece} (h : l.kind = .token) (last' : Position) :
    codeEnd here last (l :: ls) = codeEnd here last' (l :: ls) := by
  rw [codeEnd, codeEnd, if_pos h, if_pos h]

theorem le_codeEnd (h : last ≤ here) (ls : List Piece) :
    last ≤ codeEnd here last ls ∧ codeEnd here last ls ≤ here.afterAll (flat ls) := by
  induction ls generalizing here last with
  | nil => exact ⟨le_refl _, h⟩
  | cons l ls ih =>
    have hle := Position.le_afterAll here l.chars
    rw [codeEnd, flat_cons, Position.afterAll_append]
    split
    · exact ⟨h.trans (hle.trans (ih (le_refl _)).1), (ih (le_refl _)).2⟩
    · exact ih (h.trans hle)

/-- The code ends where it did before, or behind one of the tokens. -/
theorem codeEnd_cases (here last : Position) (ls : List Piece) :
    codeEnd here last ls = last ∧ (∀ l ∈ ls, l.kind ≠ .token) ∨
      ∃ before token after, ls = before ++ token :: after ∧ token.kind = .token ∧
        codeEnd here last ls = here.afterAll (flat (before ++ [token])) := by
  induction ls generalizing here last with
  | nil => exact .inl ⟨rfl, by simp⟩
  | cons l ls ih =>
    rw [codeEnd]
    rcases ih (here.afterAll l.chars) (if l.kind = .token then here.afterAll l.chars else last) with
      ⟨hend, hnone⟩ | ⟨before, token, after, rfl, htoken, hend⟩
    · by_cases hl : l.kind = .token
      · refine .inr ⟨[], l, ls, rfl, hl, ?_⟩
        rw [hend, if_pos hl]
        simp
      · exact .inl ⟨by rw [hend, if_neg hl], forall_mem_cons.2 ⟨hl, hnone⟩⟩
    · refine .inr ⟨l :: before, token, after, rfl, htoken, ?_⟩
      rw [hend, cons_append, flat_cons, Position.afterAll_append]

/-! ## Places -/

/-- A place between the pieces of the text, behind white space. -/
structure Place (text : List Char) (c : Cursor) : Prop where
  reached : ∃ ls, Walk ls ⟨text, .first⟩ c ∧ ∀ l ∈ ls, l.kind ≠ .stray
  paired : returnsPaired c.rest = true
  settled : Settled c

theorem Place.walk (h : Place text c) (hwalk : Walk ls c r) (hls : ∀ l ∈ ls, l.kind ≠ .stray)
    (hr : Settled r) : Place text r := by
  obtain ⟨ks, hreached, hks⟩ := h.reached
  refine ⟨⟨ks ++ ls, hreached.trans hwalk, fun l hl => ?_⟩, ?_, hr⟩
  · exact (mem_append.1 hl).elim (hks l) (hls l)
  · have hpaired := h.paired
    rw [hwalk.passes.rest] at hpaired
    exact returnsPaired_of_append hpaired

/-- Where white space has been taken, the first piece is a token. -/
theorem exists_token (h : Walk ls c r) (hne : ls ≠ []) (hls : Ordinary ls) (hc : Settled c) :
    ∃ l ms, ls = l :: ms ∧ l.kind = .token := by
  obtain ⟨l, ms, rfl⟩ := exists_cons_of_ne_nil hne
  refine ⟨l, ms, rfl, ?_⟩
  have hpieces := h.pieces
  rw [cons_append] at hpieces
  have hl := hls l mem_cons_self
  rcases pieces_cases hpieces with ⟨x, s, hrest, hx, -, -⟩ | ⟨s, hrest, hs, -, -⟩ |
    ⟨n, -, -, rfl, -⟩ | hkind | hkind
  · rw [Settled, hrest, blankLength_eq_zero, hx] at hc
    cases hc.1
  · rw [Settled, hrest, blankLength_eq_zero] at hc
    exact absurd ⟨rfl, hs⟩ hc.2
  · rfl
  · rw [Piece.isGap, hkind] at hl
    rcases hl with hl | hl <;> cases hl
  · exact absurd hkind (hls.ne_stray mem_cons_self)

/-! ## States -/

/-- Something has been read from a place on, and the nodes lie between that place and the end of the
code. -/
structure Behind (text : List Char) (b : Cursor) (ns : List Node) (c : Cursor) : Prop where
  place : Place text b
  walk : ∃ ls, Walk ls b c ∧ ls ≠ [] ∧ Ordinary ls ∧ ∀ n ∈ ns,
    n.Nested (TokenStart text) (TokenEnd text) ∧ b.position ≤ n.span.start ∧
      n.span.stop ≤ codeEnd b.position b.position ls

/-- The same, and white space has been taken. -/
structure At (text : List Char) (b : Cursor) (ns : List Node) (c : Cursor) : Prop
    extends Behind text b ns c where
  settled : Settled c

/-- What is read begins with a token. -/
theorem tokenStart_position (hb : Place text b) (h : Walk ls b c) (hne : ls ≠ [])
    (hls : Ordinary ls) : TokenStart text b.position := by
  obtain ⟨l, ms, rfl, hl⟩ := exists_token h hne hls hb.settled
  obtain ⟨ks, hwalk, -⟩ := hb.reached
  refine ⟨ks, l, ms ++ pieces c.rest, ?_, hl, hwalk.passes.position⟩
  have hpieces := hwalk.pieces
  rwa [h.pieces] at hpieces

/-- The end of what has been read is that of a token. -/
theorem tokenEnd_codeEnd (hb : Place text b) (h : Walk ls b c) (hne : ls ≠ []) (hls : Ordinary ls) :
    TokenEnd text (codeEnd b.position b.position ls) := by
  obtain ⟨l, ms, rfl, hl⟩ := exists_token h hne hls hb.settled
  rcases codeEnd_cases b.position b.position (l :: ms) with
    ⟨-, hnone⟩ | ⟨before, token, after, heq, htoken, hend⟩
  · exact absurd hl (hnone l mem_cons_self)
  · obtain ⟨ks, hwalk, -⟩ := hb.reached
    refine ⟨ks ++ before, token, after ++ pieces c.rest, ?_, htoken, ?_⟩
    · have hpieces := hwalk.pieces
      rw [h.pieces, heq] at hpieces
      rw [hpieces]
      simp
    · rw [hend, hwalk.passes.position, ← Position.afterAll_append, append_assoc, flat_append ks]

namespace Behind

/-- Some of the nodes. -/
theorem sub (h : Behind text b ns c) (hms : ms ⊆ ns) : Behind text b ms c := by
  obtain ⟨hb, ls, hwalk, hne, hls, hns⟩ := h
  exact ⟨hb, ls, hwalk, hne, hls, fun n hn => hns n (hms hn)⟩

/-- Further pieces behind what has been read. -/
theorem extend (h : Behind text b ns c) (h' : Walk ls c r) (hls : Ordinary ls) :
    Behind text b ns r := by
  obtain ⟨hb, ks, hwalk, hne, hks, hns⟩ := h
  refine ⟨hb, ks ++ ls, hwalk.trans h', by simp [hne], hks.append hls, fun n hn => ?_⟩
  obtain ⟨hnested, hstart, hstop⟩ := hns n hn
  refine ⟨hnested, hstart, hstop.trans ?_⟩
  rw [codeEnd_append]
  exact (le_codeEnd (le_codeEnd (le_refl _) ks).2 ls).1

/-- What is read from a place on may be put to what was read up to there. -/
theorem append (h : Behind text b ns c) (h' : Behind text c ms r) : Behind text b (ns ++ ms) r := by
  obtain ⟨hb, ls, hwalk, hne, hls, hns⟩ := h
  obtain ⟨hc, ls', hwalk', hne', hls', hms⟩ := h'
  obtain ⟨l, ks, rfl, hl⟩ := exists_token hwalk' hne' hls' hc.settled
  have hend : codeEnd b.position b.position (ls ++ l :: ks) =
      codeEnd c.position c.position (l :: ks) := by
    rw [codeEnd_append, hwalk.passes.position, codeEnd_of_token hl]
  have hle : codeEnd b.position b.position ls ≤ codeEnd c.position c.position (l :: ks) := by
    refine (le_codeEnd (le_refl _) ls).2.trans ?_
    rw [← hwalk.passes.position]
    exact (le_codeEnd (le_refl _) _).1
  refine ⟨hb, ls ++ l :: ks, hwalk.trans hwalk', by simp, hls.append hls', fun n hn => ?_⟩
  rw [hend]
  rcases mem_append.1 hn with hn | hn
  · obtain ⟨hnested, hstart, hstop⟩ := hns n hn
    exact ⟨hnested, hstart, hstop.trans hle⟩
  · obtain ⟨hnested, hstart, hstop⟩ := hms n hn
    exact ⟨hnested, hwalk.passes.le.trans hstart, hstop⟩

end Behind

namespace At

theorem sub (h : At text b ns c) (hms : ms ⊆ ns) : At text b ms c := ⟨h.toBehind.sub hms, h.settled⟩

theorem append (h : At text b ns c) (h' : At text c ms r) : At text b (ns ++ ms) r :=
  ⟨h.toBehind.append h'.toBehind, h'.settled⟩

/-- The cursor is at a place again. -/
theorem cursor (h : At text b ns c) : Place text c := by
  obtain ⟨⟨hb, ls, hwalk, -, hls, -⟩, hsettled⟩ := h
  exact hb.walk hwalk (fun _ => hls.ne_stray) hsettled

end At

/-- White space is taken behind what has been read. -/
theorem yields_blanks : Yields (Behind text b ns) blanks fun _ => At text b ns := by
  intro c a r hc hdone
  cases hdone
  obtain ⟨ls, hwalk, hls, hsettled⟩ := walk_blanks c
  exact ⟨hc.extend hwalk hls, hsettled⟩

/-! ## Parsers that begin at a place -/

/-- What holds of the value and the cursor when the parser has read something from a place on. -/
def From (text : List Char) (p : Parser α) (C : Cursor → α → Cursor → Prop) : Prop :=
  ∀ c a r, Place text c → p c = .done a r → C c a r

/-- From a place on the parser reads something, and the nodes of what it reads are in place. -/
abbrev Starts (text : List Char) (p : Parser α) (nodes : α → List Node) : Prop :=
  From text p fun b a => At text b (nodes a)

/-- The same for a parser that leaves white space behind a token. -/
abbrev Begins (text : List Char) (p : Parser α) (nodes : α → List Node) : Prop :=
  From text p fun b a => Behind text b (nodes a)

/-- The nodes of what the parser reads are put to those in place. -/
abbrev Adds (text : List Char) (p : Parser α) (nodes : α → List Node) : Prop :=
  Gathers (At text) p nodes

variable {ν : α → List Node} {μ : β → List Node}

namespace From

variable {B B' : Cursor → α → Cursor → Prop} {C : Cursor → β → Cursor → Prop}

theorem imp (h : From text p B) (hB : ∀ b a c, B b a c → B' b a c) : From text p B' :=
  fun c a r hc hdone => hB c a r (h c a r hc hdone)

theorem bind {f : α → Parser β} (h : From text p B) (hf : ∀ a b, Yields (B b a) (f a) (C b)) :
    From text (p >>= f) C := by
  intro c x r hc hdone
  obtain ⟨a, c₁, hp, hdone⟩ := bind_eq_done.1 hdone
  exact hf a c c₁ x r (h c a c₁ hc hp) hdone

theorem map {f : α → β} (h : From text p fun b a => C b (f a)) : From text (f <$> p) C :=
  h.bind fun _ _ => .pure fun _ hc => hc

theorem orElse (h : From text p B) (h' : From text q B) : From text (p <|> q) B := by
  intro c a r hc hdone
  rcases orElse_eq_done hdone with hdone | hdone
  · exact h c a r hc hdone
  · exact h' c a r hc hdone

theorem position {f : Position → Parser α} (h : ∀ s, From text (f s) B) :
    From text (position >>= f) B :=
  fun c a r hc hdone => h c.position c a r hc hdone

/-- A rule does so if its body does whenever the inner references do. -/
theorem nested (h : ∀ p, From text p B → From text (rule p) B) :
    From text (Parser.nested rule) B := by
  intro c a r hc hdone
  refine Yields.nested (A := fun c d => d = c ∧ Place text c) (B := B) (fun p hp c => ?_) c c a r
    ⟨rfl, hc⟩ hdone
  rintro _ a r ⟨rfl, hd⟩ hdone
  exact h p (fun c a r hc hdone => hp c c a r ⟨rfl, hc⟩ hdone) _ a r hd hdone

end From

namespace Starts

theorem begins (h : Starts text p ν) : Begins text p ν := h.imp fun _ _ _ hr => hr.toBehind

theorem adds (h : Starts text p ν) : Adds text p ν :=
  fun _ _ c a r hc hdone => hc.append (h c a r hc.cursor hdone)

/-- Nodes that nothing is made of may be forgotten. -/
theorem forget (h : Starts text p ν) : Starts text p fun _ => [] :=
  h.imp fun _ _ _ hr => hr.sub (by simp)

theorem leaves (h : Starts text p ν) : Leaves (At text) p :=
  fun b ns => (h.forget.adds b ns).imp (fun _ hc => hc) fun _ _ hr => by rwa [append_nil] at hr

theorem seqRight {q : Parser β} (h : Starts text p fun _ => []) (hq : Adds text q μ) :
    Starts text (p *> q) μ :=
  h.bind fun _ b => hq b []

theorem many1 (h : Starts text p ν) : Starts text (Parser.many1 p) fun as => as.flatMap ν :=
  h.bind fun a b => (h.adds.many b (ν a)).bind fun _ => .pure fun _ hc => hc

theorem sepBy1 {s : Parser β} (hs : Leaves (At text) s) (h : Starts text p ν) :
    Starts text (Parser.sepBy1 s p) fun as => as.flatMap ν := by
  refine h.bind fun a b => ?_
  have htail := Yields.sepTail (I := fun as => At text b (as.flatMap ν)) (p := p)
    (fun as => hs b _) (fun as => by simpa using h.adds b (as.flatMap ν)) [a]
  refine (htail.imp (fun _ hc => ?_) fun _ _ hr => hr).bind fun _ => .pure fun _ hc => hc
  simpa using hc

end Starts

theorem Lexes.begins (h : Lexes p) : Begins text p fun _ => [] := by
  intro c a r hc hdone
  obtain ⟨-, ls, hwalk, hne, hls⟩ := h c a r hdone
  exact ⟨hc, ls, hwalk, hne, hls, by simp⟩

theorem Lexes.behind (h : Lexes p) : Yields (Behind text b ns) p fun _ => Behind text b ns := by
  intro c a r hc hdone
  obtain ⟨-, ls, hwalk, -, hls⟩ := h c a r hdone
  exact hc.extend hwalk hls

/-- White space may be taken behind a token. -/
theorem Lexes.starts (h : Lexes p) : Starts text (do let _ ← p; blanks) fun _ => [] :=
  h.begins.bind fun _ _ => yields_blanks

theorem starts_kw {word : String} [Lettered word] : Starts text (kw word) fun _ => [] :=
  lexes_keyword.starts

theorem starts_punct {x : Char} [Among x [loneMarks]] : Starts text (punct x) fun _ => [] :=
  lexesOne_char.lexes.starts

theorem starts_ident : Starts text ident fun _ => [] :=
  lexesOne_name.lexes.begins.bind fun _ _ => yields_blanks.bind fun _ => .pure fun _ hc => hc

/-- An operator is read where its marks make up a token. -/
theorem at_op {sym : String} {a : Unit} (hmarks : (sym.toList.all isMark) = true)
    (hc : Place text c) (hdone : op sym c = .done a r)
    (htoken : ∀ t, c.rest = sym.toList ++ t → tokenLength? c.rest = some sym.toList.length) :
    At text c [] r := by
  obtain ⟨_, c₁, hsymbol, hblanks⟩ := bind_eq_done.1 hdone
  obtain ⟨ls, hwalk, hne, hls⟩ := walk_symbol hmarks hc.settled hsymbol htoken
  exact yields_blanks c₁ _ r ⟨hc, ls, hwalk, hne, hls, by simp⟩ hblanks

/-- An operator of one mark that is a token whatever follows. -/
theorem starts_op {sym : String} [h : Among sym [["(", ")", "=", "+", "-", "*", "/"]]] :
    Starts text (op sym) fun _ => [] := by
  intro c a r hc hdone
  have hall : ∀ sym ∈ ["(", ")", "=", "+", "-", "*", "/"], ∃ x ∈ soloMarks, sym.toList = [x] := by
    simp [soloMarks]
  obtain ⟨x, hx, hsym⟩ := hall sym h.mem_row
  have hmark : isMark x := by
    have hall : (soloMarks.all isMark) = true := by decide
    exact all_eq_true.1 hall x hx
  refine at_op (by simp [hsym, hmark]) hc hdone fun t ht => ?_
  rw [ht, hsym]
  exact tokenLength?_solo hx

theorem starts_double {sym : String} [h : Among sym [["<=", ">=", "<>", "::"]]] :
    Starts text (op sym) fun _ => [] := by
  intro c a r hc hdone
  have hsym : sym.toList ∈ doubleMarks :=
    (by decide : ∀ sym ∈ ["<=", ">=", "<>", "::"], sym.toList ∈ doubleMarks) sym h.mem_row
  have hall : ∀ ms ∈ doubleMarks, ms.all isMark := by decide
  refine at_op (hall _ hsym) hc hdone fun t ht => ?_
  rw [ht]
  simp only [doubleMarks, mem_cons, not_mem_nil, or_false] at hsym
  rcases hsym with hsym | hsym | hsym | hsym <;> rw [hsym] <;> rfl

/-! ## Nodes -/

/-- All that has been read makes up a node. -/
theorem Behind.wrap (h : Behind text b ns c) (hwalk : Walk ls b c) :
    Behind text b (.mk ⟨b.position, codeEnd b.position b.position ls⟩ .any ns :: ns) c := by
  obtain ⟨hb, ks, hwalk', hne, hls, hns⟩ := h
  cases hwalk.unique hwalk'
  refine ⟨hb, ls, hwalk, hne, hls, forall_mem_cons.2 ⟨⟨?_, le_refl _, le_refl _⟩, hns⟩⟩
  exact .mk (tokenStart_position hb hwalk hne hls) (tokenEnd_codeEnd hb hwalk hne hls)
    (le_codeEnd (le_refl _) ls).1 (fun m hm => (hns m hm).2) fun m hm => (hns m hm).1

/-- **The span of the code that has been read is that of a node.** -/
theorem Behind.coded (h : Behind text c ns r) :
    Behind text c [.mk ⟨c.position, endOfCode c.position (c.upTo r)⟩ .any ns] r := by
  obtain ⟨hc, ls, hwalk, hne, hls, -⟩ := id h
  have hend : endOfCode c.position (c.upTo r) = codeEnd c.position c.position ls := by
    rw [endOfCode, hwalk.passes.upTo_eq]
    exact scanCode_pieces hwalk.pieces hls hc.paired (by simp) _ _
  rw [hend]
  exact (h.wrap hwalk).sub (by simp)

/-- What ends with a token is a node that reaches up to the cursor. -/
theorem At.close {a : α} (h : At text b ns c) (hp : LexesOne p) (hdone : p c = .done a r) :
    Behind text b (.mk ⟨b.position, r.position⟩ .any ns :: ns) r := by
  obtain ⟨hc, n, hn, rfl⟩ := hp c a r hdone
  have htoken := walk_token hc hn
  obtain ⟨-, ls, hwalk, -⟩ := id h.toBehind
  have hend : codeEnd b.position b.position (ls ++ [⟨.token, c.rest.take n⟩]) =
      (c.drop n).position := by
    rw [codeEnd_append, ← hwalk.passes.position]
    rfl
  rw [← hend]
  exact (h.toBehind.extend htoken (.token _)).wrap (hwalk.trans htoken)

theorem Starts.coded (h : Starts text p ν) :
    Starts text (Grammar.coded p) fun x => [.mk x.2 .any (ν x.1)] := by
  intro c x r hc hdone
  obtain ⟨a, hp, rfl⟩ := coded_eq_done hdone
  have hat := h c a r hc hp
  exact ⟨hat.toBehind.coded, hat.settled⟩

theorem Lexes.lexeme (h : Lexes p) : Starts text (Grammar.lexeme p) fun x => [.mk x.2 .any []] := by
  have hcoded : From text (Grammar.coded p) fun b x => Behind text b [.mk x.2 .any []] := by
    intro c x r hc hdone
    obtain ⟨a, hp, rfl⟩ := coded_eq_done hdone
    exact (h.begins c a r hc hp).coded
  exact hcoded.bind fun _ _ => yields_blanks.bind fun _ => .pure fun _ hc => hc

/-! ## What lacks its span -/

/-- Something has been read that becomes a node as soon as it is given its span. -/
def Made {τ : Type} (S : Cursor → List Node → Cursor → Prop) (node : τ → Node) (b : Cursor)
    (build : Span → τ) (c : Cursor) : Prop :=
  ∃ ns, S b ns c ∧ ∀ span, node (build span) = .mk span .any ns

section
variable {τ : Type} {node : τ → Node} {p : Parser (Span → τ)}

theorem coded_of_made (h : From text p (Made (Behind text) node)) :
    From text (coded p) fun b x => Behind text b [node (x.1 x.2)] := by
  intro c x r hc hdone
  obtain ⟨build, hp, rfl⟩ := coded_eq_done hdone
  obtain ⟨ns, hns, hnode⟩ := h c build r hc hp
  rw [hnode]
  exact hns.coded

theorem lexeme_of_made (h : From text p (Made (Behind text) node)) :
    Starts text (lexeme p) fun x => [node (x.1 x.2)] :=
  (coded_of_made h).bind fun _ _ => yields_blanks.bind fun _ => .pure fun _ hc => hc

theorem starts_of_made (h : From text p (Made (At text) node)) :
    Starts text (coded p) fun x => [node (x.1 x.2)] := by
  intro c x r hc hdone
  obtain ⟨build, hp, rfl⟩ := coded_eq_done hdone
  obtain ⟨ns, hns, hnode⟩ := h c build r hc hp
  change At text c [node (build _)] r
  rw [hnode]
  exact ⟨hns.toBehind.coded, hns.settled⟩

end

/-- A token alone has no nodes inside. -/
theorem Lexes.made {τ : Type} {node : τ → Node} {build : α → Span → τ} (h : Lexes p)
    (hbuild : ∀ a span, node (build a span) = .mk span .any []) :
    From text (do let a ← p; return build a) (Made (Behind text) node) :=
  h.begins.bind fun a _ => .pure fun _ hc => ⟨[], hc, hbuild a⟩

/-! ## Nodes made of others -/

namespace Behind

variable {n m : Node} {cs : List Node}

theorem nested (h : Behind text b ns c) (hn : n ∈ ns) :
    n.Nested (TokenStart text) (TokenEnd text) ∧ b.position ≤ n.span.start ∧
      n.span.stop ≤ c.position := by
  obtain ⟨-, ls, hwalk, -, -, hns⟩ := h
  obtain ⟨hnested, hstart, hstop⟩ := hns n hn
  refine ⟨hnested, hstart, hstop.trans ?_⟩
  rw [hwalk.passes.position]
  exact (le_codeEnd (le_refl _) ls).2

/-- A node may take the place of others if it ends where one of them does. -/
theorem replace (h : Behind text b ns c) (hn : n.Nested (TokenStart text) (TokenEnd text))
    (hstart : b.position ≤ n.span.start) (hm : m ∈ ns) (hstop : n.span.stop = m.span.stop) :
    Behind text b [n] c := by
  obtain ⟨hb, ls, hwalk, hne, hls, hns⟩ := h
  refine ⟨hb, ls, hwalk, hne, hls, fun k hk => ?_⟩
  rw [mem_singleton.1 hk, hstop]
  exact ⟨hn, hstart, (hns m hm).2.2⟩

/-- A node from the start of an earlier one to the end of a later one. -/
theorem cover (h : Behind text b ns c) (hn : n ∈ ns) (h' : Behind text c ms r) (hm : m ∈ ms)
    (hcs : ∀ k ∈ cs, k = n ∨ k ∈ ms ∧ k.span.stop ≤ m.span.stop) :
    Behind text b [.mk ⟨n.span.start, m.span.stop⟩ .any cs] r := by
  obtain ⟨hnNested, hnStart, hnStop⟩ := h.nested hn
  obtain ⟨hmNested, hmStart, -⟩ := h'.nested hm
  have hle : n.span.stop ≤ m.span.stop := hnStop.trans (hmStart.trans hmNested.start_le_stop)
  refine (h.append h').replace (.mk hnNested.start hmNested.stop
    (hnNested.start_le_stop.trans hle) (fun k hk => ?_) fun k hk => ?_) hnStart
    (mem_append_right _ hm) rfl
  · rcases hcs k hk with rfl | ⟨hkm, hstop⟩
    · exact ⟨le_refl _, hle⟩
    · exact ⟨hnNested.start_le_stop.trans (hnStop.trans (h'.nested hkm).2.1), hstop⟩
  · rcases hcs k hk with rfl | ⟨hkm, -⟩
    · exact hnNested
    · exact (h'.nested hkm).1

/-- Nodes are in place if each of them is. -/
theorem of_forall (h : Behind text b ms c) (hns : ∀ n ∈ ns, Behind text b [n] c) :
    Behind text b ns c := by
  obtain ⟨hb, ls, hwalk, hne, hls, -⟩ := h
  refine ⟨hb, ls, hwalk, hne, hls, fun n hn => ?_⟩
  obtain ⟨-, ks, hwalk', -, -, hn⟩ := hns n hn
  cases hwalk.unique hwalk'
  exact hn n (mem_singleton_self n)

end Behind

namespace At

variable {n m : Node}

/-- Two nodes one behind the other make up a node. -/
theorem join (h : At text b [n] c) (h' : At text c [m] r) :
    At text b [.mk ⟨n.span.start, m.span.stop⟩ .any [n, m]] r := by
  have hm : m ∈ [m] := mem_singleton_self m
  refine ⟨h.toBehind.cover (mem_singleton_self n) h'.toBehind hm fun k hk => ?_, h'.settled⟩
  rcases mem_pair.1 hk with rfl | rfl
  · exact .inl rfl
  · exact .inr ⟨hm, le_refl _⟩

/-- A name and what it stands for make up a node that holds the latter. -/
theorem reach (h : At text b [n] c) (h' : At text c [m] r) :
    At text b [.mk ⟨n.span.start, m.span.stop⟩ .any [m]] r := by
  have hm : m ∈ [m] := mem_singleton_self m
  refine ⟨h.toBehind.cover (mem_singleton_self n) h'.toBehind hm fun k hk => ?_, h'.settled⟩
  exact .inr ⟨hk, le_of_eq (by rw [mem_singleton.1 hk])⟩

/-- A node from the place where reading began to the end of a later one. -/
theorem prepend (h : At text b [] c) (h' : At text c [m] r) :
    At text b [.mk ⟨b.position, m.span.stop⟩ .any [m]] r := by
  have hm : m ∈ [m] := mem_singleton_self m
  obtain ⟨hmNested, hmStart, -⟩ := h'.toBehind.nested hm
  obtain ⟨hb, ls, hwalk, hne, hls, -⟩ := h.toBehind
  have hle : b.position ≤ m.span.start := hwalk.passes.le.trans hmStart
  refine ⟨(h.append h').toBehind.replace (.mk (tokenStart_position hb hwalk hne hls) hmNested.stop
    (hle.trans hmNested.start_le_stop) ?_ ?_) (le_refl _) hm rfl, h'.settled⟩
  · simpa using hle
  · simpa using hmNested

end At

/-! ## Colons -/

/-- The nodes are in place, or the cursor stands between two colons. These are one token, and nothing
that comes next begins with a colon. -/
def Near (text : List Char) (b : Cursor) (ns : List Node) (c : Cursor) : Prop :=
  At text b ns c ∨ c.rest.head? = some ':'

theorem yields_colon : Yields (At text b ns) (punct ':') fun _ => Near text b ns := by
  intro c a r hc hdone
  obtain ⟨_, c₁, hcolon, hblanks⟩ := bind_eq_done.1 hdone
  obtain ⟨-, rfl, t, ht⟩ := char_eq_done.1 hcolon
  have hrest : (c.drop 1).rest = t := by
    rw [Cursor.rest_drop, ht]
    rfl
  by_cases hsecond : t.head? = some ':'
  · right
    obtain ⟨s, rfl⟩ := head?_eq_some_iff.1 hsecond
    cases hblanks
    have hzero : blankLength false (':' :: s) = 0 := blankLength_eq_zero.2 ⟨by decide, by simp⟩
    rw [hrest, hzero, Cursor.drop_zero, hrest]
    rfl
  · left
    have htoken : tokenLength? c.rest = some 1 := by
      rw [ht]
      refine tokenLength?_mark (by decide) (by simp) fun hmem => hsecond ?_
      cases t with
      | nil => simp [doubleMarks] at hmem
      | cons y s => simpa [doubleMarks] using hmem
    exact yields_blanks _ a r (hc.toBehind.extend (walk_token hc.settled htoken) (.token _)) hblanks

/-- The parser gets nowhere at a colon. -/
def AvoidsColon (p : Parser α) : Prop := ∀ c a r, c.rest.head? = some ':' → p c ≠ .done a r

theorem avoidsColon_of_failsAt (h : FailsAt (some ':') p) : AvoidsColon p :=
  fun _ _ _ hc => h.ne_done hc

namespace Starts

theorem near (h : Starts text p ν) (hp : AvoidsColon p) (b : Cursor) (ns : List Node) :
    Yields (Near text b ns) p fun a => At text b (ns ++ ν a) := by
  rintro c a r (hc | hc) hdone
  · exact h.adds b ns c a r hc hdone
  · exact absurd hdone (hp c a r hc)

theorem gathersNear (h : Starts text p ν) (hp : AvoidsColon p) : Gathers (Near text) p ν :=
  fun b ns => (h.near hp b ns).imp (fun _ hc => hc) fun _ _ hr => .inl hr

/-- What is read behind a colon. -/
theorem addsColon (h : Starts text p ν) (hp : AvoidsColon p) : Adds text (punct ':' *> p) ν :=
  fun b ns => yields_colon.seqRight (h.near hp b ns)

end Starts

/-- A rule whose body never begins with a colon may rely on that for its inner references. -/
theorem From.nested_of_failsAt {B : Cursor → α → Cursor → Prop}
    (hrule : ∀ p, FailsAt (some ':') (rule p))
    (h : ∀ p, From text p B → AvoidsColon p → From text (rule p) B) :
    From text (Parser.nested rule) B := by
  intro c a r hc hdone
  refine (Yields.nested (A := fun c d => d = c ∧ (Place text c ∨ c.rest.head? = some ':'))
    (B := fun c a r => c.rest.head? ≠ some ':' ∧ B c a r) (fun p hp c => ?_) c c a r
    ⟨rfl, .inl hc⟩ hdone).2
  rintro _ a r ⟨rfl, hd⟩ hdone
  refine ⟨fun hcolon => (hrule p).ne_done hcolon hdone, ?_⟩
  rcases hd with hd | hd
  · exact h p (fun c a r hc hread => (hp c c a r ⟨rfl, .inl hc⟩ hread).2)
      (fun c a r hc hread => (hp c c a r ⟨rfl, .inr hc⟩ hread).1 hc) _ a r hd hdone
  · exact absurd hdone ((hrule p).ne_done hd)

theorem failsAt_nested {x : Option Char}
    (h : ∀ p, FailsAt x (rule p)) : FailsAt x (nested rule) := by
  intro c hc
  rw [nested]
  exact h _ c hc

end RobotSource.Karel.Grammar
