import RobotSource.Proofs.Parsing.Cursor
/-!
# Outlines of syntax trees

The outline of a tree forgets everything but its spans and what must stand in the text at a span. A
node is exact (`Node.Exact`) if its span keeps to the row and shows in the text what it should, if its
children lie inside it, in order and apart from each other, and if they are exact as well.

A parser reads the children of a node one after the other. `At` is the state in between: nodes that
are already in place from some position up to the cursor. Parsers that read over plain text keep it
(`Reads.keepsAt`), and those that read a node put it behind the others; `Adds` says so of a parser.
How parsers are put together does not depend on what places are like, and `Gathers` leaves it open.
-/

namespace RobotSource.Parsing

open List

/-- What stands in the text at the span of a node. -/
inductive Shown where
  /-- nothing in particular -/
  | any
  /-- the text itself -/
  | exactly (text : String)
  /-- the text between two quotes of one kind -/
  | quoted (content : String)
  /-- the name, and something in square brackets -/
  | bracketed (name : String)

/-- Whether that is what the row holds between the ends of the span. -/
def Shown.Fits (text : List Char) (span : Span) : Shown → Prop
  | .any => True
  | .exactly s => rowSlice? text span = some s.toList
  | .quoted s => ∃ quote, (quote = '\'' ∨ quote = '"') ∧
      rowSlice? text span = some (quote :: s.toList ++ [quote])
  | .bracketed name => ∃ inner, rowSlice? text span = some (name.toList ++ '[' :: inner ++ [']'])

theorem Shown.fits_any {text : List Char} {span : Span} : Shown.any.Fits text span := trivial

/-- A node of an outline. -/
inductive Node where
  | mk (span : Span) (shown : Shown) (children : List Node)

/-- The span of a node. -/
def Node.span : Node → Span
  | .mk span _ _ => span

/-- The node stands in the row and shows in the text what it should, and its children lie inside it,
in order, apart from each other, and exact as well. -/
inductive Node.Exact (text : List Char) (row : Nat) : Node → Prop
  | mk {span : Span} {shown : Shown} {children : List Node}
      (start_row : span.start.line = row) (stop_row : span.stop.line = row)
      (start_le_stop : span.start ≤ span.stop)
      (fits : shown.Fits text span)
      (inside : ∀ n ∈ children, span.start ≤ n.span.start ∧ n.span.stop ≤ span.stop)
      (apart : children.Pairwise fun a b => a.span.stop ≤ b.span.start)
      (exact : ∀ n ∈ children, n.Exact text row) : Exact text row (.mk span shown children)

namespace Node.Exact

variable {text : List Char} {row : Nat} {n : Node}

theorem start_le_stop (h : n.Exact text row) : n.span.start ≤ n.span.stop := by
  cases h with
  | mk _ _ hle _ _ _ _ => exact hle

theorem rows (h : n.Exact text row) : n.span.start.line = row ∧ n.span.stop.line = row := by
  cases h with
  | mk hstart hstop _ _ _ _ _ => exact ⟨hstart, hstop⟩

end Node.Exact

/-! ## Nodes in place -/

/-- The nodes are exact and lie between two positions of a row, in order and apart. -/
structure Placed (text : List Char) (s : Position) (ns : List Node) (q : Position) : Prop where
  row : q.line = s.line
  le : s ≤ q
  inside : ∀ n ∈ ns, s ≤ n.span.start ∧ n.span.stop ≤ q
  apart : ns.Pairwise fun a b => a.span.stop ≤ b.span.start
  exact : ∀ n ∈ ns, n.Exact text s.line

namespace Placed

variable {text : List Char} {s q q' : Position} {ns ms : List Node} {n m : Node}

theorem nil (s : Position) : Placed text s [] s :=
  ⟨rfl, le_refl s, by simp, .nil, by simp⟩

/-- A later end does no harm. -/
theorem mono (h : Placed text s ns q) (hrow : q'.line = q.line) (hle : q ≤ q') :
    Placed text s ns q' :=
  ⟨hrow.trans h.row, h.le.trans hle, fun n hn => ⟨(h.inside n hn).1, (h.inside n hn).2.trans hle⟩,
    h.apart, h.exact⟩

/-- What stands behind the nodes may be put to them. -/
theorem append (h : Placed text s ns q) (h' : Placed text q ms q') : Placed text s (ns ++ ms) q' := by
  refine ⟨h'.row.trans h.row, h.le.trans h'.le, fun n hn => ?_, ?_, fun n hn => ?_⟩
  · rcases mem_append.1 hn with hn | hn
    · exact ⟨(h.inside n hn).1, (h.inside n hn).2.trans h'.le⟩
    · exact ⟨h.le.trans (h'.inside n hn).1, (h'.inside n hn).2⟩
  · refine pairwise_append.2 ⟨h.apart, h'.apart, fun a ha b hb => ?_⟩
    exact (h.inside a ha).2.trans (h'.inside b hb).1
  · rcases mem_append.1 hn with hn | hn
    · exact h.exact n hn
    · exact h.row ▸ h'.exact n hn

/-- The last nodes may be taken away. -/
theorem of_append (h : Placed text s (ns ++ ms) q) : Placed text s ns q :=
  ⟨h.row, h.le, fun n hn => h.inside n (mem_append_left _ hn), (pairwise_append.1 h.apart).1,
    fun n hn => h.exact n (mem_append_left _ hn)⟩

theorem singleton (hn : n.Exact text s.line) (hrow : q.line = s.line) (hstart : s ≤ n.span.start)
    (hstop : n.span.stop ≤ q) : Placed text s [n] q := by
  refine ⟨hrow, hstart.trans (hn.start_le_stop.trans hstop), ?_, pairwise_singleton _ _, ?_⟩
  · exact fun m hm => mem_singleton.1 hm ▸ ⟨hstart, hstop⟩
  · exact fun m hm => mem_singleton.1 hm ▸ hn

/-- The nodes in place make up the children of an exact node. -/
theorem node {shown : Shown} (h : Placed text s ns q) (hfits : shown.Fits text ⟨s, q⟩) :
    (Node.mk ⟨s, q⟩ shown ns).Exact text s.line :=
  .mk rfl h.row h.le hfits h.inside h.apart h.exact

/-- The last nodes may give way to one that begins and ends where some of them do. -/
theorem replace {a b : Node} (h : Placed text s (ns ++ ms) q) (hn : n.Exact text s.line)
    (ha : a ∈ ms) (hstart : n.span.start = a.span.start) (hb : b ∈ ms)
    (hstop : n.span.stop = b.span.stop) : Placed text s (ns ++ [n]) q := by
  obtain ⟨hns, -, hbetween⟩ := pairwise_append.1 h.apart
  refine ⟨h.row, h.le, fun x hx => ?_, ?_, fun x hx => ?_⟩
  · rcases mem_append.1 hx with hx | hx
    · exact h.inside x (mem_append_left _ hx)
    · rw [mem_singleton.1 hx, hstart, hstop]
      exact ⟨(h.inside a (mem_append_right _ ha)).1,
        (h.inside b (mem_append_right _ hb)).2⟩
  · refine pairwise_append.2 ⟨hns, pairwise_singleton _ _, fun x hx y hy => ?_⟩
    rw [mem_singleton.1 hy, hstart]
    exact hbetween x hx a ha
  · rcases mem_append.1 hx with hx | hx
    · exact h.exact x (mem_append_left _ hx)
    · rwa [mem_singleton.1 hx]

/-- Two operands in place make up a node that reaches from the first to the second. -/
theorem join (h : Placed text s (ns ++ [n, m]) q) :
    Placed text s (ns ++ [.mk ⟨n.span.start, m.span.stop⟩ .any [n, m]]) q := by
  have hn := h.exact n (by simp)
  have hm := h.exact m (by simp)
  have hnm : n.span.stop ≤ m.span.start := by
    have hpair := (pairwise_append.1 h.apart).2.1
    simpa using hpair
  refine h.replace (a := n) (b := m) (.mk hn.rows.1 hm.rows.2 ?_ trivial ?_ ?_ ?_) (by simp) rfl
    (by simp) rfl
  · exact hn.start_le_stop.trans (hnm.trans hm.start_le_stop)
  · simp only [mem_cons, not_mem_nil, or_false, forall_eq_or_imp, forall_eq]
    exact ⟨⟨le_refl _, hnm.trans hm.start_le_stop⟩, hn.start_le_stop.trans hnm, le_refl _⟩
  · simpa using hnm
  · simpa using ⟨hn, hm⟩

/-- The node of a single place, where something begins that is no node of its own. -/
def mark (p : Position) : Node := .mk ⟨p, p⟩ .any []

/-- An operand in place behind a sign makes up a node that begins at the sign. -/
theorem prepend {p : Position} (h : Placed text s (ns ++ [mark p, n]) q) :
    Placed text s (ns ++ [.mk ⟨p, n.span.stop⟩ .any [n]]) q := by
  have hp : (mark p).Exact text s.line := h.exact _ (by simp)
  have hn := h.exact n (by simp)
  have hpn : p ≤ n.span.start := by
    have hpair := (pairwise_append.1 h.apart).2.1
    simpa [mark, Node.span] using hpair
  refine h.replace (a := mark p) (b := n) (.mk hp.rows.1 hn.rows.2 ?_ trivial ?_ ?_ ?_) (by simp)
    rfl (by simp) rfl
  · exact hpn.trans hn.start_le_stop
  · simpa using hpn
  · exact pairwise_singleton _ _
  · simpa using hn

end Placed

/-! ## Parsers that put nodes in place -/

/-- The characters that stay in a row. -/
def InRow (x : Char) : Prop := x ≠ '\n'

instance : DecidablePred InRow := fun x => inferInstanceAs (Decidable (x ≠ '\n'))

instance : Lined InRow where
  of_not_isBreak := by
    rintro x hx rfl
    cases hx

variable {α β : Type} {text : List Char} {b c r : Cursor} {ns ms : List Node} {p q : Parser α}

theorem Over.row (h : Over InRow c r) : r.position.line = c.position.line := by
  obtain ⟨u, hu, hrow⟩ := h
  rw [hu.position, Position.afterAll_of_notMem fun hmem => hrow _ hmem rfl]

theorem inRow_of_done [Reads (Over InRow) p] {a : α} (h : p c = .done a r) : Over InRow c r :=
  Reads.of_done h

/-- The cursor stands behind another one of the text in its row, and the nodes are in place between
the two. -/
structure At (text : List Char) (b : Cursor) (ns : List Node) (c : Cursor) : Prop where
  of : b.Of text
  inRow : Over InRow b c
  placed : Placed text b.position ns c.position

namespace At

theorem refl (h : c.Of text) : At text c [] c := ⟨h, refl_of _ c, .nil _⟩

theorem of_cursor (h : At text b ns c) : c.Of text := h.of.over h.inRow

theorem extend (h : At text b ns c) (h' : Over InRow c r) : At text b ns r :=
  ⟨h.of, h.inRow.trans h', h.placed.mono h'.row h'.le⟩

theorem append (h : At text b ns c) (h' : At text c ms r) : At text b (ns ++ ms) r :=
  ⟨h.of, h.inRow.trans h'.inRow, h.placed.append h'.placed⟩

/-- Other nodes may take the place of those that stand there. -/
theorem imp (h : At text b ns c)
    (hplaced : Placed text b.position ns c.position → Placed text b.position ms c.position) :
    At text b ms c :=
  ⟨h.of, h.inRow, hplaced h.placed⟩

end At

/-- Plain text of the row leaves the nodes in place. -/
theorem Reads.keepsAt [h : Reads (Over InRow) p] : Yields (At text b ns) p fun _ => At text b ns :=
  fun _ _ _ hc hdone => hc.extend (h.of_done hdone)

/-- The parser leaves what has been gathered as it is. What is gathered, nodes for the most part, and
what it means for it to be in place is left open. -/
def Leaves {ι τ : Type} (S : ι → List τ → Cursor → Prop) (p : Parser α) : Prop :=
  ∀ i ns, Yields (S i ns) p fun _ => S i ns

theorem Leaves.many {ι τ : Type} {S : ι → List τ → Cursor → Prop} (h : Leaves S p) :
    Leaves S (Parser.many p) :=
  fun i ns => Yields.many (fun _ => h i ns) []

theorem Leaves.maybe {ι τ : Type} {S : ι → List τ → Cursor → Prop} (h : Leaves S p) :
    Leaves S (Parser.maybe p) :=
  fun i ns => (h i ns).maybe fun _ hc => hc

/-- The parser leaves what has been gathered as it is and adds what is to be gathered of what it
reads. -/
def Gathers {ι τ : Type} (S : ι → List τ → Cursor → Prop) (p : Parser α) (nodes : α → List τ) : Prop :=
  ∀ i ns, Yields (S i ns) p fun a => S i (ns ++ nodes a)

namespace Gathers

variable {ι τ : Type} {S : ι → List τ → Cursor → Prop} {ν : α → List τ} {μ : β → List τ}

/-- The parser has nothing to add. -/
theorem of_leaves (h : Leaves S p) (hν : ∀ a, ν a = []) : Gathers S p ν :=
  fun i ns => (h i ns).imp (fun _ hc => hc) fun a _ hr => by rwa [hν, append_nil]

theorem pure {a : α} (h : ν a = []) : Gathers S (pure a : Parser α) ν :=
  fun _ _ => .pure fun _ hc => by simpa [h] using hc

theorem map {f : α → β} (h : Gathers S p fun a => μ (f a)) : Gathers S (f <$> p) μ :=
  fun i ns => .map (h i ns)

theorem orElse (h : Gathers S p ν) (h' : Gathers S q ν) : Gathers S (p <|> q) ν :=
  fun i ns => (h i ns).orElse (h' i ns)

theorem seqRight {p : Parser β} (h : Leaves S p) (h' : Gathers S q ν) : Gathers S (p *> q) ν :=
  fun i ns => (h i ns).seqRight (h' i ns)

theorem maybe (h : Gathers S p ν) : Gathers S (Parser.maybe p) fun o => o.elim [] ν :=
  fun i ns => (h i ns).maybe fun c hc => by simpa using hc

theorem attempt (h : Gathers S p ν) : Gathers S (Parser.attempt p) fun o => o.elim [] ν :=
  fun i ns => (h i ns).attempt fun c hc => by simpa using hc

theorem many (h : Gathers S p ν) : Gathers S (Parser.many p) fun as => as.flatMap ν := by
  intro i ns
  have hmany := Yields.many (I := fun as => S i (ns ++ as.flatMap ν)) (p := p) (fun as => ?_) []
  · simpa using hmany
  · simpa using h i (ns ++ as.flatMap ν)

theorem many1 (h : Gathers S p ν) : Gathers S (Parser.many1 p) fun as => as.flatMap ν := by
  intro i ns
  refine (h i ns).bind fun a => (h.many i _).bind fun as => .pure fun c hc => ?_
  simpa using hc

theorem sepBy {t : Parser β} (ht : Leaves S t) (h : Gathers S p ν) :
    Gathers S (Parser.sepBy t p) fun as => as.flatMap ν := by
  intro i ns
  have hsep := Yields.sepBy (I := fun as => S i (ns ++ as.flatMap ν)) (p := p)
    (fun as => ht i _) (fun as => ?_) fun c hc => hc
  · simpa using hsep
  · simpa using h i (ns ++ as.flatMap ν)

theorem sepBy1 {t : Parser β} (ht : Leaves S t) (h : Gathers S p ν) :
    Gathers S (Parser.sepBy1 t p) fun as => as.flatMap ν := by
  intro i ns
  have hsep := Yields.sepBy1 (A := S i ns) (I := fun as => S i (ns ++ as.flatMap ν)) (p := p)
    (fun as => ht i _) (fun as => ?_) fun c hc => by simpa using hc
  · simpa using hsep
  · simpa using h i (ns ++ as.flatMap ν)

/-- A rule adds its share if its body does whenever the inner references do. -/
theorem nested {rule : Parser α → Parser α} (h : ∀ p, Gathers S p ν → Gathers S (rule p) ν) :
    Gathers S (Parser.nested rule) ν := by
  intro i ns
  refine Yields.nested (A := fun j : ι × List τ => S j.1 j.2)
    (B := fun j a => S j.1 (j.2 ++ ν a)) (fun p hp j => ?_) (i, ns)
  exact h p (fun i ns => hp (i, ns)) j.1 j.2

end Gathers

theorem Reads.leaves [Reads (Over InRow) p] : Leaves (At text) p := fun _ _ => Reads.keepsAt

/-- Whatever the parser reads keeps to the row, and the nodes of what it reads stand in place behind
those that stood there before. -/
abbrev Adds (text : List Char) (p : Parser α) (nodes : α → List Node) : Prop :=
  Gathers (At text) p nodes

namespace Adds

variable {ν : α → List Node} {μ : β → List Node}

/-- It is enough to look at a cursor with nothing in front of it. -/
theorem of_alone (h : ∀ c a r, c.Of text → p c = .done a r → At text c (ν a) r) : Adds text p ν :=
  fun _ _ c a r hc hdone => hc.append (h c a r hc.of_cursor hdone)

theorem alone {a : α} (h : Adds text p ν) (hc : c.Of text) (hdone : p c = .done a r) :
    At text c (ν a) r :=
  h c [] c a r (.refl hc) hdone

theorem of_reads [Reads (Over InRow) p] (hν : ∀ a, ν a = []) : Adds text p ν :=
  .of_leaves Reads.leaves hν

/-- Nodes that nothing is made of may be forgotten. -/
theorem forget (h : Adds text p ν) : Yields (At text b ns) p fun _ => At text b ns :=
  (h b ns).imp (fun _ hc => hc) fun _ _ hr => hr.imp fun hplaced => hplaced.of_append

/-- What is read with its span becomes a node around its own nodes. -/
theorem spanned (h : Adds text p ν) :
    Adds text (Parser.spanned p) fun x => [.mk x.2 .any (ν x.1)] := by
  refine of_alone fun c x r hc hdone => ?_
  obtain ⟨a, hp, rfl⟩ := Parser.spanned_eq_done.1 hdone
  have hinner := h.alone hc hp
  have hnode := hinner.placed.node Shown.fits_any
  exact ⟨hc, hinner.inRow, .singleton hnode hinner.placed.row (le_refl _) (le_refl _)⟩

end Adds

/-! ## Parsers that yield the text they read -/

/-- The parser yields the very text that it reads, all in one row. -/
class Verbatim (p : Parser String) : Prop where
  of_done {c r : Cursor} {s : String} :
    p c = .done s r → Passes s.toList c r ∧ ∀ x ∈ s.toList, InRow x

namespace Verbatim

variable {p : Parser String} {s : String}

instance {p : Parser α} [h : Reads (Over InRow) p] : Verbatim (Parser.recognized p) where
  of_done hdone := by
    obtain ⟨a, hp, rfl⟩ := Parser.recognized_eq_done.1 hdone
    obtain ⟨u, hu, hrow⟩ := h.of_done hp
    rw [String.toList_ofList, hu.upTo_eq]
    exact ⟨hu, hrow⟩

instance : Verbatim identifier where
  of_done hdone := by
    obtain ⟨-, rfl, rfl⟩ := identifier_eq_done.1 hdone
    rw [String.toList_ofList]
    refine ⟨.takeWhile isNameChar, ?_⟩
    rintro x hx rfl
    exact absurd (all_eq_true.1 all_takeWhile _ hx) (by decide)

instance [h : Verbatim p] : Reads (Over InRow) p := ⟨fun hdone => ⟨_, h.of_done hdone⟩⟩

/-- The row shows the text between the ends of what was read. -/
theorem fits [h : Verbatim p] (hc : c.Of text) (hdone : p c = .done s r) :
    (Shown.exactly s).Fits text ⟨c.position, r.position⟩ := by
  obtain ⟨hpasses, hrow⟩ := h.of_done hdone
  exact rowSlice?_of hc hpasses fun hmem => hrow _ hmem rfl

end Verbatim

end RobotSource.Parsing
