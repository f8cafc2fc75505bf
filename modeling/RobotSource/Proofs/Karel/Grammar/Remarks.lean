import RobotSource.Proofs.Karel.Directives
import RobotSource.Proofs.Karel.Grammar.Declaration
import RobotSource.Proofs.Karel.Grammar.Locality
/-!
# Karel programs with a remark

A text and the same text with a remark at the end of one of its lines are read side by side. Up to
the remark they are the same (`Ahead`), and behind the line break they are the same again (`Below`).
Between the two lies white space, of which a token may have taken the space before the dashes
(`Parted`).

Wherever a token may begin, the scan for the end of the code is outside of strings at the end of the
line, and stays so over tokens (`Balanced`). It is why neither a quote in the remark can close a
string nor the remark be taken for code.
-/

namespace RobotSource.Karel.Grammar

open Parsing Parsing.Parser Text
open List hiding takeWhile

variable {α : Type} {s note u w : List Char} {line k : Nat} {c d c' d' r : Cursor}
variable {p : Parser α} {x : Char} {word : List Char}

/-! ## Places -/

/-- A line ends before `s`, and the note is one that fits into a line. -/
structure LineEnd (s note : List Char) : Prop where
  ends : LineOver s
  note : ∀ y ∈ note, isBreak y = false

/-- Both cursors stand before the remark, with `u` up to it; the line of the remark is `line`. -/
structure Ahead (s note : List Char) (line : Nat) (u : List Char) (c d : Cursor) : Prop where
  left : c.rest = u ++ s
  right : d.rest = u ++ (remark note ++ s)
  position : c.position = d.position
  line : (c.position.afterAll u).line = line
  paired : returnsPaired u = true
  unquoted : quotedAfter false false u = false

/-- Both cursors stand behind the line break that follows the remark, or both texts are over, one of
them behind a remark on the last line. -/
structure Below (s : List Char) (c d : Cursor) : Prop where
  split : ∃ b, s = b ++ c.rest ∧ (s = [] ∨ Breaks b)
  rest : c.rest = d.rest
  position : c.rest ≠ [] → c.position = d.position

/-- One cursor stands at the end of the line, the other behind the space before the dashes. -/
structure Parted (s note : List Char) (c d : Cursor) : Prop where
  left : c.rest = s
  right : d.rest = '-' :: '-' :: note ++ s
  line : c.position.line = d.position.line

/-- Both cursors stand before the remark or behind its line. -/
def Even (s note : List Char) (line : Nat) (c d : Cursor) : Prop :=
  (∃ u, Ahead s note line u c d) ∨ Below s c d

/-- Both cursors stand at the same place. -/
structure InStep (s note : List Char) (line : Nat) (c d : Cursor) : Prop where
  even : Even s note line c d
  position : c.position = d.position

/-- Behind a token, where some white space may have been taken. -/
def Loose (s note : List Char) (line : Nat) (c d : Cursor) : Prop :=
  Even s note line c d ∨ Parted s note c d

/-- Where a token may begin. -/
structure Tight (s note : List Char) (line : Nat) (c d : Cursor) : Prop where
  settled : Settled c
  place : (∃ u, u ≠ [] ∧ Ahead s note line u c d) ∨ Below s c d

theorem Tight.even (h : Tight s note line c d) : Even s note line c d :=
  h.place.imp_left fun hahead => hahead.imp fun _ h => h.2

theorem Ahead.inStep (h : Ahead s note line u c d) : InStep s note line c d := ⟨.inl ⟨u, h⟩, h.position⟩

theorem Ahead.drop (h : Ahead s note line u c d) (hk : k ≤ u.length)
    (hunquoted : quotedAfter false false (u.drop k) = false) :
    Ahead s note line (u.drop k) (c.drop k) (d.drop k) where
  left := by rw [Cursor.rest_drop, h.left, drop_append_of_le_length hk]
  right := by rw [Cursor.rest_drop, h.right, drop_append_of_le_length hk]
  position := by
    simp only [Cursor.drop, h.left, h.right, take_append_of_le_length hk, h.position]
  line := by
    simp only [Cursor.drop, h.left, take_append_of_le_length hk]
    rw [← Position.afterAll_append, take_append_drop, h.line]
  paired := by
    have hpaired := h.paired
    rw [← take_append_drop k u] at hpaired
    exact returnsPaired_of_append hpaired
  unquoted := hunquoted

theorem Below.position_drop (h : Below s c d) (hne : c.rest ≠ []) (k : Nat) :
    (c.drop k).position = (d.drop k).position := by
  simp only [Cursor.drop, h.rest, h.position hne]

theorem Below.drop (h : Below s c d) (k : Nat) : Below s (c.drop k) (d.drop k) where
  split := by
    obtain ⟨b, hs, hb⟩ := h.split
    refine ⟨b ++ c.rest.take k, ?_, hb.imp_right ?_⟩
    · rw [append_assoc, Cursor.rest_drop, take_append_drop, hs]
    · rintro ⟨b, t, hbreak, rfl⟩
      exact ⟨b, _, hbreak, append_assoc ..⟩
  rest := by rw [Cursor.rest_drop, Cursor.rest_drop, h.rest]
  position hne := h.position_drop (fun hnil => hne (by simp [hnil])) k

theorem Below.inStep (h : Below s c d) (hne : c.rest ≠ []) (k : Nat) :
    InStep s note line (c.drop k) (d.drop k) := ⟨.inr (h.drop k), h.position_drop hne k⟩

/-! ## Tokens that leave no string open -/

/-- Whatever follows, the scan is inside a string behind what lies between the cursors just if it is
so without it. -/
def Balanced (c r : Cursor) : Prop :=
  ∃ v, Passes v c r ∧ ∀ w t, r.rest = w ++ t →
    quotedAfter false false (v ++ w) = quotedAfter false false w

instance : IsPreorder Cursor Balanced where
  refl c := ⟨[], .refl c, fun _ _ _ => rfl⟩
  trans _ _ _ := by
    rintro ⟨v, hv, hbalanced⟩ ⟨v', hv', hbalanced'⟩
    refine ⟨v ++ v', hv.trans hv', fun w t hr => ?_⟩
    rw [append_assoc, hbalanced (v' ++ w) t (by rw [hv'.rest, hr, append_assoc]),
      hbalanced' w t hr]

theorem LexesOne.balanced (h : LexesOne p) : Reads Balanced p where
  of_done {c r a} hdone := by
    obtain ⟨hc, n, hn, rfl⟩ := h c a r hdone
    refine ⟨_, .drop n, fun w t hr => ?_⟩
    exact quotedAfter_spelled (spelled_of_tokenLength? hn) (head?_ne_dash_of_token hc hr)

instance : Reads Balanced identifier := lexesOne_identifier.balanced
instance : Reads Balanced name := lexesOne_name.balanced
instance : Reads Balanced number := lexesOne_number.balanced
instance : Reads Balanced systemName := lexesOne_systemName.balanced
instance : Reads Balanced stringLiteral := lexesOne_stringLiteral.balanced

theorem Ahead.drop_of_balanced (h : Ahead s note line u c d) (hk : k ≤ u.length)
    (hbalanced : Balanced c (c.drop k)) : Ahead s note line (u.drop k) (c.drop k) (d.drop k) := by
  obtain ⟨v, hv, hbalanced⟩ := hbalanced
  have hrest : (c.drop k).rest = u.drop k ++ s := by
    rw [Cursor.rest_drop, h.left, drop_append_of_le_length hk]
  have hsplit : v ++ u.drop k = u := by
    have heq := hv.rest
    rw [hrest, h.left, ← append_assoc] at heq
    exact (append_cancel_right heq).symm
  refine h.drop hk ?_
  rw [← hbalanced _ _ hrest, hsplit, h.unquoted]

theorem balanced_of_quiet (h : ∀ x ∈ c.rest.take k, isPlain x ∧ x ≠ '-') :
    Balanced c (c.drop k) :=
  ⟨_, .drop k, fun _ _ _ => quotedAfter_quiet (quiet_of_forall h)⟩

theorem balanced_char (hx : isPlain x ∧ x ≠ '-') : Reads Balanced (char x) where
  of_done hdone := by
    obtain ⟨-, rfl, t, hc⟩ := char_eq_done.1 hdone
    refine balanced_of_quiet ?_
    simpa [hc] using hx

instance : Reads Balanced (char '.') := balanced_char (by decide)
instance : Reads Balanced (char '[') := balanced_char (by decide)
instance : Reads Balanced (char ']') := balanced_char (by decide)

/-- The parts of a field's name and of a variable's full name are tokens. -/
instance : Reads Balanced fieldName := by unfold fieldName; infer_instance
instance : Reads Balanced programVariable := by unfold programVariable; infer_instance

theorem balanced_letters (hword : isPlainWord word)
    (hk : matchLength? word c.rest = some k) : Balanced c (c.drop k) := by
  obtain ⟨-, -, -, hletters⟩ := matchLength?_letters hword hk
  refine balanced_of_quiet fun x hx => isPlain_of_isNameChar ?_
  simp [isNameChar, Char.isAlphanum, hletters x hx]

theorem take_eq_of_marks (hword : ∀ x ∈ word, isMark x)
    (hk : matchLength? word c.rest = some k) :
    c.rest.take k = word ∧ word.length ≤ c.rest.length := by
  rw [matchLength?_marks hword] at hk
  split at hk
  · rename_i hpre
    cases hk
    exact ⟨(prefix_iff_eq_take.1 hpre).symm, hpre.length_le⟩
  · cases hk

/-! ## Reading on both sides -/

/-- What ends a stretch of tokens here: a line break, or the space before the remark. -/
def isEdge (x : Char) : Bool := isBreak x || x == ' '

/-- The text goes on with such a character, if at all. -/
def Edge (t : List Char) : Prop := t.head?.all isEdge = true

theorem of_isEdge {p : Char → Prop} (hbreak : ∀ x, isBreak x → p x) (hspace : p ' ')
    (x : Char) (hx : isEdge x) : p x := by
  simp only [isEdge, Bool.or_eq_true, beq_iff_eq] at hx
  rcases hx with hx | rfl
  · exact hbreak x hx
  · exact hspace

theorem margin_edge : Margin isEdge Edge where
  lower := of_isEdge delimiter_isBreak.lower (by decide)
  word := of_isEdge delimiter_isBreak.word (by decide)
  name := of_isEdge delimiter_isBreak.name (by decide)
  begins x t h := by simpa [Edge] using h
  marks := by decide

theorem edge_of_lineOver (t : List Char) (h : LineOver t) : Edge t := by
  rcases h with rfl | ⟨b, t, rfl | rfl, rfl⟩ <;> rfl

theorem Ahead.common (h : Ahead s note line u c d) (hs : LineEnd s note) : Common Edge u c d :=
  ⟨⟨s, h.left, edge_of_lineOver s hs.ends⟩, ⟨_, h.right, rfl⟩⟩

theorem Below.common (h : Below s c d) : Common LineOver c.rest c d :=
  ⟨⟨[], by rw [append_nil], .inl rfl⟩, ⟨[], by rw [append_nil, h.rest], .inl rfl⟩⟩

/-- What is read alike within a stretch leads from one place to the same place on both sides. -/
theorem rel_of_within {T : Cursor → Cursor → Prop} (hp : (p c).Rel (Within u c d) (· = ·) (p d))
    (hT : ∀ a k, k ≤ u.length → p c = .done a (c.drop k) → T (c.drop k) (d.drop k)) :
    (p c).Rel T (· = ·) (p d) := by
  refine hp.imp_done ?_
  rintro a b _ _ hdone - hab ⟨k, hk, rfl, rfl⟩
  exact ⟨hab, hT a k hk hdone⟩

/-- A token that is read alike before the remark, and on the same text, and that leaves no string
open. -/
theorem keeps_of_ahead [Consumes p]
    (hahead : ∀ u c d, Ahead s note line u c d → (p c).Rel (Within u c d) (· = ·) (p d))
    (hsame : Local LineOver p) [hbalanced : Reads Balanced p] :
    Agrees (Even s note line) (InStep s note line) p (· = ·) := by
  intro c d hcd
  rcases hcd with ⟨u, h⟩ | h
  · refine rel_of_within (hahead u c d h) fun a k hk hdone => ?_
    exact (h.drop_of_balanced hk (hbalanced.of_done hdone)).inStep
  · exact rel_of_within (hsame _ c d h.common) fun _ k _ hdone => h.inStep (ne_nil_of_done hdone) k

/-- A token that stays within any stretch before a line break or a space. -/
theorem keeps_token [Consumes p] (hs : LineEnd s note) (hp : Local Edge p)
    [Reads Balanced p] : Agrees (Even s note line) (InStep s note line) p (· = ·) :=
  keeps_of_ahead (fun u c d h => hp u c d (h.common hs)) (hp.of_imp edge_of_lineOver)

/-! ## Words -/

/-- A word of the grammar: it keeps to a stretch, takes as many characters as it has, and leaves no
string open. -/
structure Solid (word : List Char) (c : Cursor) : Prop where
  apart : isApart isEdge word = true
  long : ∀ t k, matchLength? word t = some k → word.length ≤ t.length
  balanced : ∀ k, matchLength? word c.rest = some k → Balanced c (c.drop k)

theorem solid_letters (hapart : isApart isEdge word)
    (hword : isPlainWord word) : Solid word c :=
  ⟨hapart, fun _ _ hk => (matchLength?_letters hword hk).2.1, fun _ => balanced_letters hword⟩

theorem solid_marks (hapart : isApart isEdge word)
    (hword : (word.all fun x => isMark x && isPlain x && x != '-') = true) : Solid word c := by
  simp only [all_eq_true, Bool.and_eq_true, bne_iff_ne] at hword
  refine ⟨hapart, fun t k hk => ?_, fun k hk => balanced_of_quiet fun x hx => ?_⟩
  · exact (take_eq_of_marks (c := ⟨t, .first⟩) (fun x hx => (hword x hx).1.1) hk).2
  · rw [(take_eq_of_marks (fun x hx => (hword x hx).1.1) hk).1] at hx
    exact ⟨(hword x hx).1.2, (hword x hx).2⟩

/-- A dash is one where it does not open a comment. -/
theorem solid_dash (hc : Settled c) : Solid ['-'] c := by
  have hmark : ∀ x ∈ ['-'], isMark x := by decide
  refine ⟨by decide, fun t k hk => ?_, fun k hk => ⟨_, .drop k, fun w t hr => ?_⟩⟩
  · exact (take_eq_of_marks (c := ⟨t, .first⟩) hmark hk).2
  · obtain ⟨htake, -⟩ := take_eq_of_marks hmark hk
    rw [htake]
    exact quotedAfter_spelled (.single (by decide)) fun _ => head?_ne_dash_of_token hc hr htake

theorem Even.matches (h : Even s note line c d) (hs : LineEnd s note)
    (hword : Solid word c) : Matches (Even s note line) word c d := by
  have hdelimits : Delimits isEdge Edge := margin_edge.toDelimits
  rcases h with ⟨u, h⟩ | h
  · refine (h.common hs).matches hdelimits (fun _ => hword.long u) hword.apart fun k hk hle => ?_
    exact .inl ⟨_, h.drop_of_balanced hle (hword.balanced k hk)⟩
  · exact matches_of_rest_eq h.rest fun k => .inr (h.drop k)

/-! ## White space -/

/-- Spaces and tabs may take the space before the remark. -/
theorem keeps_spaces_remark (hs : LineEnd s note) :
    Keeps (Even s note line) (Loose s note line) (fun _ _ => True) spaces spaces := by
  intro c d hcd
  have hspaces (c : Cursor) :
      spaces c = .done () (c.drop (c.rest.takeWhile isSpaceOrTab).length) := rfl
  rw [hspaces, hspaces]
  refine .done trivial ?_
  rcases hcd with ⟨u, h⟩ | h
  · rcases exists_split_or_all isSpaceOrTab u with ⟨a, x, b, rfl, ha, hx⟩ | hall
    · have htaken (t : List Char) : ((a ++ x :: b) ++ t).takeWhile isSpaceOrTab = a := by
        rw [append_assoc, takeWhile_append_of_pos ha, cons_append,
          takeWhile_cons_of_neg (by simp [hx]), append_nil]
      -- the spaces end before the remark
      rw [h.left, h.right, htaken, htaken]
      refine .inl (.inl ⟨_, h.drop (by simp) ?_⟩)
      rw [drop_left, ← quotedAfter_spaces ha, h.unquoted]
    · have hleft : c.rest.takeWhile isSpaceOrTab = u := by
        rw [h.left, takeWhile_append_of_pos hall]
        rcases hs.ends with rfl | ⟨b, t, rfl | rfl, rfl⟩
        · simp
        · simp [isSpaceOrTab]
        · simp [isSpaceOrTab]
      have hright : d.rest.takeWhile isSpaceOrTab = u ++ [' '] := by
        rw [h.right, takeWhile_append_of_pos hall]
        rfl
      refine .inr ⟨?_, ?_, ?_⟩
      · rw [hleft, Cursor.rest_drop, h.left, drop_left]
      · rw [hright, Cursor.rest_drop, h.right, length_append, drop_length_add_append]
        rfl
      · have hposition := congrArg Position.line (Passes.takeWhile (c := c) isSpaceOrTab).position
        have hposition' := congrArg Position.line (Passes.takeWhile (c := d) isSpaceOrTab).position
        rw [hleft] at hposition
        rw [hright, Position.afterAll_append, ← h.position] at hposition'
        rw [hleft, hright, hposition, hposition']
        rfl
  · rw [← h.rest]
    exact .inl (.inr (h.drop _))

theorem afterAll_lineBreak {b : List Char} (hb : IsLineBreak b) (p : Position) :
    p.afterAll b = ⟨p.line + 1, 1⟩ := by
  rcases hb with rfl | rfl <;> rfl

/-- White space leads from the end of the line to the same place behind it. -/
theorem below_of_blanks (skipping skipping' : Bool) {v : List Char} (hs : LineEnd s note)
    (hc : c.rest = u ++ s) (hd : d.rest = v ++ s)
    (hline : (c.position.afterAll u).line = (d.position.afterAll v).line) :
    Below s (c.drop (u.length + blankLength skipping s))
      (d.drop (v.length + blankLength skipping' s)) := by
  rcases hs.ends with rfl | ⟨b, t, hb, rfl⟩
  · have hleft : (c.drop (u.length + blankLength skipping [])).rest = [] := by simp [hc]
    have hright : (d.drop (v.length + blankLength skipping' [])).rest = [] := by simp [hd]
    exact ⟨⟨[], hleft.symm, .inl rfl⟩, hleft.trans hright.symm, fun hne => absurd hleft hne⟩
  · have hstep {c : Cursor} {w : List Char} (skipping : Bool) (hc : c.rest = w ++ (b ++ t)) :
        (c.drop (w.length + blankLength skipping (b ++ t))).rest = t.drop (blankLength false t) ∧
        (c.drop (w.length + blankLength skipping (b ++ t))).position =
          Position.afterAll ⟨(c.position.afterAll w).line + 1, 1⟩
            (t.take (blankLength false t)) := by
      rw [blankLength_lineBreak hb]
      constructor
      · rw [Cursor.rest_drop, hc, drop_length_add_append, drop_length_add_append]
      · simp only [Cursor.drop, hc, take_length_add_append, Position.afterAll_append,
          afterAll_lineBreak hb]
    obtain ⟨hrest, hposition⟩ := hstep skipping hc
    obtain ⟨hrest', hposition'⟩ := hstep skipping' hd
    refine ⟨⟨b ++ t.take (blankLength false t), ?_, .inr ⟨b, _, hb, rfl⟩⟩, ?_, fun _ => ?_⟩
    · rw [hrest, append_assoc, take_append_drop]
    · rw [hrest, hrest']
    · rw [hposition, hposition', hline]

theorem settled_blanks (c : Cursor) : Settled (c.drop (blankLength false c.rest)) := by
  obtain ⟨-, -, -, hsettled⟩ := walk_blanks c
  exact hsettled

theorem keeps_blanks_remark (hs : LineEnd s note) :
    Keeps (Loose s note line) (Tight s note line) (fun _ _ => True) blanks blanks := by
  intro c d hcd
  rw [blanks, blanks]
  refine .done trivial ⟨settled_blanks c, ?_⟩
  have hnoFeed : '\n' ∉ note := fun hmem => absurd (hs.note _ hmem) (by decide)
  rcases hcd with (⟨u, h⟩ | h) | h
  · have hdash : s.head? ≠ some '-' := head?_ne_dash_of_lineOver hs.ends
    have hspace : (remark note ++ s).head? ≠ some '-' := by simp [remark]
    have hend : BlankEnd false false u := blankEnd h.paired (by simp) (by simp)
    cases hend with
    | within v w split ne_nil scan length =>
      -- white space ends before the remark, where no string is open
      rw [h.left, h.right, length s hdash, length _ hspace]
      subst split
      have hahead := h.drop (k := v.length) (by simp) (by rw [drop_left, ← scan, h.unquoted])
      rw [drop_left] at hahead
      exact .inl ⟨w, ne_nil, hahead⟩
    | through skipping length =>
      -- white space goes on through the remark and the break behind it
      have hright : d.rest = (u ++ remark note) ++ s := by rw [h.right, append_assoc]
      have hlength : blankLength false d.rest =
          (u ++ remark note).length + blankLength true s := by
        rw [h.right, length _ hspace, blankLength_remark hs.note, length_append, Nat.add_assoc]
      rw [hlength, h.left, length s hdash]
      refine .inr (below_of_blanks _ _ hs h.left hright ?_)
      rw [Position.afterAll_append, line_afterAll_remark hnoFeed, h.position]
  · rw [← h.rest]
    exact .inr (h.drop _)
  · have hleft : c.rest = [] ++ s := h.left
    have hlength : blankLength false c.rest = ([] : List Char).length + blankLength false s := by
      rw [h.left, length_nil, Nat.zero_add]
    rw [hlength, h.right, blankLength_dashes hs.note]
    refine .inr (below_of_blanks _ _ hs hleft h.right ?_)
    have hdashes : '\n' ∉ '-' :: '-' :: note := by simpa using hnoFeed
    rw [Position.afterAll_nil, Position.afterAll_of_notMem hdashes]
    exact h.line

/-! ## Tokens -/

theorem Parted.rel_of_failsAt {β : Type} {T : Cursor → Cursor → Prop} {V : α → β → Prop}
    {q : Parser β} (h : Parted s note c d) (hs : LineEnd s note)
    (hp : ∀ x : Option Char, x.all isEdge → FailsAt x p) (hq : FailsAt (some '-') q) :
    (p c).Rel T V (q d) := by
  obtain ⟨e, he⟩ := hp s.head? (edge_of_lineOver s hs.ends) c (by rw [h.left])
  obtain ⟨e', he'⟩ := hq d (by rw [h.right]; rfl)
  rw [he, he']
  exact .failed

/-- A mark that is taken even where spaces have been. -/
theorem keeps_char_loose (hs : LineEnd s note) (hedge : isEdge x = false)
    (hx : isPlain x ∧ x ≠ '-') :
    Agrees (Loose s note line) (Loose s note line) (char x) fun _ _ => True := by
  intro c d hcd
  rcases hcd with h | h
  · have hlocal : Local Edge (char x) := .char margin_edge.toDelimits hedge
    have := balanced_char hx
    exact (keeps_token hs hlocal c d h).mono (fun _ _ h => .inl h.even) fun _ _ _ => trivial
  · refine h.rel_of_failsAt hs (fun y hy => .char ?_) (.char ?_)
    · rintro rfl
      rw [Option.all_some, hedge] at hy
      cases hy
    · simpa using Ne.symm hx.2

theorem keeps_keyword_remark (hs : LineEnd s note) {V : String → String → Prop} {w : String}
    (hword : isApart isEdge w.toList ∧ isPlainWord w.toList) (hV : ∀ a, V a a) :
    Agrees (Even s note line) (Loose s note line) (keyword w) V :=
  .keyword (fun _ _ h => h.matches hs (solid_letters hword.1 hword.2)) (keeps_spaces_remark hs) hV

theorem solid_of_mem_symbols {sym : String} (hsym : sym ∈ symbols) (hc : Settled c) :
    Solid sym.toList c := by
  have hall : (symbols.all fun sym => sym == "-" || isApart isEdge sym.toList &&
      sym.toList.all fun x => isMark x && isPlain x && x != '-') = true := by decide
  have hmarks := all_eq_true.1 hall sym hsym
  simp only [Bool.or_eq_true, beq_iff_eq, Bool.and_eq_true] at hmarks
  rcases hmarks with rfl | ⟨hapart, hmarks⟩
  · exact solid_dash hc
  · exact solid_marks hapart (by simpa using hmarks)

theorem keeps_symbol_remark (hs : LineEnd s note) {sym : String} (hsym : sym ∈ symbols) :
    Agrees (Tight s note line) (Loose s note line) (symbol sym) fun _ _ => True :=
  .symbol (fun _ _ h => h.even.matches hs (solid_of_mem_symbols hsym h.settled))
    (keeps_spaces_remark hs)

/-- The two colons behind a label are taken even where spaces have been. -/
theorem keeps_doubleColon_loose (hs : LineEnd s note) :
    Agrees (Loose s note line) (Loose s note line) (symbol "::") fun _ _ => True := by
  intro c d hcd
  rcases hcd with h | h
  · have hsymbol : Agrees (Even s note line) (Loose s note line) (symbol "::")
        fun _ _ => True :=
      .symbol (fun _ _ h => h.matches hs (solid_marks (by decide) (by decide)))
        (keeps_spaces_remark hs)
    exact hsymbol c d h
  · refine h.rel_of_failsAt hs (fun x hx => .symbol rfl fun heq => ?_) (.symbol rfl (by decide))
    cases x with
    | none => cases heq
    | some x =>
      rw [Option.all_some] at hx
      rw [Option.map_some, Option.some_inj, margin_edge.lower x hx] at heq
      rw [singleton_inj.1 (heq : [x] = [':'])] at hx
      cases hx

theorem stringLiteral_apply {a t : List Char} (hc : c.rest = '\'' :: (a ++ x :: t))
    (ha : ∀ y ∈ a, (!(y == '\'' || y == '\n')) = true) (hx : (!(x == '\'' || x == '\n')) = false) :
    stringLiteral c = if x = '\'' then .done (String.ofList a) (c.drop (a.length + 2))
      else .failed (.expecting (c.drop (1 + a.length)) (quoteChar '\'')) := by
  have hrest : (c.drop 1).rest = a ++ x :: t := by rw [Cursor.rest_drop, hc]; rfl
  have htaken : (c.drop 1).rest.takeWhile (fun y => !(y == '\'' || y == '\n')) = a := by
    rw [hrest, takeWhile_append_of_pos ha, takeWhile_cons_of_neg (by simp [hx]),
      append_nil]
  have hhead : ((c.drop 1).drop a.length).rest.head? = some x := by
    rw [Cursor.rest_drop, hrest, drop_left, head?_cons]
  rw [stringLiteral, bind_apply, char, hc, head?_cons, if_pos rfl]
  simp only [bind_apply, takeWhile, htaken, char, hhead, Option.some_inj]
  by_cases hquote : x = '\''
  · have hlength : 1 + a.length + 1 = a.length + 2 := by omega
    simp only [if_pos hquote, pure_apply, Cursor.drop_drop, hlength]
  · simp only [if_neg hquote, Cursor.drop_drop]

/-- A string ends within its line or not at all: what follows the line cannot close it. -/
theorem Ahead.rel_stringLiteral (h : Ahead s note line u c d) (hs : LineEnd s note) :
    (stringLiteral c).Rel (Within u c d) (· = ·) (stringLiteral d) := by
  by_cases hquote : u.head? = some '\''
  swap
  · have hcommon := h.common hs
    have hleft := mt (hcommon.left.head? margin_edge.toDelimits (by decide)).1 hquote
    have hright := mt (hcommon.right.head? margin_edge.toDelimits (by decide)).1 hquote
    obtain ⟨e, he⟩ := failsAt_stringLiteral hleft c rfl
    obtain ⟨e', he'⟩ := failsAt_stringLiteral hright d rfl
    rw [he, he']
    exact .failed
  obtain ⟨v, rfl⟩ := head?_eq_some_iff.1 hquote
  rcases exists_split_or_all (fun y => !(y == '\'' || y == '\n')) v with
    ⟨a, x, b, rfl, ha, hx⟩ | hall
  · have hread {c : Cursor} {t : List Char} (hc : c.rest = '\'' :: (a ++ x :: b) ++ t) :=
      stringLiteral_apply (t := b ++ t) (by simpa using hc) ha hx
    rw [hread h.left, hread h.right]
    split
    · exact .done rfl ⟨a.length + 2, by simp, rfl, rfl⟩
    · exact .failed
  · -- a string that is open at the end of the line
    have hopen : quotedAfter true false v :=
      quotedAfter_open fun y hy => by simpa using hall y hy
    have hunquoted := h.unquoted
    rw [quotedAfter] at hunquoted
    exact absurd (hopen.symm.trans hunquoted) (by decide)

theorem keeps_stringLiteral_remark (hs : LineEnd s note) :
    Agrees (Even s note line) (InStep s note line) stringLiteral (· = ·) :=
  keeps_of_ahead (fun _ _ _ h => h.rel_stringLiteral hs)
    (local_stringLiteral encloses_lineOver (by decide))

/-! ## Directives -/

/-- The text goes on with a character of a line break, if at all. -/
def Broken (t : List Char) : Prop := t.head?.all isBreak = true

theorem delimits_broken : Delimits isBreak Broken where
  toDelimiter := delimiter_isBreak
  begins x t h := by simpa [Broken] using h

/-- Within a line above that of the remark every place will do. -/
theorem Ahead.moves (h : Ahead s note line u c d) (hfeed : '\n' ∈ u) :
    Moves Broken (InStep s note line) c d := by
  have hsplit := takeWhile_append_dropWhile (p := fun y => !isBreak y) (l := u)
  have hmem := mem_dropWhile_not_isBreak hfeed
  have hbroken (t : List Char) : Broken ((u.dropWhile fun y => !isBreak y) ++ t) := by
    have hhead := head?_dropWhile_all_isBreak u
    obtain ⟨x, v, hv⟩ := exists_cons_of_ne_nil (ne_nil_of_mem hmem)
    rw [hv] at hhead ⊢
    exact hhead
  refine ⟨u.takeWhile fun y => !isBreak y,
    ⟨⟨_, ?_, hbroken s⟩, ⟨_, ?_, hbroken (remark note ++ s)⟩⟩, ?_⟩
  · rw [← append_assoc, hsplit, h.left]
  · rw [← append_assoc, hsplit, h.right]
  rintro _ _ ⟨k, hk, rfl, rfl⟩
  refine (h.drop (hk.trans (List.takeWhile_prefix _).length_le) ?_).inStep
  have hmem' : '\n' ∈ u.drop k := by
    rw [← hsplit, drop_append_of_le_length hk]
    exact mem_append_right _ hmem
  rw [← quotedAfter_append_of_mem hmem' (u.take k), take_append_drop, h.unquoted]

theorem Below.moves (h : Below s c d) (hne : c.rest ≠ []) :
    Moves Broken (InStep s note line) c d := by
  have hleft : c.rest = c.rest ++ [] := by rw [append_nil]
  refine ⟨c.rest, ⟨⟨[], hleft, rfl⟩, ⟨[], h.rest ▸ hleft, rfl⟩⟩, ?_⟩
  rintro _ _ ⟨k, -, rfl, rfl⟩
  exact h.inStep hne k

/-- A directive on another line is the same on both sides. -/
theorem keeps_directive_apart (hs : LineEnd s note) : Agrees (Moves Broken (InStep s note line))
    (Tight s note line) directive (· = ·) := by
  refine keeps_directive (.of_local (fun _ _ h => h) (local_directiveLine delimits_broken)) ?_
    (fun _ _ h => h.position) ((keeps_blanks_remark hs).of_imp fun _ _ h => .inl h.even)
  rintro c d ⟨u, -, h⟩
  exact (h c d (.refl u c d)).position

/-- Both cursors stand before the remark, on its line. -/
structure Beside (s note : List Char) (line : Nat) (c d : Cursor) : Prop where
  stretch : ∃ w, c.rest = w ++ s ∧ d.rest = w ++ (remark note ++ s) ∧ ∀ x ∈ w, isBreak x = false
  left : c.position.line = line
  right : d.position.line = line

theorem Ahead.beside (h : Ahead s note line u c d) (hfeed : '\n' ∉ u) : Beside s note line c d := by
  have hline := h.line
  rw [Position.afterAll_of_notMem hfeed] at hline
  exact ⟨⟨u, h.left, h.right, isBreak_eq_false_of_notMem h.paired hfeed⟩, hline, h.position ▸ hline⟩

theorem Beside.moves (h : Beside s note line c d) (hs : LineEnd s note) :
    Moves Edge (Beside s note line) c d := by
  obtain ⟨⟨w, hleft, hright, hw⟩, hline, hline'⟩ := h
  refine ⟨w, ⟨⟨s, hleft, edge_of_lineOver s hs.ends⟩, ⟨_, hright, rfl⟩⟩, ?_⟩
  rintro _ _ ⟨k, hk, rfl, rfl⟩
  have hfeed : '\n' ∉ w.take k :=
    notMem_of_isBreak_eq_false fun x hx => hw x (mem_of_mem_take hx)
  refine ⟨⟨w.drop k, ?_, ?_, fun x hx => hw x (mem_of_mem_drop hx)⟩, ?_, ?_⟩
  · rw [Cursor.rest_drop, hleft, drop_append_of_le_length hk]
  · rw [Cursor.rest_drop, hright, drop_append_of_le_length hk]
  · simp only [Cursor.drop, hleft, take_append_of_le_length hk]
    rw [Position.afterAll_of_notMem hfeed]
    exact hline
  · simp only [Cursor.drop, hright, take_append_of_le_length hk]
    rw [Position.afterAll_of_notMem hfeed]
    exact hline'

/-- Both cursors stand at the end of the line with the remark. -/
structure Abutting (s : List Char) (line : Nat) (c d : Cursor) : Prop where
  rest : c.rest = s ∧ d.rest = s
  left : c.position.line = line
  right : d.position.line = line

/-- The rest of the line takes the remark with it. -/
theorem keeps_restOfLine_beside (hs : LineEnd s note) :
    Keeps (Beside s note line) (Abutting s line) (fun _ _ => True) restOfLine restOfLine := by
  intro c d hcd
  obtain ⟨⟨w, hleft, hright, hw⟩, hline, hline'⟩ := hcd
  have hread {c : Cursor} {v : List Char} (hc : c.rest = v ++ s) (hv : ∀ x ∈ v, isBreak x = false) :
      (c.drop (c.rest.takeWhile fun y => !isBreak y).length).rest = s ∧
      (c.drop (c.rest.takeWhile fun y => !isBreak y).length).position.line = c.position.line := by
    have htaken : (c.rest.takeWhile fun y => !isBreak y) = v := by
      rw [hc, takeWhile_append_lineOver hs.ends, takeWhile_eq_self_iff]
      exact fun x hx => by rw [hv x hx, Bool.not_false]
    have hposition := (Passes.takeWhile (c := c) fun y => !isBreak y).position
    rw [htaken, Position.afterAll_of_notMem (notMem_of_isBreak_eq_false hv)] at hposition
    exact ⟨by rw [htaken, Cursor.rest_drop, hc, drop_left], by rw [htaken, hposition]⟩
  have hremark : ∀ x ∈ w ++ remark note, isBreak x = false := by
    intro x hx
    simp only [remark, mem_append, mem_cons] at hx
    rcases hx with hx | rfl | rfl | rfl | hx
    · exact hw x hx
    · rfl
    · rfl
    · rfl
    · exact hs.note x hx
  obtain ⟨hrest, hposition⟩ := hread hleft hw
  obtain ⟨hrest', hposition'⟩ := hread (by rw [hright, append_assoc]) hremark
  rw [restOfLine, takeWhile, takeWhile]
  exact .done trivial ⟨⟨hrest, hrest'⟩, hposition.trans hline, hposition'.trans hline'⟩

theorem keeps_blanks_abutting (hs : LineEnd s note) :
    Keeps (Abutting s line) (Tight s note line) (fun _ _ => True) blanks blanks := by
  intro c d hcd
  have hline : c.position.line = d.position.line := by rw [hcd.left, hcd.right]
  have hpast := below_of_blanks false false (u := []) (v := []) hs hcd.rest.1 hcd.rest.2 hline
  simp only [length_nil, Nat.zero_add] at hpast
  rw [blanks, blanks]
  refine .done trivial ⟨settled_blanks c, .inr ?_⟩
  rwa [hcd.rest.1, hcd.rest.2]

/-- A directive on the line of the remark stays there. -/
theorem keeps_directive_beside (hs : LineEnd s note) :
    Agrees (Beside s note line) (Tight s note line) directive
      fun a _ => a.span.start.line = line := by
  have hmoves : ∀ c d, Beside s note line c d → Moves Edge (Beside s note line) c d :=
    fun _ _ h => h.moves hs
  have hpercent : Agrees (Beside s note line) (Beside s note line) (char '%') (· = ·) :=
    .of_local hmoves (.char margin_edge.toDelimits (by decide))
  have hname : Agrees (Beside s note line) (Beside s note line) identifier (· = ·) :=
    .of_local hmoves (.identifier margin_edge.toDelimits)
  have hline : Agrees (Beside s note line) (Abutting s line) directiveLine fun _ _ => True :=
    hpercent.pass <| hname.bind fun _ _ _ => (keeps_restOfLine_beside hs).bind fun _ _ _ =>
      .pure trivial
  have hspanned := hline.spanned (P := fun p _ => p.line = line) (fun _ _ h => h.left)
    fun _ _ h => h.left
  exact hspanned.bind fun x y hxy => (keeps_blanks_abutting hs).pass <| .pure hxy.2.1

/-- **Directives are the same on both sides**, but for one on the line of the remark. -/
theorem keeps_directive_remark (hs : LineEnd s note) :
    Agrees (Tight s note line) (Tight s note line) directive
      fun a b => a = b ∨ a.span.start.line = line := by
  intro c d hcd
  rcases hcd.place with ⟨u, -, h⟩ | h
  · by_cases hfeed : '\n' ∈ u
    · exact (keeps_directive_apart hs c d (h.moves hfeed)).mono (fun _ _ h => h) fun _ _ => .inl
    · exact (keeps_directive_beside hs c d (h.beside hfeed)).mono (fun _ _ h => h)
        fun _ _ => .inr
  · by_cases hnil : c.rest = []
    · have hfails : FailsAt none directive := (FailsAt.char (by decide)).bind.spanned.bind
      obtain ⟨e, he⟩ := hfails c (by rw [hnil]; rfl)
      obtain ⟨e', he'⟩ := hfails d (by rw [← h.rest, hnil]; rfl)
      rw [he, he']
      exact .failed
    · exact (keeps_directive_apart hs c d (h.moves hnil)).mono (fun _ _ h => h) fun _ _ => .inl

/-! ## Code -/

theorem upTo_eq {v t : List Char} (hc : c.rest = v ++ t) (hc' : c'.rest = t) : c.upTo c' = v := by
  rw [Cursor.upTo, hc, hc', length_append, Nat.add_sub_cancel, take_left']
  rfl

theorem upTo_eq_take (hc : c.rest = u ++ s) (hc' : c'.rest = w ++ s) :
    c.upTo c' = u.take (u.length - w.length) := by
  rw [Cursor.upTo, hc, hc', length_append, length_append, Nat.add_sub_add_right,
    take_append_of_le_length (Nat.sub_le _ _)]

/-- **The end of the code is the same on both sides.** -/
theorem endOfCode_eq_of_tight (hs : LineEnd s note) (h : Tight s note line c d)
    (h' : Loose s note line c' d') (hlt : c'.rest.length < c.rest.length) :
    endOfCode c.position (c.upTo c') = endOfCode d.position (d.upTo d') := by
  have hnoFeed : '\n' ∉ note := fun hmem => absurd (hs.note _ hmem) (by decide)
  rcases h.place with ⟨u, -, h⟩ | h
  · rcases h' with (⟨w, h'⟩ | h') | h'
    · rw [upTo_eq_take h.left h'.left, upTo_eq_take h.right h'.right, h.position]
    · -- the code runs over the end of the line, on one side with the remark
      obtain ⟨b, hsplit, hb⟩ := h'.split
      have hover : LineOver b := hb.imp_left fun hnil => (append_eq_nil_iff.1 (hsplit ▸ hnil)).1
      have hleft : c.upTo c' = u ++ b := by
        refine upTo_eq (t := c'.rest) ?_ rfl
        rw [h.left, append_assoc, ← hsplit]
      have hright : d.upTo d' = u ++ (remark note ++ b) := by
        refine upTo_eq (t := c'.rest) ?_ h'.rest.symm
        rw [h.right, append_assoc, append_assoc, ← hsplit]
      rw [hleft, hright, h.position, endOfCode_remark h.unquoted hnoFeed hover]
    · -- the space before the dashes was taken on one side only
      have hright : d.upTo d' = u ++ [' '] :=
        upTo_eq (by rw [h.right, append_assoc]; rfl) h'.right
      rw [upTo_eq h.left h'.left, hright, h.position, endOfCode_space h.unquoted]
  · -- behind the line of the remark no other place can be reached than one behind it
    obtain ⟨b, hsplit, -⟩ := h.split
    have hle : c'.rest.length < s.length := by
      have hlength := congrArg List.length hsplit
      rw [length_append] at hlength
      omega
    rcases h' with (⟨w, h'⟩ | h') | h'
    · rw [h'.left, length_append] at hle
      omega
    · have hne := ne_nil_of_length_pos (Nat.zero_lt_of_lt hlt)
      rw [Cursor.upTo, Cursor.upTo, h.rest, h'.rest, h.position hne]
    · rw [h'.left] at hle
      exact absurd hle (Nat.lt_irrefl _)

/-! ## Programs -/

theorem isApart_of_mem_words {w : String} (hw : w ∈ keywords) :
    isApart isEdge w.toList ∧ isPlainWord w.toList := by
  revert w
  decide

theorem flush_inStep {β : Type} {V W : α → β → Prop} {q : Parser β}
    (h : Keeps (Even s note line) (InStep s note line) V p q) (hVW : ∀ a b, V a b → W a b) :
    Keeps (Tight s note line) (Flush (Loose s note line) .same .same) W p q :=
  h.mono (fun _ _ h => h.even) (fun _ _ h => ⟨.inl h.even, h.position⟩) hVW

theorem loose_inStep {β : Type} {V W : α → β → Prop} {q : Parser β}
    (h : Keeps (Even s note line) (InStep s note line) V p q) (hVW : ∀ a b, V a b → W a b) :
    Keeps (Tight s note line) (Loose s note line) W p q :=
  h.mono (fun _ _ h => h.even) (fun _ _ h => .inl h.even) hVW

theorem keeps_keyword_tight (hs : LineEnd s note) {V : String → String → Prop} {w : String}
    (hword : isApart isEdge w.toList ∧ isPlainWord w.toList) (hV : ∀ a, V a a) :
    Agrees (Tight s note line) (Loose s note line) (keyword w) V :=
  (keeps_keyword_remark hs hword hV).of_imp fun _ _ h => h.even

/-- A name is taken without the white space behind it. -/
theorem keeps_name_remark (hs : LineEnd s note) :
    Agrees (Tight s note line) (InStep s note line) name (· = ·) :=
  (keeps_token hs (local_name margin_edge.toDelimits)).of_imp fun _ _ h => h.even

theorem lexis_remark (hs : LineEnd s note) :
    Lexis (Loose s note line) (Tight s note line) .same .same where
  loose_of_tight _ _ h := .inl h.even
  position c d h hne := by
    rcases h.place with ⟨u, -, h⟩ | h
    · exact h.position
    · exact h.position hne
  column := column_same
  code _ _ _ _ h h' hlt := endOfCode_eq_of_tight hs h h' hlt
  atEnd c d h := by
    rw [Cursor.atEnd, Cursor.atEnd]
    rcases h.place with ⟨u, hne, h⟩ | h
    · obtain ⟨x, v, rfl⟩ := exists_cons_of_ne_nil hne
      rw [h.left, h.right]
      rfl
    · rw [h.rest]
  blanks := keeps_blanks_remark hs
  char x hx := by
    have hall : (marks.all fun x => isPlain x && x != '-') = true := by decide
    have := balanced_char (x := x) (by simpa using all_eq_true.1 hall x hx)
    exact flush_inStep (keeps_token hs (margin_edge.char (mem_append_right _ hx)))
      fun _ _ _ => trivial
  symbol _ hsym := keeps_symbol_remark hs hsym
  keyword _ hw := keeps_keyword_tight hs (isApart_of_mem_words hw) fun _ => trivial
  identifier := loose_inStep (keeps_token hs (.identifier margin_edge.toDelimits)) fun _ _ h => h
  name := loose_inStep (keeps_token hs (local_name margin_edge.toDelimits)) fun _ _ h => h
  number := loose_inStep (keeps_token hs (local_number margin_edge)) fun _ _ h => h
  string := loose_inStep (keeps_stringLiteral_remark hs) fun _ _ h => h
  system := loose_inStep (keeps_token hs (local_systemName margin_edge)) fun _ _ h => h
  programVariable := loose_inStep (keeps_token hs (local_programVariable margin_edge)) fun _ _ h => by rw [h]; exact ⟨rfl, rfl⟩
  fieldName := flush_inStep (keeps_token hs (local_fieldName margin_edge)) fun _ _ h => h
  labelMark := (keeps_name_remark hs).bind fun _ _ hab =>
    ((keeps_spaces_remark hs).of_imp fun _ _ h => h.even).pass <|
    (keeps_doubleColon_loose hs).pass <| .pure hab
  groupMark := (keeps_keyword_tight (V := fun _ _ => True) hs (by decide) fun _ => trivial).pass <|
    (keeps_char_loose hs (by decide) (by decide)).pass <| .pure trivial
  verb := (keeps_keyword_tight hs (by decide) fun _ => ⟨rfl, rfl⟩).orElse
    (keeps_keyword_tight hs (by decide) fun _ => ⟨rfl, rfl⟩)
  matching := matching_same
  type := typeOfWord_same

/-- Items with directives on other lines only are the same. -/
theorem prologue_eq {items items' : List PrologueItem}
    (h : List.Forall₂ (SameItem .same .same fun a b => a = b ∨ a.span.start.line = line) items
      items')
    (hline : ∀ e ∈ items.filterMap PrologueItem.directive?, e.span.start.line ≠ line) :
    items' = items := by
  induction h with
  | nil => rfl
  | cons hab _ ih =>
    cases hab with
    | directive hab =>
      obtain ⟨hne, hline⟩ := forall_mem_cons.1 hline
      rw [ih hline, hab.resolve_right hne]
    | declaration hab =>
      rw [Declaration.view_same, Declaration.view_same] at hab
      rw [ih hline, hab]

/-- **A program with a remark is the program without it**, but for the header and the end. -/
theorem keeps_program_remark (hs : LineEnd s note) :
    Keeps (fun c d => ∃ u, Ahead s note line u c d) (Tight s note line)
      (fun p q => (∀ e ∈ p.directives, e.span.start.line ≠ line) →
        q = { p with header := q.header, span := { p.span with stop := q.span.stop } })
      program program := by
  have hlexis : Lexis (Loose s note line) (Tight s note line) .same .same := lexis_remark hs
  rw [program_eq]
  refine .cursor_bind_at fun c d hcd => ?_
  have htop : c.position = d.position := by
    obtain ⟨u, h⟩ := hcd
    exact h.position
  have hloose : Loose s note line c d := .inl (.inl hcd)
  refine Keeps.of_imp (S := Loose s note line) ?_ (by rintro _ _ ⟨rfl, rfl⟩; exact hloose)
  refine hlexis.blanks.pass <| .cursor_bind fun c₁ d₁ hcd₁ => ?_
  refine .pass hlexis.kw <| (keeps_name_remark hs).bind
    fun a b hab => ((keeps_spaces_remark hs).of_imp fun _ _ h => h.even).pass <|
    .cursor_bind fun c₂ d₂ hcd₂ => ?_
  refine (hlexis.content (Q := fun _ _ => True) (keeps_directive_remark hs)
    fun _ _ _ => trivial).bind fun k k' hk => .pure fun hline => ?_
  obtain ⟨hprologue, hmain, htrailing, -⟩ := hk
  rw [map_view_same Statement.view_same, map_view_same Statement.view_same] at hmain
  rw [map_view_same Declaration.view_same, map_view_same Declaration.view_same] at htrailing
  simp only [Content.program, prologue_eq hprologue hline, hab, hmain, htrailing, htop]

end RobotSource.Karel.Grammar
