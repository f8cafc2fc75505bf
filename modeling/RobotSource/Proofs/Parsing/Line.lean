import RobotSource.Proofs.Parsing.Cursor
/-!
# Reading a line and its break

What is read within a line depends on the line alone, and not on the kind of break behind it or on
the text that follows (`Local.reaches`). `Reaches p c a s` is how such facts are put together: at the
cursor the parser reads `a`, and it leaves `s`, whatever the position is then.
-/

namespace RobotSource.Parsing

open Text Parsing.Parser List

variable {α β : Type} {p : Parser α} {a : α} {b : β} {c d r : Cursor} {l s t : List Char}
variable {x : Char}

/-! ## What is read and what is left -/

/-- The parser reads `a` and leaves `s`. -/
def Reaches (p : Parser α) (c : Cursor) (a : α) (s : List Char) : Prop :=
  ∃ r, p c = .done a r ∧ r.rest = s

namespace Reaches

theorem pure (a : α) (hc : c.rest = s) : Reaches (pure a : Parser α) c a s := ⟨c, rfl, hc⟩

theorem bind {f : α → Parser β} (h : Reaches p c a s)
    (hf : ∀ r, r.rest = s → Reaches (f a) r b t) : Reaches (p >>= f) c b t := by
  obtain ⟨r, hr, hs⟩ := h
  obtain ⟨r', hr', ht⟩ := hf r hs
  exact ⟨r', bind_of_done hr hr', ht⟩

theorem seqRight_pure (h : Reaches p c a s) : Reaches (p *> Pure.pure b) c b s :=
  h.bind fun _ hr => .pure b hr

theorem orElse {q : Parser α} (h : Reaches p c a s) : Reaches (p <|> q) c a s := by
  obtain ⟨r, hp, hr⟩ := h
  exact ⟨r, orElse_of_done hp, hr⟩

/-- An alternative that fails is passed over. -/
theorem orElse_of_failed {q : Parser α} (hp : ∃ e, p c = .failed e) (h : Reaches q c a s) :
    Reaches (p <|> q) c a s := by
  obtain ⟨e, he⟩ := hp
  obtain ⟨r, hq, hr⟩ := h
  exact ⟨r, Parser.orElse_of_failed he hq, hr⟩

theorem of_drop {k : Nat} (h : p c = .done a (c.drop k)) (hs : c.rest.drop k = s) :
    Reaches p c a s :=
  ⟨_, h, hs⟩

end Reaches

theorem reaches_char (hc : c.rest = x :: s) : Reaches (char x) c x s :=
  ⟨c.drop 1, char_eq_done.2 ⟨rfl, rfl, s, hc⟩, by rw [Cursor.rest_drop, hc]; rfl⟩

/-- A run takes what satisfies its test up to what does not. -/
theorem reaches_takeWhile {q : Char → Bool} (hc : c.rest = l ++ s) (hl : ∀ x ∈ l, q x)
    (hs : s.head?.any q = false) : Reaches (takeWhile q) c l s := by
  refine ⟨c.drop l.length, by rw [takeWhile, hc, takeWhile_append_of_head? hl hs], ?_⟩
  rw [Cursor.rest_drop, hc, drop_left]

theorem reaches_spaces (hc : c.rest = l ++ s) (hl : ∀ x ∈ l, isSpaceOrTab x)
    (hs : s.head?.any isSpaceOrTab = false) : Reaches spaces c () s :=
  (reaches_takeWhile hc hl hs).bind fun _ hr => .pure () hr

/-- Spaces and tabs are read up to something else. -/
theorem spaces_eq_done {u : Unit} (h : spaces c = .done u r) :
    ∃ g, c.rest = g ++ r.rest ∧ (∀ x ∈ g, isSpaceOrTab x) ∧
      r.rest.head?.any isSpaceOrTab = false := by
  cases h
  refine ⟨c.rest.takeWhile isSpaceOrTab, ?_, ?_, ?_⟩
  · rw [Cursor.rest_drop, drop_length_takeWhile, takeWhile_append_dropWhile]
  · exact fun x hx => all_eq_true.1 all_takeWhile x hx
  · rw [Cursor.rest_drop, drop_length_takeWhile]
    exact head?_dropWhile_any isSpaceOrTab c.rest

/-! ## Breaks -/

/-- The text goes on with a line break. -/
def Breaks (s : List Char) : Prop := ∃ b t, IsLineBreak b ∧ s = b ++ t

theorem Breaks.isBreak_head (h : Breaks (x :: s)) : isBreak x := by
  obtain ⟨b, t, rfl | rfl, h⟩ := h <;> cases h <;> rfl

theorem not_breaks_nil : ¬ Breaks [] := by
  rintro ⟨b, t, hb, h⟩
  exact hb.ne_nil (append_eq_nil_iff.1 h.symm).1

theorem delimits_breaks : Delimits isBreak Breaks where
  toDelimiter := delimiter_isBreak
  begins _ _ h := h.isBreak_head

theorem reaches_lineBreak {b : List Char} (hb : IsLineBreak b) (hc : c.rest = b ++ s) :
    Reaches lineBreak c b s := by
  rcases hb with rfl | rfl
  · refine .of_drop (k := 1) ?_ (by rw [hc]; rfl)
    rw [lineBreak, hc]
    rfl
  · refine .of_drop (k := 2) ?_ (by rw [hc]; rfl)
    rw [lineBreak, hc]
    rfl

theorem reaches_lineEnd {b : List Char} (hb : IsLineBreak b) (hc : c.rest = b ++ s) :
    Reaches lineEnd c b s := by
  obtain ⟨r, hr, hs⟩ := reaches_lineBreak hb hc
  exact ⟨r, orElse_of_done hr, hs⟩

theorem reaches_lineEnd_nil (hc : c.rest = []) : Reaches lineEnd c [] [] := by
  have hfails : lineBreak c = .failed (.plain c .noLineBreak) := by rw [lineBreak, hc]
  have hend : endOfText c = .done [] c := by rw [endOfText, if_pos (by simp [Cursor.atEnd, hc])]
  exact ⟨c, orElse_of_failed hfails hend, hc⟩

theorem rest_of_lineBreak {b : List Char} (h : lineBreak c = .done b r) :
    IsLineBreak b ∧ c.rest = b ++ r.rest := by
  rw [lineBreak] at h
  split at h
  · rename_i hrest
    cases h
    exact ⟨.inl rfl, by rw [Cursor.rest_drop, hrest]; rfl⟩
  · rename_i hrest
    cases h
    exact ⟨.inr rfl, by rw [Cursor.rest_drop, hrest]; rfl⟩
  · cases h

/-- A line ends with its break, or with the text. -/
theorem rest_of_lineEnd {b : List Char} (h : lineEnd c = .done b r) :
    (IsLineBreak b ∧ c.rest = b ++ r.rest) ∨ c.rest = [] ∧ r.rest = [] := by
  rcases orElse_eq_done h with h | h
  · exact .inl (rest_of_lineBreak h)
  · rw [endOfText] at h
    split at h
    · rename_i hend
      cases h
      have hnil : c.rest = [] := by simpa [Cursor.atEnd] using hend
      exact .inr ⟨hnil, hnil⟩
    · cases h

/-- Where something follows, a line ends with its break. -/
theorem rest_of_lineEnd_of_ne_nil {b : List Char} (h : lineEnd c = .done b r) (hr : r.rest ≠ []) :
    IsLineBreak b ∧ c.rest = b ++ r.rest :=
  (rest_of_lineEnd h).resolve_right fun hnil => hr hnil.2

/-- A line with its end, of a text that is not over, is not nothing. -/
theorem length_lt_of_line (h : (do let line ← restOfLine; let _ ← lineEnd; return line) c = .done l r)
    (hne : c.rest ≠ []) : r.rest.length < c.rest.length := by
  obtain ⟨line, c₁, hline, b, c₂, hend, h⟩ := bind₂_eq_done.1 h
  cases h
  have hle : c₁.rest.length ≤ c.rest.length := by
    cases hline
    simp
  rcases rest_of_lineEnd hend with ⟨hb, hrest⟩ | ⟨-, hnil⟩
  · have hpos := length_pos_of_ne_nil hb.ne_nil
    rw [hrest, length_append] at hle
    omega
  · rw [hnil]
    exact length_pos_of_ne_nil hne

/-! ## Within a line -/

/-- No break is read over. -/
abbrev WithinLine : Cursor → Cursor → Prop := Over fun x => isBreak x = false

theorem closedLine_of_forall (h : ∀ x ∈ l, isBreak x = false) : ClosedLine l where
  feedFree hmem := absurd (h '\n' hmem) (by decide)
  last hlast := absurd (h '\r' (mem_of_getLast? hlast)) (by decide)

theorem WithinLine.exists_append (h : WithinLine c r) :
    ∃ l, c.rest = l ++ r.rest ∧ ∀ x ∈ l, isBreak x = false := by
  obtain ⟨l, hl, hbreak⟩ := h
  exact ⟨l, hl.rest, hbreak⟩

theorem not_isBreak_of_isSpaceOrTab (h : isSpaceOrTab x) : isBreak x = false :=
  Lined.of_not (K := (isBreak · = false)) (fun _ => not_isSpaceOrTab_of_isBreak) x h

theorem local_spaces : Local Breaks spaces :=
  (Local.takeWhile delimits_breaks fun _ => not_isSpaceOrTab_of_isBreak).bind fun _ => .pure ()

theorem local_keyword {word : String} (hword : isApart isBreak word.toList) :
    Local Breaks (keyword word) :=
  .keyword delimits_breaks not_breaks_nil hword fun _ => not_isSpaceOrTab_of_isBreak

/-- The lines are read as `a` in any text that begins with them. -/
def ReadAs (p : Parser α) (lines : List (List Char)) (a : α) : Prop :=
  ∀ d s, Opens s lines d.rest → Reaches p d a s

/-- What is read within a line is read in it whatever follows. -/
theorem Local.reaches (hp : Local Breaks p) (h : p c = .done a r)
    (hc : c.rest = l ++ r.rest) (hr : Breaks r.rest) (hs : Breaks s) (hd : d.rest = l ++ s) :
    Reaches p d a s := by
  have hleads : Leads Breaks l c := ⟨r.rest, hc, hr⟩
  have hrel := hp l c d ⟨hleads, ⟨s, hd, hs⟩⟩
  rw [h] at hrel
  obtain ⟨a', r', hdone, hvalue, k, hk, rfl, rfl⟩ := hrel.exists_done
  have hlen : k = l.length := by
    have hlen := congrArg List.length hc
    rw [Cursor.rest_drop, length_append, length_drop] at hlen
    have hle := hleads.length_le
    omega
  rw [hvalue]
  refine ⟨d.drop k, hdone, ?_⟩
  rw [Cursor.rest_drop, hd, hlen, drop_left]

/-- **A line is read alike in any text that has it.** -/
theorem Local.readAs {b : List Char} {r' : Cursor} (hp : Local Breaks p)
    [hover : Reads WithinLine p] (h : p c = .done a r) (hend : lineEnd r = .done b r')
    (hr : r'.rest ≠ []) :
    ∃ l, Opens r'.rest [l] c.rest ∧ (∀ x ∈ l, isBreak x = false) ∧
      ReadAs (do let a ← p; let _ ← lineEnd; return a) [l] a := by
  obtain ⟨l, hc, hl⟩ := WithinLine.exists_append (hover.of_done h)
  obtain ⟨hb, hrest⟩ := rest_of_lineEnd_of_ne_nil hend hr
  refine ⟨l, ?_, hl, ?_⟩
  · rw [hc, hrest]
    exact .cons (closedLine_of_forall hl) hb .nil
  · intro d s hd
    generalize htext : d.rest = text at hd
    cases hd with
    | cons _ hb' hnil =>
      cases hnil
      refine (hp.reaches h hc ⟨b, _, hb, hrest⟩ ⟨_, s, hb', rfl⟩ htext).bind fun r hr => ?_
      exact (reaches_lineEnd hb' hr).bind fun r' hr' => .pure a hr'

end RobotSource.Parsing
