import RobotSource.Proofs.Karel.Grammar.Suffixes
/-!
# Karel tokens with a line behind them

A text is compared with the same text in front of a line break and another text, which begins as a
statement does (`Opening`). As long as the first text is not at its end, both are read alike
(`Joined`). At its end white space leads the right side over the break, and the cursors stand
before the two different ends of one text (`Meets`).
-/

namespace RobotSource.Karel.Grammar

open Parsing Parsing.Parser Text List

variable {α β : Type} {c c' d d' r : Cursor} {s t u : List Char} {n m k : Nat}
variable {w sym : String} {x : Char} {p : Parser α}

/-! ## Where the next statement begins -/

/-- The text is empty or begins as a statement does. -/
def Opening (s : List Char) : Prop :=
  s = [] ∨ (∃ w ∈ openers, sameIgnoringCase (leadingWord s) w = true) ∨ StartsOperand s

theorem opening_of_statement {a : Statement} (h : statement c = .done a r) : Opening c.rest :=
  .inr (ledBy_statement c a r h)

theorem plain_of_mem_openers (h : w ∈ openers) : Plain w := by
  revert w
  decide

namespace Opening

theorem all_isOpening (hs : Opening s) : s.head?.all isOpening := by
  rcases hs with rfl | ⟨w, hw, hsame⟩ | hs
  · rfl
  · exact all_isOpening_of_start (start_of_same hsame (plain_of_mem_openers hw))
  · exact all_of_any hs.isOpening

theorem head?_ne (hs : Opening s) (hx : isOpening x = false) : s.head? ≠ some x := by
  intro heq
  have hall := hs.all_isOpening
  rw [heq, Option.all_some, hx] at hall
  cases hall

theorem skip_eq (hs : Opening s) : skip s = s := skip_of_isOpening hs.all_isOpening

theorem punct_failed (hs : Opening s) (hx : isOpening x = false) (hd : d.rest = s) :
    ∃ e, punct x d = .failed e :=
  failsAt_punct (hs.head?_ne hx) d (by rw [hd])

theorem op_failed (hs : Opening s) {b : Char}
    (hsym : sym.toList.all isMark ∧ sym.toList.head? = some b)
    (hopening : isOpening b = false) (hd : d.rest = s) : ∃ e, op sym d = .failed e :=
  Retreats.failed fun _ _ h => hs.head?_ne hopening (hd ▸ head?_of_op h hsym)

/-- A reserved word that begins no statement does not stand there. -/
theorem kw_failed (hs : Opening s) (hw : OtherThan openers w) (hd : d.rest = s) :
    ∃ e, kw w d = .failed e := by
  obtain ⟨hplain, hreserved, hopener⟩ := hw
  refine Retreats.failed fun _ r h => ?_
  obtain ⟨hsame, -⟩ := kw_eq_word h hplain
  rw [hd] at hsame
  rcases hs with rfl | ⟨v, hv, hsame'⟩ | hs
  · exact absurd (start_of_same hsame hplain) (by simp)
  · exact absurd (sameIgnoringCase_trans hsame hsame') (by rw [hopener v hv]; simp)
  · have hnot := hs.not_isReserved
    rw [isReserved_of_same hsame, hreserved] at hnot
    cases hnot

end Opening

/-! ## A text with a line behind it -/

/-- Behind the same text, the right one goes on with a line break. The left one is no longer than
`n`. -/
structure Joined (s : List Char) (n : Nat) (c d : Cursor) : Prop where
  length_le : c.rest.length ≤ n
  rest : d.rest = c.rest ++ '\n' :: s

/-- The cursors stand before the same text, or the left one at the end and the right one behind the
break. -/
def Meets (s : List Char) (n : Nat) (c d : Cursor) : Prop :=
  c.rest ≠ [] ∧ Joined s n c d ∨ c.rest = [] ∧ d.rest = s

theorem Joined.drop (h : Joined s n c d) (hk : k ≤ c.rest.length) :
    Joined s n (c.drop k) (d.drop k) where
  length_le := by
    have := h.length_le
    rw [Cursor.rest_drop, length_drop]
    omega
  rest := by rw [Cursor.rest_drop, Cursor.rest_drop, h.rest, drop_append_of_le_length hk]

theorem Meets.joined (h : Meets s n c d) (hne : c.rest ≠ []) : Joined s n c d :=
  (h.resolve_right fun hnil => hne hnil.1).2

theorem Joined.head?_eq (h : Joined s n c d) (hne : c.rest ≠ []) :
    d.rest.head? = c.rest.head? := by
  obtain ⟨x, t, hrest⟩ := exists_cons_of_ne_nil hne
  rw [h.rest, hrest]
  rfl

theorem Meets.head? (h : Meets s n c d) (hc : c.rest.head? = some x) : d.rest.head? = some x := by
  have hne : c.rest ≠ [] := fun hnil => by simp [hnil] at hc
  rw [(h.joined hne).head?_eq hne, hc]

theorem Meets.length_le (h : Meets s n c d) : c.rest.length ≤ n := by
  rcases h with ⟨-, h⟩ | ⟨h, -⟩
  · exact h.length_le
  · simp [h]

theorem Meets.of_length (h : Meets s n c d) (hle : c.rest.length ≤ m) : Meets s m c d :=
  h.imp_left fun h => ⟨h.1, hle, h.2.rest⟩

theorem lineOver_feed (s : List Char) : LineOver ('\n' :: s) := .inr (breaks_feed s)

theorem Joined.common (h : Joined s n c d) : Common LineOver c.rest c d :=
  ⟨⟨[], (append_nil _).symm, .inl rfl⟩, ⟨_, h.rest, lineOver_feed s⟩⟩

theorem Joined.moves (h : Joined s n c d) : Moves LineOver (Joined s n) c d := by
  refine ⟨c.rest, h.common, ?_⟩
  rintro _ _ ⟨k, hk, rfl, rfl⟩
  exact h.drop hk

/-! ## Tokens -/

theorem keeps_token_joined (hp : Local LineOver p) : Agrees (Joined s n) (Joined s n) p (· = ·) :=
  .of_local (fun _ _ h => h.moves) hp

theorem keeps_spaces_joined :
    Keeps (Joined s n) (Joined s n) (fun _ _ => True) spaces spaces := by
  have htake : Local LineOver (takeWhile isSpaceOrTab) := by
    refine .takeWhile encloses_lineOver.toDelimits fun x hx => ?_
    simp only [isBreak, Bool.or_eq_true, beq_iff_eq] at hx
    rcases hx with rfl | rfl <;> rfl
  exact (Keeps.of_local (fun _ _ h => h.moves) htake).pass <| .pure trivial

theorem blankLength_le (comment : Bool) (u : List Char) : blankLength comment u ≤ u.length := by
  induction u generalizing comment with
  | nil => exact Nat.le_refl _
  | cons x u ih =>
    rw [blankLength, length_cons]
    repeat' split
    all_goals first | exact Nat.succ_le_succ (ih _) | exact Nat.zero_le _

/-- White space and comments at the end lead behind the break. -/
theorem blankLength_append_feed (comment : Bool) (u s : List Char) :
    blankLength comment (u ++ '\n' :: s) =
      if blankLength comment u = u.length then u.length + 1 + blankLength false s
      else blankLength comment u := by
  induction u generalizing comment with
  | nil => cases comment <;> simp [blankLength, isBreak, isSpacing, Nat.add_comm]
  | cons x u ih =>
    have hhead : (u ++ '\n' :: s).head? = some '-' ↔ u.head? = some '-' := by
      cases u <;> simp
    have hstep (comment : Bool) : blankLength comment (u ++ '\n' :: s) + 1 =
        if blankLength comment u + 1 = (x :: u).length then
          (x :: u).length + 1 + blankLength false s
        else blankLength comment u + 1 := by
      rw [ih, length_cons]
      split <;> rename_i h
      · rw [if_pos (by omega)]
        omega
      · rw [if_neg (by omega)]
    simp only [cons_append, blankLength, hhead]
    repeat' split
    all_goals first | exact hstep _ | simp_all

/-- Behind white space and comments the cursors meet. -/
theorem Joined.meets (hs : skip s = s) (h : Joined s n c d) (hc : c'.rest = skip c.rest)
    (hd : d'.rest = skip d.rest) : Meets s n c' d' := by
  have hle := blankLength_le false c.rest
  rw [skip] at hc hd
  rw [h.rest, blankLength_append_feed] at hd
  split at hd
  · rename_i hall
    refine .inr ⟨by rw [hc, hall, drop_length], ?_⟩
    rw [hd, Nat.add_assoc, drop_length_add_append, Nat.add_comm, drop_succ_cons]
    exact hs
  · rename_i hne
    have hlength : c'.rest.length = c.rest.length - blankLength false c.rest := by
      rw [hc, length_drop]
    refine .inl ⟨ne_nil_of_length_pos (by omega), ?_, ?_⟩
    · have := h.length_le
      omega
    · rw [hd, hc, drop_append_of_le_length hle]

theorem keeps_blanks_joined (hs : skip s = s) :
    Keeps (Joined s n) (Meets s n) (fun _ _ => True) blanks blanks := by
  intro c d hcd
  exact .done trivial (hcd.meets hs rfl rfl)

/-- A token that is the same on both sides, and that no statement begins with. -/
theorem keeps_meets {q : Parser β} {T : Cursor → Cursor → Prop} {V : α → β → Prop}
    (h : Keeps (Joined s n) T V p q) (hnone : FailsAt none p)
    (hs : ∀ d, d.rest = s → ∃ e, q d = .failed e) : Keeps (Meets s n) T V p q := by
  rintro c d (⟨-, hcd⟩ | ⟨hc, hd⟩)
  · exact h c d hcd
  · obtain ⟨e, he⟩ := hnone c (by rw [hc]; rfl)
    obtain ⟨e', he'⟩ := hs d hd
    rw [he, he']
    exact .failed

/-- Behind a token less of the text is left. -/
theorem keeps_shorter {V : α → α → Prop} [Consumes p]
    (h : Agrees (Joined s (n + 1)) (Meets s (n + 1)) p V) :
    Agrees (Joined s (n + 1)) (Meets s n) p V := by
  intro c d hcd
  refine (h c d hcd).imp_done fun a b r r' hp _ hV hmeets => ⟨hV, hmeets.of_length ?_⟩
  exact Nat.le_of_lt_succ ((length_lt_of_done hp).trans_le hcd.length_le)

/-- Where something has been read, the text was not at its end. -/
theorem carries_meets {q : Parser β} {T : Cursor → Cursor → Prop} {F : α → Cursor → Prop}
    {V : α → β → Prop} (h : Carries (Joined s n) T F V p q)
    (hne : ∀ c a r, p c = .done a r → c.rest ≠ []) : Carries (Meets s n) T F V p q :=
  fun c d a c' hcd hp hc' => h c d a c' (hcd.joined (hne c a c' hp)) hp hc'

theorem keeps_keyword_joined (hw : Plain w) :
    Agrees (Joined s n) (Joined s n) (keyword w) (· = ·) := by
  refine .keyword (fun c d h => ?_) keeps_spaces_joined fun _ => rfl
  refine h.common.matches encloses_lineOver.toDelimits (fun _ k hk => ?_) hw.isApart
    fun k _ hk => h.drop hk
  exact (matchLength?_letters hw.1 hk).2.1

theorem keeps_symbol_joined
    (hsym : isApart isBreak sym.toList ∧ sym.toList.all isMark) :
    Agrees (Joined s n) (Joined s n) (symbol sym) fun _ _ => True := by
  refine .symbol (fun c d h => ?_) keeps_spaces_joined
  refine h.common.matches encloses_lineOver.toDelimits (fun _ k hk => ?_) hsym.1
    fun k _ hk => h.drop hk
  rw [matchLength?_marks (all_eq_true.1 hsym.2)] at hk
  split at hk
  · rename_i hprefix
    exact hprefix.length_le
  · cases hk

section
variable (hs : Opening s)
include hs

theorem keeps_kw_joined (hw : Plain w) :
    Agrees (Joined s n) (Meets s n) (kw w) fun _ _ => True :=
  (keeps_keyword_joined hw).pass <| keeps_blanks_joined hs.skip_eq

theorem keeps_op_joined
    (hsym : isApart isBreak sym.toList ∧ sym.toList.all isMark) :
    Agrees (Joined s n) (Meets s n) (op sym) fun _ _ => True :=
  (keeps_symbol_joined hsym).pass <| keeps_blanks_joined hs.skip_eq

theorem keeps_punct_joined (hx : x ∈ tokenMarks) :
    Agrees (Joined s n) (Meets s n) (punct x) fun _ _ => True :=
  (keeps_token_joined (margin_lineOver.char hx)).pass <|
    keeps_blanks_joined hs.skip_eq

end

/-- The reserved words that begin no statement. -/
abbrev innerWords : List String :=
  ["DIV", "MOD", "AND", "OR", "NOT", "THEN", "ELSE", "ENDIF", "DOWNTO", "TO", "DO", "ENDFOR",
    "ENDWHILE", "UNTIL", "OF", "CASE", "ENDSELECT"]

/-- The operators that begin no statement. -/
abbrev innerMarks : List String := ["*", "/", "+", "-", "<=", ">=", "<>", "=", "<", ">", "::", ")"]

/-- The other marks that begin no statement. -/
abbrev innerSigns : List Char := [',', ')', ']', ':']

theorem keeps_kw_meets (hs : Opening s) [h : Among w [innerWords]] :
    Agrees (Meets s n) (Meets s n) (kw w) fun _ _ => True := by
  have hw : OtherThan openers w :=
    (by decide +kernel : ∀ w ∈ innerWords, OtherThan openers w) w h.mem_row
  obtain ⟨b, l, hword⟩ := exists_cons_of_ne_nil hw.1.2
  exact keeps_meets (keeps_kw_joined hs hw.1) (failsAt_kw hword (by simp))
    fun d hd => hs.kw_failed hw hd

theorem keeps_op_meets (hs : Opening s) [h : Among sym [innerMarks]] :
    Agrees (Meets s n) (Meets s n) (op sym) fun _ _ => True := by
  have hall : ∀ sym ∈ innerMarks, isApart isBreak sym.toList ∧
      sym.toList.all isMark ∧ sym.toList.head?.any (!isOpening ·) := by decide +kernel
  obtain ⟨hapart, hmarks, hhead⟩ := hall sym h.mem_row
  cases hsymbol : sym.toList with
  | nil => simp [isApart, hsymbol] at hapart
  | cons b l =>
    have hb : isOpening b = false := by simpa [hsymbol] using hhead
    exact keeps_meets (keeps_op_joined hs ⟨hapart, hmarks⟩)
      (failsAt_op hsymbol (by simp)) fun d hd =>
        hs.op_failed ⟨hmarks, by rw [hsymbol]; rfl⟩ hb hd

theorem keeps_punct_meets (hs : Opening s) [h : Among x [innerSigns]] :
    Agrees (Meets s n) (Meets s n) (punct x) fun _ _ => True := by
  have hall : ∀ x ∈ innerSigns, x ∈ tokenMarks ∧ isOpening x = false := by decide
  obtain ⟨hx, hopening⟩ := hall x h.mem_row
  exact keeps_meets (keeps_punct_joined hs hx) (failsAt_punct (by simp)) fun _ hd =>
    hs.punct_failed hopening hd

/-! ## Operators -/

section
variable (hs : Opening s)
include hs

theorem keeps_mark_meets {a : α} [Among sym [innerMarks]] :
    Agrees (Meets s n) (Meets s n) (op sym *> pure a) (· = ·) :=
  (keeps_op_meets hs).seqRight_pure a

theorem keeps_word_meets {a : α} [Among w [innerWords]] :
    Agrees (Meets s n) (Meets s n) (kw w *> pure a) (· = ·) :=
  (keeps_kw_meets hs).seqRight_pure a

theorem keeps_productOp_meets : Agrees (Meets s n) (Meets s n) productOp (· = ·) :=
  .orElse (keeps_mark_meets hs) <| .orElse (keeps_mark_meets hs) <|
    .orElse (keeps_word_meets hs) <| .orElse (keeps_word_meets hs) (keeps_word_meets hs)

theorem keeps_sumOp_meets : Agrees (Meets s n) (Meets s n) sumOp (· = ·) :=
  .orElse (keeps_mark_meets hs) <| .orElse (keeps_mark_meets hs) (keeps_word_meets hs)

theorem keeps_sign_meets : Agrees (Meets s n) (Meets s n) sign (· = ·) :=
  .orElse (keeps_mark_meets hs) (keeps_mark_meets hs)

theorem keeps_relationOp_meets : Agrees (Meets s n) (Meets s n) relationOp (· = ·) :=
  .orElse (keeps_mark_meets hs) <| .orElse (keeps_mark_meets hs) <|
    .orElse (keeps_mark_meets hs) <| .orElse (keeps_mark_meets hs) <|
    .orElse (keeps_mark_meets hs) (keeps_mark_meets hs)

end

end RobotSource.Karel.Grammar
