import RobotSource.Proofs.Karel.Grammar.Following
import RobotSource.Proofs.Karel.Grammar.Names
/-!
# Karel blocks with a line behind them

What follows a statement can be read: it is the end of the text, a word that closes the block, or
more statements (`RestReadable`). The last statement of a text takes nothing of the line behind it
if it is `Separate` from that line. Under these two conditions (`EndsApart`) the statements that
enclose others are read alike on both sides, as far as the inner ones are.
-/

namespace RobotSource.Karel.Grammar

open Parsing Parsing.Parser Text

variable {α β : Type} {c c' d d' r : Cursor} {s t u : List Char} {n : Nat} {a : Statement}
variable {w : String}

/-! ## What may follow a statement -/

/-- A call without arguments runs into the text: `WAIT` into `FOR`, `WRITE` into a file with
arguments. -/
def RunsInto (callee : String) (s : List Char) : Prop :=
  sameIgnoringCase callee "WAIT" = true ∧ sameIgnoringCase (leadingWord s) "FOR" = true ∨
  sameIgnoringCase callee "WRITE" = true ∧ s.head?.any isNameStart = true ∧
    isReserved (leadingWord s) = false ∧ (skip (s.dropWhile isNameChar)).head? = some '('

/-- The call transfers data, and has its arguments. -/
def Transfers (callee : String) (es : List Expr) : Prop :=
  (sameIgnoringCase callee "WRITE" = true ∨ sameIgnoringCase callee "READ" = true) ∧
    es.isEmpty = false

/-- The statement takes nothing of the text on the next line. What ends with an expression must not
find a suffix there, and what may be followed by parentheses must not find any. This is asked of a
call whose arguments have formats too, as a statement does not tell of its formats. -/
def Separate : Statement → List Char → Prop
  | .assign .., s => Detached s
  | .delay .., s => Detached s
  | .waitFor .., s => Detached s
  | .repeatLoop .., s => Detached s
  | .returnFrom _ none, s => s.head? ≠ some '('
  | .call _ callee _ es, s =>
    (¬ Transfers callee es → s.head? ≠ some '(') ∧ (es.isEmpty = true → ¬ RunsInto callee s)
  | _, _ => True

instance (callee : String) (s : List Char) : Decidable (RunsInto callee s) :=
  inferInstanceAs (Decidable (_ ∨ _))

instance (callee : String) (es : List Expr) : Decidable (Transfers callee es) :=
  inferInstanceAs (Decidable (_ ∧ _))

instance : (a : Statement) → (s : List Char) → Decidable (Separate a s)
  | .assign .., s => inferInstanceAs (Decidable (Detached s))
  | .delay .., s => inferInstanceAs (Decidable (Detached s))
  | .waitFor .., s => inferInstanceAs (Decidable (Detached s))
  | .repeatLoop .., s => inferInstanceAs (Decidable (Detached s))
  | .returnFrom _ none, s => inferInstanceAs (Decidable (s.head? ≠ some '('))
  | .call _ callee _ es, s => inferInstanceAs (Decidable
    ((¬ Transfers callee es → s.head? ≠ some '(') ∧ (es.isEmpty = true → ¬ RunsInto callee s)))
  | .returnFrom _ (some _), _ | .ifThen .., _ | .forLoop .., _ | .whileLoop .., _ | .select .., _
  | .goto .., _ | .label .., _ | .abort .., _ | .pause .., _ => inferInstanceAs (Decidable True)

/-- The words with which a block ends or goes on. -/
abbrev closers : List String := ["ELSE", "ENDIF", "ENDFOR", "ENDWHILE", "UNTIL", "CASE", "ENDSELECT"]

/-- The block ends or goes on here. -/
def Closes (c : Cursor) : Prop := ∃ w ∈ closers, ∃ r, kw w c = .done () r

namespace Closes

theorem otherThan (hw : w ∈ closers) : OtherThan openers w := by
  revert w
  decide

theorem exists_word (h : Closes c) :
    ∃ w, OtherThan openers w ∧ sameIgnoringCase (leadingWord c.rest) w := by
  obtain ⟨w, hw, r, hkw⟩ := h
  exact ⟨w, otherThan hw, (kw_eq_word hkw (otherThan hw).1).1⟩

theorem start (h : Closes c) : c.rest.head?.any isNameStart := by
  obtain ⟨w, hw, hsame⟩ := h.exists_word
  exact start_of_same hsame hw.1

theorem isReserved (h : Closes c) : Grammar.isReserved (leadingWord c.rest) = true := by
  obtain ⟨w, hw, hsame⟩ := h.exists_word
  exact (isReserved_of_same hsame).trans hw.2.1

theorem ne_nil (h : Closes c) : c.rest ≠ [] := by
  intro hnil
  have hstart := h.start
  simp [hnil] at hstart

theorem follows (h : Closes c) : Follows s c := by
  obtain ⟨w, hw, r, hkw⟩ := h
  exact .of_kw (otherThan hw).1 hkw

theorem statement_ne_done (h : Closes c) : statement c ≠ .done a r := by
  obtain ⟨w, hw, hsame⟩ := h.exists_word
  exact ledBy_statement.ne_done hw hsame

theorem joined (hs : Opening s) (h : Closes c) (hcd : Joined s n c d) : Closes d := by
  obtain ⟨w, hw, r, hkw⟩ := h
  obtain ⟨_, r', hkw', -, -⟩ :=
    Keeps.exists_right (keeps_kw_joined hs (otherThan hw).1) hcd hkw
  exact ⟨w, hw, r', hkw'⟩

end Closes

/-- What follows a statement on the left can be read: nothing, the end of the block, or
statements. -/
inductive RestReadable (s : List Char) : Cursor → Prop
  | ended {c : Cursor} (h : c.rest = []) : RestReadable s c
  | closer {c : Cursor} (h : Closes c) : RestReadable s c
  | next {c r : Cursor} {a : Statement} (h : statement c = .done a r) (hr : RestReadable s r)
      (hseparate : r.rest = [] → Separate a s) : RestReadable s c

/-- A statement in front of what can be read, apart from the next line where nothing follows. -/
structure EndsApart (s : List Char) (a : Statement) (r : Cursor) : Prop where
  readable : RestReadable s r
  separate : r.rest = [] → Separate a s

/-- Only a statement begins with a parenthesis. -/
theorem RestReadable.exists_statement (h : RestReadable s c) (hc : c.rest.head? = some '(') :
    ∃ a r, statement c = .done a r := by
  cases h with
  | ended h => simp [h] at hc
  | closer h =>
    have hstart := h.start
    rw [hc] at hstart
    cases hstart
  | next h _ _ => exact ⟨_, _, h⟩

theorem RestReadable.enclosed (h : RestReadable s c) (hc : c.rest.head? = some '(') :
    Enclosed c := by
  obtain ⟨a, r, hstatement⟩ := h.exists_statement hc
  exact enclosed_of_statement hstatement hc

theorem RestReadable.fresh (h : RestReadable s c) (hc : c.rest.head? ≠ some '(') :
    Fresh c.rest := by
  cases h with
  | ended h => rw [h]; exact .other (by decide)
  | closer h => exact fresh_of_start h.start
  | next h _ _ =>
    rcases ledBy_statement _ _ _ h with ⟨w, hw, hsame⟩ | hstart
    · exact fresh_of_start (start_of_same hsame (plain_of_mem_openers hw))
    · exact fresh_of_startsOperand hstart hc

/-- An expression at the end of a statement goes no further. -/
theorem EndsApart.follows (h : EndsApart s a c) (ha : Separate a s → Detached s) : Follows s c := by
  obtain ⟨hreadable, hseparate⟩ := h
  cases hreadable with
  | ended h => exact .ended h (ha (hseparate h))
  | closer h => exact h.follows
  | next h _ _ => exact .statement h

/-! ## Blocks -/

theorem many_of_nil {as : List Statement} (hc : c.rest = [])
    (h : many statement c = .done as r) : as = [] ∧ r = c := by
  cases many_eq_done.1 h with
  | nil => exact ⟨rfl, rfl⟩
  | cons hstep _ _ => exact absurd hc (ne_nil_of_done hstep)

/-- What is left of the statements of a block, or of a text, can be read. -/
theorem restReadable_of_many {as : List Statement} (h : many statement c = .done as r)
    (hr : r.rest = [] ∨ Closes r)
    (hlast : ∀ a ∈ as.getLast?, r.rest = [] → Separate a s) : RestReadable s c := by
  induction many_eq_done.1 h with
  | nil =>
    rcases hr with hr | hr
    · exact .ended hr
    · exact .closer hr
  | @cons c next r a as hstep _ hrest ih =>
    have hread := many_eq_done.2 hrest
    refine .next hstep (ih hread hr fun b hb => hlast b (List.mem_getLast?_cons hb)) fun hnil => ?_
    obtain ⟨rfl, rfl⟩ := many_of_nil hnil hread
    exact hlast a rfl hnil

section
variable {p : Parser α} {q : Parser β} {T : Cursor → Cursor → Prop} {F : α → Cursor → Prop}
    {V : α → β → Prop} {x : Char} (hs : Opening s)
include hs

/-- Behind the word with which a statement begins, less of the text is left. -/
theorem carries_leading [hw : Lettered w] [Worded w] (h : Carries (Meets s n) (Meets s n) F V p q) :
    Carries (Joined s (n + 1)) (Meets s (n + 1)) F V
      (kw w >>= fun _ => p) (kw w >>= fun _ => q) :=
  (Carries.pass (keeps_shorter (keeps_kw_joined hs hw.fact)) h).mono (fun _ _ h => h)
    (fun _ _ h => h.of_length (h.length_le.trans (Nat.le_succ n))) (fun _ _ h => h) fun _ _ h => h

variable (h : Carries (Meets s n) T F V p q)
include h

/-- A word within a statement goes by, whatever follows. -/
theorem carries_inner [Among w [innerWords]] :
    Carries (Meets s n) T F V (kw w >>= fun _ => p) (kw w >>= fun _ => q) :=
  .pass (keeps_kw_meets hs) h

theorem carries_mark [Among x [innerSigns]] :
    Carries (Meets s n) T F V (punct x >>= fun _ => p) (punct x >>= fun _ => q) :=
  .pass (keeps_punct_meets hs) h

theorem carries_paren :
    Carries (Meets s n) T F V (punct '(' >>= fun _ => p) (punct '(' >>= fun _ => q) := by
  refine carries_meets (.pass (keeps_punct_joined hs (by decide)) h) fun c a r h hnil => ?_
  have hhead := head?_of_bind (fun _ _ => head?_of_punct) h
  simp [hnil] at hhead

end

theorem carries_ident (hs : Opening s) {F : String → Cursor → Prop} :
    Carries (Meets s n) (Meets s n) F (· = ·) ident ident := by
  refine carries_meets (.of_keeps ?_) fun c a r h => ne_nil_of_done h
  exact (keeps_token_joined (local_name margin_lineOver.toDelimits)).bind fun _ _ hab =>
    (keeps_blanks_joined hs.skip_eq).bind fun _ _ _ => .pure hab

theorem follows_of_kw {f : Unit → Parser α} {x : α} [hw : Lettered w]
    (h : (kw w >>= f) c = .done x r) : Follows s c := by
  obtain ⟨_, _, hkw, -⟩ := bind_eq_done.1 h
  exact .of_kw hw.fact hkw

theorem closes_of_kw {f : Unit → Parser α} {x : α} [hw : Among w [closers]]
    (h : (kw w >>= f) c = .done x r) : Closes c := by
  obtain ⟨_, r', hkw, -⟩ := bind_eq_done.1 h
  exact ⟨w, hw.mem_row, r', hkw⟩

theorem closes_of_maybe {p : Parser α} {f : Option α → Parser β} {x : β}
    (hp : ∀ y r, p c = .done y r → Closes c) (hf : ∀ o x r, f o c = .done x r → Closes c)
    (h : (maybe p >>= f) c = .done x r) : Closes c := by
  obtain ⟨o, c₁, hmaybe, hrest⟩ := bind_eq_done.1 h
  rcases maybe_eq_done hmaybe with ⟨y, -, hy⟩ | ⟨rfl, rfl⟩
  · exact hp y c₁ hy
  · exact hf none x r hrest

/-- Two words do not stand at one place. -/
theorem kw_ne_done_of_kw {v : String} {r' : Cursor}
    (hne : (Plain w ∧ Plain v) ∧ sameIgnoringCase w v = false) (h : kw w c = .done () r) :
    kw v c ≠ .done () r' := by
  intro h'
  obtain ⟨⟨hw, hv⟩, hne⟩ := hne
  rw [sameIgnoringCase_trans (kw_eq_word h hw).1 (kw_eq_word h' hv).1] at hne
  cases hne

/-- Statements of texts no longer than `n` are carried over. -/
abbrev CarriesStatement (s : List Char) (n : Nat) : Prop :=
  Carries (Meets s n) (Meets s n) (EndsApart s) (SameStatement .unplaced .unplaced) statement
    statement

/-- A statement that is made of its span is carried over, if it goes on. -/
abbrev CarriesKind (s : List Char) (n : Nat) (p : Parser (Span → Statement)) : Prop :=
  Carries (Joined s n) (Meets s n) (fun build r => ∃ span, EndsApart s (build span) r)
    (SameMaking .unplaced .unplaced) p p

/-- The cases of a select are at their end. -/
def CasesOver (c : Cursor) : Prop := ∃ w ∈ ["ELSE", "ENDSELECT"], ∃ r, kw w c = .done () r

theorem CasesOver.closes (h : CasesOver c) : Closes c := by
  obtain ⟨w, hw, r, h⟩ := h
  have hall : ∀ w ∈ ["ELSE", "ENDSELECT"], w ∈ closers := by decide
  exact ⟨w, hall w hw, r, h⟩

theorem CasesOver.kw_ne_done (h : CasesOver c) : kw "CASE" c ≠ .done () r := by
  obtain ⟨w, hw, r', h⟩ := h
  have hall : ∀ w ∈ ["ELSE", "ENDSELECT"], (Plain w ∧ Plain "CASE") ∧
      sameIgnoringCase w "CASE" = false := by decide
  exact kw_ne_done_of_kw (hall w hw) h

section
variable (hs : Opening s) (hσ : CarriesStatement s n)
include hs hσ

/-- Statements of a block, in front of the word that ends it. -/
theorem carries_body : Carries (Meets s n) (Meets s n) (fun _ => Closes)
    (fun ss tt => Statement.viewAll .unplaced ss = Statement.viewAll .unplaced tt) (many statement)
    (many statement) := by
  refine (hσ.many (G := fun _ => Closes) ?_ (fun _ _ _ h => h) ?_).mono
    (fun _ _ h => h) (fun _ _ h => h) (fun _ _ h => h) fun ss tt h => ?_
  · intro a c as r h hr
    have hreadable : RestReadable s c :=
      restReadable_of_many h (.inr hr) fun _ _ hnil => absurd hnil hr.ne_nil
    refine ⟨hreadable, fun hnil => ?_⟩
    obtain ⟨-, rfl⟩ := many_of_nil hnil h
    exact absurd hnil hr.ne_nil
  · rintro c d hcd hc -
    have hd := hc.joined hs (hcd.joined hc.ne_nil)
    exact Retreats.failed fun a r => hd.statement_ne_done
  · rw [Statement.viewAll_eq_map, Statement.viewAll_eq_map, map_eq_of_forall₂ h]

theorem carries_if : CarriesKind s (n + 1) (ifStatement statement) := by
  have hbody := carries_body hs hσ
  have hstop : Halts (Meets s n) (fun c => ∃ r, kw "ENDIF" c = .done () r)
      (kw "ELSE" *> many statement) (kw "ELSE" *> many statement) :=
    .bind (keeps_kw_meets hs) fun c _ _ ⟨_, h⟩ =>
      kw_ne_done_of_kw (by decide) h
  have helse := Carries.maybe (G := fun _ c => ∃ r, kw "ENDIF" c = .done () r)
    (carries_inner hs hbody) (fun _ c ⟨r, h⟩ => ⟨"ENDIF", by simp [closers], r, h⟩) hstop
  refine carries_leading hs <| (carries_expression hs).bind (fun a b hab => carries_inner hs <|
    hbody.bind (fun ss tt hthen => helse.bind (fun o o' ho => carries_inner hs <|
      .pure fun s t hst => ?_) ?_) ?_) fun _ _ _ _ h _ => follows_of_kw h
  · rw [SameStatement, Statement.view, Statement.view, hst, hab.eq, hthen, getD_eq_of_rel ho]
  · intro _ c _ _ h _
    obtain ⟨_, r, hkw, -⟩ := bind_eq_done.1 h
    exact ⟨r, hkw⟩
  · intro _ c _ _ h _
    exact closes_of_maybe (fun _ _ h => closes_of_kw h)
      (fun _ _ _ h => closes_of_kw h) h

theorem carries_for : CarriesKind s (n + 1) (forStatement statement) := by
  have hdirection : Agrees (Meets s n) (Meets s n)
      ((kw "DOWNTO" *> pure .down) <|> (kw "TO" *> pure .up) : Parser LoopDirection) (· = ·) :=
    .orElse (keeps_word_meets hs) (keeps_word_meets hs)
  refine carries_leading hs <| (carries_ident hs).andThen fun x y hxy =>
    .pass (keeps_op_meets hs) <| (carries_expression hs).bind (fun a b hab =>
      (Carries.of_keeps hdirection).andThen fun o o' ho => (carries_expression hs).bind
        (fun a' b' hab' => carries_inner hs <| (carries_body hs hσ).bind
          (fun ss tt hbody => carries_inner hs <| .pure fun s t hst => ?_)
          fun _ _ _ _ h _ => closes_of_kw h) fun _ _ _ _ h _ => follows_of_kw h) ?_
  · rw [SameStatement, Statement.view, Statement.view, hst, hxy, hab.eq, ho, hab'.eq, hbody]
  · intro _ c _ _ h _
    obtain ⟨_, _, hdirection, -⟩ := bind_eq_done.1 h
    rcases orElse_eq_done hdirection with h | h <;> exact follows_of_kw h

theorem carries_while : CarriesKind s (n + 1) (whileStatement statement) := by
  refine carries_leading hs <| (carries_expression hs).bind (fun a b hab => carries_inner hs <|
    (carries_body hs hσ).bind (fun ss tt hbody => carries_inner hs <|
      .pure fun s t hst => ?_) fun _ _ _ _ h _ => closes_of_kw h) fun _ _ _ _ h _ => follows_of_kw h
  rw [SameStatement, Statement.view, Statement.view, hst, hab.eq, hbody]

theorem carries_repeat : CarriesKind s (n + 1) (repeatStatement statement) := by
  refine carries_leading hs <| (carries_body hs hσ).bind (fun ss tt hbody =>
    carries_inner hs <| (carries_expression hs).map (fun _ _ ⟨_, hapart⟩ => hapart.follows id)
      fun a b hab s t hst => ?_) fun _ _ _ _ h _ => closes_of_kw h
  rw [SameStatement, Statement.view, Statement.view, hst, hab.eq, hbody]

theorem carries_case : Carries (Meets s n) (Meets s n) (fun _ => Closes)
    (fun a b => a.view .unplaced = b.view .unplaced) (selectCase statement)
    (selectCase statement) := by
  have hvalues := carries_items1 (n := n) hs (carries_expression hs) (x := ')') (by decide)
  refine carries_inner hs <| carries_paren hs <| hvalues.bind (fun as bs habs =>
    carries_mark hs <| carries_mark hs <| (carries_body hs hσ).map (fun _ _ h => h)
      fun ss tt hbody => ?_) fun _ _ _ _ h _ => head?_of_bind (fun _ _ => head?_of_punct) h
  rw [SelectCase.view, SelectCase.view, map_eq_of_forall₂ habs, hbody]

theorem carries_cases : Carries (Meets s n) (Meets s n) (fun _ => CasesOver)
    (List.Forall₂ fun a b => a.view .unplaced = b.view .unplaced) (many1 (selectCase statement))
    (many1 (selectCase statement)) := by
  have hcase := carries_case hs hσ
  have hcloses {as : List (SelectCase Statement)} {c r : Cursor}
      (h : many (selectCase statement) c = .done as r) (hr : CasesOver r) : Closes c :=
    of_many (fun _ _ _ h => closes_of_kw h) (fun _ h => h.closes) h hr
  have hcases := hcase.many (G := fun _ => CasesOver)
    (fun _ _ _ _ h hr => hcloses h hr) (fun _ _ _ h => h)
    (.bind (keeps_kw_meets hs) fun _ _ _ h => h.kw_ne_done)
  refine hcase.bind (fun a b hab => hcases.map (fun _ _ h => h) fun as bs habs =>
    .cons hab habs) fun _ c _ _ h hr => ?_
  obtain ⟨as, _, hmany, hpure⟩ := bind_eq_done.1 h
  cases hpure
  exact hcloses hmany hr

theorem carries_select : CarriesKind s (n + 1) (selectStatement statement) := by
  have hmark : Agrees (Meets s n) (Meets s n) (kw "ELSE" *> punct ':') fun _ _ => True :=
    .seqRight (keeps_kw_meets hs) (keeps_punct_meets hs)
  have hstop : Halts (Meets s n) (fun c => ∃ r, kw "ENDSELECT" c = .done () r)
      (kw "ELSE" *> punct ':' *> many statement) (kw "ELSE" *> punct ':' *> many statement) := by
    refine .bind hmark ?_
    rintro c _ _ ⟨_, h⟩ hmark
    obtain ⟨_, _, helse, -⟩ := seqRight_eq_done.1 hmark
    exact kw_ne_done_of_kw (by decide) h helse
  have helse := Carries.maybe (G := fun _ c => ∃ r, kw "ENDSELECT" c = .done () r)
    (.pass hmark (carries_body hs hσ))
    (fun _ c ⟨r, h⟩ => ⟨"ENDSELECT", by simp [closers], r, h⟩) hstop
  refine carries_leading hs <| (carries_expression hs).bind (fun a b hab => carries_inner hs <|
    (carries_cases hs hσ).bind (fun ks ks' hks => helse.bind (fun o o' ho =>
      carries_inner hs <| .pure fun s t hst => ?_) ?_) ?_) fun _ _ _ _ h _ => follows_of_kw h
  · rw [SameStatement, Statement.view, Statement.view, hst, hab.eq, Statement.viewCases_eq_map,
      Statement.viewCases_eq_map, map_eq_of_forall₂ hks, Statement.viewElse_eq_map,
      Statement.viewElse_eq_map, map_eq_of_rel ho]
  · intro _ c _ _ h _
    obtain ⟨_, r, hkw, -⟩ := bind_eq_done.1 h
    exact ⟨r, hkw⟩
  · intro _ c _ _ h _
    obtain ⟨o, c₁, hmaybe, hrest⟩ := bind_eq_done.1 h
    rcases maybe_eq_done hmaybe with ⟨y, -, hy⟩ | ⟨rfl, rfl⟩
    · obtain ⟨_, _, hmark, -⟩ := seqRight_eq_done.1 hy
      obtain ⟨_, r, helse, -⟩ := seqRight_eq_done.1 hmark
      exact ⟨"ELSE", by simp, r, helse⟩
    · obtain ⟨_, r, hkw, -⟩ := bind_eq_done.1 hrest
      exact ⟨"ENDSELECT", by simp, r, hkw⟩

end

end RobotSource.Karel.Grammar
