import RobotSource.Proofs.Karel.Grammar.Joining
/-!
# Karel expressions with a line behind them

An expression is read as far as it goes. If another line stands behind the text, it goes no further
than before, unless that line begins with a bracket that can be taken for a suffix (`Detached`).
Within a text, what follows an expression stops it already (`Follows`), and most of what may follow
would have been a suffix if it could.
-/

namespace RobotSource.Karel.Grammar

open Parsing Parsing.Parser Text List

variable {α β : Type} {c c' d d' r : Cursor} {s t u : List Char} {n : Nat}
variable {p : Parser α} {x : Char}

/-! ## What may follow an expression -/

/-- The text does not go on with a suffix: neither with a parenthesis, nor with a bracket, unless it
encloses a reserved word. -/
def Detached (t : List Char) : Prop :=
  t.head? ≠ some '(' ∧ (t.head? = some '[' →
    isReserved (leadingWord t.tail) = true ∧ (t.tail.dropWhile isNameChar).head? = some ']')

instance (t : List Char) : Decidable (Detached t) := inferInstanceAs (Decidable (_ ∧ _))

theorem Detached.of_head? (hparen : t.head? ≠ some '(') (hbracket : t.head? ≠ some '[') :
    Detached t :=
  ⟨hparen, fun h => absurd h hbracket⟩

/-- A word up to a closing bracket is not touched by what stands further on. -/
theorem word_append (h : (t.dropWhile isNameChar).head? = some ']') :
    leadingWord (t ++ u) = leadingWord t ∧
      ((t ++ u).dropWhile isNameChar).head? = some ']' := by
  have hall : ∀ y ∈ t.takeWhile isNameChar, isNameChar y :=
    fun y hy => all_eq_true.1 all_takeWhile y hy
  cases hdrop : t.dropWhile isNameChar with
  | nil => simp [hdrop] at h
  | cons y w =>
    obtain rfl : y = ']' := by simpa [hdrop] using h
    have hsplit : t ++ u = t.takeWhile isNameChar ++ (']' :: (w ++ u)) := by
      conv_lhs => rw [← takeWhile_append_dropWhile (p := isNameChar) (l := t), hdrop,
        append_assoc, cons_append]
    rw [leadingWord, leadingWord, hsplit, takeWhile_append_of_head? hall rfl,
      dropWhile_append_of_head? hall rfl]
    exact ⟨rfl, rfl⟩

theorem Detached.append (h : Detached t) (hne : t ≠ []) : Detached (t ++ u) := by
  obtain ⟨x, v, rfl⟩ := exists_cons_of_ne_nil hne
  refine ⟨h.1, fun hx => ?_⟩
  obtain ⟨hreserved, hclose⟩ := h.2 hx
  obtain ⟨hword, hclose'⟩ := word_append (u := u) hclose
  exact ⟨(congrArg isReserved hword).trans hreserved, hclose'⟩

/-- What follows an expression on the left: nothing, where the line behind it is detached, or
something that is detached, or a statement. -/
inductive Follows (s : List Char) (c : Cursor) : Prop
  | ended (h : c.rest = []) (hs : Detached s)
  | detached (h : c.rest ≠ []) (hc : Detached c.rest)
  | statement {a : Statement} {r : Cursor} (h : statement c = .done a r)

theorem Follows.of_done {a : α} {bs : List Char} (hp : ∀ x, NoneOf bs x → FailsAt x p)
    (h : p c = .done a r)
    (hbs : ∀ x ∈ [none, some '(', some '['], NoneOf bs x) : Follows s c := by
  have hne {x : Option Char} (hx : x ∈ [none, some '(', some '[']) : c.rest.head? ≠ x :=
    fun hhead => (hp x (hbs x hx)).ne_done hhead h
  refine .detached (fun hnil => hne (x := none) (by simp) (by rw [hnil]; rfl)) (.of_head? ?_ ?_)
  · exact hne (by simp)
  · exact hne (by simp)

theorem Follows.of_head? (h : c.rest.head? = some x)
    (hx : x ∉ ['(', '[']) : Follows s c := by
  obtain ⟨hparen, hbracket⟩ : x ≠ '(' ∧ x ≠ '[' := by simpa using hx
  refine .detached (fun hnil => by simp [hnil] at h) (.of_head? ?_ ?_)
  · rw [h]
    simpa using hparen
  · rw [h]
    simpa using hbracket

theorem Follows.of_kw {w : String} (hw : Plain w) (h : kw w c = .done () r) : Follows s c := by
  have hstart := start_of_same (kw_eq_word h hw).1 hw
  cases hx : c.rest.head? with
  | none => simp [hx] at hstart
  | some x =>
    rw [hx, Option.any_some] at hstart
    refine .of_head? hx fun hmem => ?_
    have hall : ∀ x ∈ ['(', '['], isNameStart x = false := by decide
    rw [hall x hmem] at hstart
    cases hstart

/-- Where a statement begins and an expression goes no further, no suffix stands: parentheses and
brackets would have been taken for one. -/
theorem detached_of_statement {f : Failure} {a : Statement} (h : statement c = .done a r)
    (hfailed : suffix expression c = .failed f) : Detached c.rest := by
  rcases ledBy_statement c a r h with ⟨w, hw, hsame⟩ | hstart
  · have hhead := start_of_same hsame (plain_of_mem_openers hw)
    refine .of_head? ?_ ?_ <;>
      · intro heq
        rw [heq] at hhead
        cases hhead
  cases hrest : c.rest with
  | nil => exact absurd hrest hstart.ne_nil
  | cons x t =>
    by_cases hparen : x = '('
    · subst hparen
      have hhead : c.rest.head? = some '(' := by rw [hrest]; rfl
      obtain ⟨build, hassign⟩ := assignment_of_paren h hhead
      obtain ⟨_, _, hreference, -⟩ := bind_eq_done.1 hassign
      obtain ⟨_, _, hoperand, -⟩ := bind_eq_done.1 hreference
      obtain ⟨c₀, e₀, r₀, t', hc₀, hinner, hr₀, -⟩ := enclosed_of_operand hoperand hrest
      obtain ⟨b, r', hlist, -⟩ := argumentList_of_enclosed hrest hc₀ hinner hr₀
      rw [(suffix_eq_argumentList hhead).2 hlist] at hfailed
      cases hfailed
    by_cases hbracket : x = '['
    · subst hbracket
      rw [hrest] at hstart
      cases hstart with
      | digit hx => cases hx
      | word hx _ => cases hx
      | @bracket u y v hu hy =>
        obtain ⟨hword, hclose⟩ := word_of_named (t := y :: v) hu
        refine ⟨by simp, fun _ => ⟨?_, by rw [tail_cons, hclose]; rfl⟩⟩
        rw [tail_cons, hword]
        by_contra hreserved
        obtain ⟨b, r', hsuffix, -⟩ := suffix_of_bracket hu (Bool.eq_false_iff.2 hreserved) hrest
        rw [hsuffix] at hfailed
        cases hfailed
    · exact .of_head? (by simpa using hparen) (by simpa using hbracket)

theorem ne_nil_of_statement {a : Statement} (h : statement c = .done a r) : c.rest ≠ [] :=
  ledBy_statement.ne_nil (fun _ => plain_of_mem_openers) h

/-- Behind an expression that goes no further, the rest is detached. -/
theorem Follows.detached_of_failed {f : Failure} (h : Follows s c)
    (hfailed : suffix expression c = .failed f) :
    c.rest = [] ∧ Detached s ∨ c.rest ≠ [] ∧ Detached c.rest := by
  cases h with
  | ended h hs => exact .inl ⟨h, hs⟩
  | detached h hc => exact .inr ⟨h, hc⟩
  | statement h => exact .inr ⟨ne_nil_of_statement h, detached_of_statement h hfailed⟩

/-- No suffix is read where the text is detached. -/
theorem suffix_ne_done_of_detached {build : Span → Expr → Expr} (hd : Detached d.rest)
    (hfield : ∀ w r, fieldName d ≠ .done w r) : suffix expression d ≠ .done build r := by
  intro h
  by_cases hbracket : d.rest.head? = some '['
  · obtain ⟨t, ht⟩ := head?_eq_some_iff.1 hbracket
    obtain ⟨hreserved, hclose⟩ := hd.2 hbracket
    rw [ht] at hreserved hclose
    exact suffix_ne_done_of_reserved ht hreserved hclose h
  · rw [suffix_eq] at h
    rcases orElse_eq_done h with h | h
    · exact ((failsAt_punct hbracket).bind (f := _)).ne_done rfl h
    rcases orElse_eq_done h with h | h
    · obtain ⟨w, r', hname, -⟩ := bind_eq_done.1 h
      exact hfield w r' hname
    · exact ((failsAt_punct hd.1).bind (f := _)).ne_done rfl h

/-! ## Operands -/

/-- No statement begins with a field: behind the point a number goes on. -/
theorem Opening.fieldName_failed (hs : Opening s) (hd : d.rest = s) :
    ∃ f, fieldName d = .failed f := by
  by_cases hpoint : d.rest.head? = some '.'
  · subst hd
    obtain ⟨x, v, hrest, hx⟩ : ∃ x v, d.rest = '.' :: x :: v ∧ x.isDigit := by
      generalize d.rest = t at hs hpoint
      rcases hs with rfl | ⟨w, hw, hsame⟩ | hstart
      · cases hpoint
      · have hstart := start_of_same hsame (plain_of_mem_openers hw)
        rw [hpoint] at hstart
        cases hstart
      · cases hstart <;> cases hpoint
        · rename_i hx
          cases hx
        · exact ⟨_, _, rfl, ‹_›⟩
        · rename_i hx _
          cases hx
    exact fieldName_failed hrest hx
  · exact (FailsAt.char hpoint).bind d rfl

theorem keeps_fieldName_meets (hs : Opening s) :
    Agrees (Meets s n) (Joined s n) fieldName (· = ·) :=
  keeps_meets (keeps_token_joined (local_fieldName margin_lineOver))
    (FailsAt.char (by decide)).bind fun _ hd => hs.fieldName_failed hd

/-- An expression that goes no further on the left does not go further on the right. -/
theorem halts_suffix (hs : Opening s) :
    Halts (Meets s n) (Follows s) (suffix expression) (suffix expression) := by
  rintro c d hcd hfollows ⟨f, hfailed⟩
  have hfield : ∀ w r, fieldName d ≠ .done w r := by
    have hleft : ∃ f, fieldName c = .failed f := by
      refine Retreats.failed fun w r h => ?_
      have hsubscript : FailsAt (some '.') (subscript expression) := (failsAt_punct (by decide)).bind
      have hhead : c.rest.head? = some '.' := by
        exact head?_of_bind (fun _ _ => head?_of_char) h
      have hdone : suffix expression c = .done (fun span base => .field span base w) r := by
        rw [suffix_eq, hsubscript.orElse_right_iff hhead]
        exact orElse_of_done (bind_of_done h rfl)
      rw [hdone] at hfailed
      cases hfailed
    obtain ⟨f', hright⟩ :=
      Halts.of_keeps (K := fun _ => True) (keeps_fieldName_meets hs) c d hcd trivial hleft
    intro w r h
    rw [hright] at h
    cases h
  have hd : Detached d.rest := by
    rcases hfollows.detached_of_failed hfailed with ⟨hnil, hs⟩ | ⟨hne, hc⟩
    · rcases hcd with ⟨hne, -⟩ | ⟨-, hd⟩
      · exact absurd hnil hne
      · rwa [hd]
    · rw [(hcd.joined hne).rest]
      exact hc.append hne
  exact Retreats.failed fun build r => suffix_ne_done_of_detached hd hfield

/-! ## Tokens -/

theorem keeps_atom_joined :
    Agrees (Joined s n) (Joined s n) atom (Lexis.SameBuild .unplaced .unplaced) := by
  have hword {w : String} (hw : Plain w) (b : Bool) : Agrees (Joined s n) (Joined s n)
      (keyword w *> (pure b : Parser Bool)) (· = ·) :=
    (keeps_keyword_joined hw).seqRight_pure b
  have hboolean : Agrees (Joined s n) (Joined s n) boolean (· = ·) :=
    (hword (by decide) _).orElse <| (hword (by decide) _).orElse <| (hword (by decide) _).orElse
      (hword (by decide) _)
  have hbuild {α : Type} {p : Parser α} (build : Span → α → Expr)
      (h : Agrees (Joined s n) (Joined s n) p (· = ·))
      (hview : ∀ s t a, SameExpr .unplaced .unplaced (build s a) (build t a)) :
      Agrees (Joined s n) (Joined s n) (do let a ← p; return fun span => build span a)
        (Lexis.SameBuild .unplaced .unplaced) :=
    h.bind fun a b hab => .pure fun s t _ => hab ▸ hview s t a
  exact (hbuild .number (keeps_token_joined (local_number margin_lineOver))
      fun _ _ _ => rfl).orElse <|
    (hbuild .string (keeps_token_joined (local_stringLiteral encloses_lineOver (by decide)))
      fun _ _ _ => rfl).orElse <|
    (hbuild .system (keeps_token_joined (local_systemName margin_lineOver))
      fun _ _ _ => rfl).orElse <|
    (hbuild (fun span (x : String × String) => .programVariable span x.1 x.2)
      (keeps_token_joined (local_programVariable margin_lineOver)) fun _ _ _ => rfl).orElse <|
    (hbuild .boolean hboolean fun _ _ _ => rfl).orElse
    (hbuild .identifier (keeps_token_joined (local_name margin_lineOver.toDelimits))
      fun _ _ _ => rfl)

/-- What is read with the span of its code. -/
theorem carries_coded {S T : Cursor → Cursor → Prop} {F : α → Cursor → Prop} {V : α → β → Prop}
    {q : Parser β} (h : Carries S T F V p q) :
    Carries S T (fun x => F x.1) (fun x y => V x.1 y.1) (coded p) (coded q) := by
  intro c d x c' hcd hdone hc'
  obtain ⟨a, hp, rfl⟩ := coded_eq_done hdone
  obtain ⟨b, d', hq, hab, hcd'⟩ := h c d a c' hcd hp hc'
  exact ⟨(b, _), d', by rw [coded, hq], hab, hcd'⟩

/-- What closes a bracket is read, and the text in front of the bracket was longer. -/
theorem carries_close {F : Char → Cursor → Prop} (hx : x ∈ tokenMarks) :
    Carries (Meets s n) (Joined s (n + 1)) F (· = ·) (char x) (char x) := by
  refine (carries_meets (.of_keeps (keeps_token_joined (margin_lineOver.char hx)))
    fun c a r h => ?_).mono (fun _ _ h => h) (fun _ _ h => ⟨h.length_le.trans (Nat.le_succ n), h.rest⟩)
    (fun _ _ h => h) fun _ _ h => h
  rw [(passes_char h).rest]
  exact cons_ne_nil _ _

theorem carries_blanks (hs : Opening s) {F : Unit → Cursor → Prop} :
    Carries (Joined s n) (Meets s n) F (fun _ _ => True) blanks blanks :=
  .of_keeps (keeps_blanks_joined hs.skip_eq)

/-! ## Operands -/

/-- An expression is carried over by the rule. -/
abbrev CarriesExpr (s : List Char) (n : Nat) (p : Parser Expr) : Prop :=
  Carries (Meets s n) (Meets s n) (fun _ => Follows s) (SameExpr .unplaced .unplaced) p p

section
variable (hs : Opening s) (he : CarriesExpr s n expression)
include hs he

theorem carries_leaf : Carries (Joined s (n + 1)) (Joined s (n + 1)) (fun _ _ => True)
    (Lexis.SameBuild .unplaced .unplaced) (leaf expression) (leaf expression) := by
  have hopen : Agrees (Joined s (n + 1)) (Meets s n) (op "(") fun _ _ => True :=
    keeps_shorter (keeps_op_joined hs (by decide))
  rw [leaf]
  refine .orElse ?_ (.of_keeps keeps_atom_joined) (.bind hopen ?_)
  · refine .pass hopen <| he.bind (fun a b hab =>
      (carries_close (by decide)).andThen fun _ _ _ => .pure fun _ _ _ => ?_) fun _ c _ _ h _ => ?_
    · rw [SameExpr, Expr.view, Expr.view, hab.eq]
      rfl
    · exact .of_head? (head?_of_bind (fun _ _ => head?_of_char) h) (by decide)
  · rintro c _ _ ⟨_, _, hatom, -⟩ hparen
    exact failsAt_atom.ne_done (head?_of_op hparen (by decide)) hatom

theorem carries_operand : Carries (Meets s (n + 1)) (Meets s (n + 1)) (fun _ _ => True)
    (SameExpr .unplaced .unplaced) (operand expression) (operand expression) := by
  refine carries_meets ?_ fun c a r h => (startsOperand_of_operand h).ne_nil
  rw [operand_eq]
  have hlexeme : Carries (Joined s (n + 1)) (Meets s (n + 1)) (fun _ _ => True)
      (fun x y => Lexis.SameBuild .unplaced .unplaced x.1 y.1) (lexeme (leaf expression))
      (lexeme (leaf expression)) :=
    (carries_coded (carries_leaf hs he)).andThen fun _ _ hxy =>
      (carries_blanks hs).andThen fun _ _ _ => .pure hxy
  exact hlexeme.andThen fun _ _ hxy => .pure (hxy _ _ rfl)

end

/-! ## Suffixes -/

theorem comma_ne_done {y : Unit} (hx : x ≠ ',') (hc : c.rest.head? = some x) :
    punct ',' c ≠ .done y r := by
  intro h
  rw [head?_of_punct h] at hc
  exact hx (Option.some_inj.1 hc).symm

/-- The character ends a list of expressions. -/
abbrev EndsList (x : Char) : Prop := Shut (some x) ∧ x ∉ ['(', '[', ',']

section
variable (hs : Opening s) (he : CarriesExpr s n expression)
include hs he

theorem carries_items1 (hx : EndsList x) : Carries (Meets s n) (Meets s n)
    (fun _ c => c.rest.head? = some x) (List.Forall₂ (SameExpr .unplaced .unplaced))
    (sepBy1 (punct ',') expression) (sepBy1 (punct ',') expression) := by
  obtain ⟨hbrackets, hcomma⟩ : x ∉ ['(', '['] ∧ x ≠ ',' := by simpa [and_assoc] using hx.2
  exact he.sepBy1 (keeps_punct_meets hs) (fun _ _ _ h => .of_head? (head?_of_punct h) (by decide))
    (fun _ h => .of_head? h hbrackets) fun _ _ _ h => comma_ne_done hcomma h

theorem carries_items (hx : EndsList x) : Carries (Meets s n) (Meets s n)
    (fun _ c => c.rest.head? = some x) (List.Forall₂ (SameExpr .unplaced .unplaced))
    (sepBy (punct ',') expression) (sepBy (punct ',') expression) := by
  obtain ⟨hbrackets, hcomma⟩ : x ∉ ['(', '['] ∧ x ≠ ',' := by simpa [and_assoc] using hx.2
  refine he.sepBy (keeps_punct_meets hs) (fun _ _ _ h => .of_head? (head?_of_punct h) (by decide))
    (fun _ h => .of_head? h hbrackets) (fun _ _ _ h => comma_ne_done hcomma h) ?_
  rintro c d hcd hc -
  exact failsAt_expression hx.1 d (hcd.head? hc)

omit he in
/-- Items in brackets are carried over, and so is what is made of them. -/
theorem carries_bracketed {y : Char} {items : Parser (List Expr)}
    {build : List Expr → Span → Expr → Expr} (hx : x ∈ tokenMarks) (hy : y ∈ tokenMarks)
    (h : Carries (Meets s n) (Meets s n) (fun _ c => c.rest.head? = some y)
      (List.Forall₂ (SameExpr .unplaced .unplaced)) items items)
    (hbuild : ∀ is is', List.Forall₂ (SameExpr .unplaced .unplaced) is is' →
      Lexis.SameSuffix .unplaced .unplaced (build is) (build is')) :
    Carries (Joined s (n + 1)) (Joined s (n + 1)) (fun _ _ => True)
      (Lexis.SameSuffix .unplaced .unplaced)
      (do punct x; let is ← items; let _ ← char y; return build is)
      (do punct x; let is ← items; let _ ← char y; return build is) :=
  .pass (keeps_shorter (keeps_punct_joined hs hx)) <| h.bind
    (fun is is' his => (carries_close hy).andThen fun _ _ _ => .pure (hbuild is is' his))
    fun _ _ _ _ h _ => head?_of_bind (fun _ _ => head?_of_char) h

theorem carries_argumentList : Carries (Joined s (n + 1)) (Joined s (n + 1)) (fun _ _ => True)
    (Lexis.SameSuffix .unplaced .unplaced) (argumentList expression) (argumentList expression) :=
  carries_bracketed hs (by decide) (by decide) (carries_items hs he (by decide))
    fun _ _ his _ _ _ _ _ hab => by
      rw [SameExpr, Expr.view, Expr.view, hab.eq, Expr.viewAll_eq_map, Expr.viewAll_eq_map,
        map_eq_of_forall₂ his]
      rfl

theorem carries_suffix : Carries (Meets s (n + 1)) (Joined s (n + 1)) (fun _ _ => True)
    (Lexis.SameSuffix .unplaced .unplaced) (suffix expression) (suffix expression) := by
  refine carries_meets ?_ fun c a r h => ne_nil_of_done h
  rw [suffix_eq]
  have hsubscript : Carries (Joined s (n + 1)) (Joined s (n + 1)) (fun _ _ => True)
      (Lexis.SameSuffix .unplaced .unplaced) (subscript expression) (subscript expression) :=
    carries_bracketed hs (by decide) (by decide) (carries_items1 hs he (by decide))
      fun _ _ his _ _ _ _ _ hab => by
        rw [SameExpr, Expr.view, Expr.view, hab.eq, Expr.viewAll_eq_map, Expr.viewAll_eq_map,
          map_eq_of_forall₂ his]
        rfl
  have hselection : Agrees (Joined s (n + 1)) (Joined s (n + 1)) selection
      (Lexis.SameSuffix .unplaced .unplaced) :=
    (keeps_token_joined (local_fieldName margin_lineOver)).bind fun f g hfg =>
      .pure fun s t a b _ hab => by
        rw [SameExpr, Expr.view, Expr.view, hab.eq, hfg]
        rfl
  refine hsubscript.orElse ((Carries.of_keeps hselection).orElse (carries_argumentList hs he)
    (.of_keeps hselection))
    (.bind (keeps_punct_joined hs (by decide)) ?_)
  rintro c _ _ ⟨_, _, hothers, -⟩ hopen
  have hfails : FailsAt (some '[') (selection <|> argumentList expression) :=
    ((FailsAt.char (by decide)).bind.bind).orElse (failsAt_punct (by decide)).bind
  exact hfails.ne_done (head?_of_punct hopen) hothers

end

/-- What is followed by white space fails where it does itself. -/
theorem halts_spanned {S : Cursor → Cursor → Prop} {K : Cursor → Prop} {q : Parser β}
    (h : Halts S K p q) : Halts S K (do let x ← spanned p; blanks; return x)
      (do let x ← spanned q; blanks; return x) := by
  rintro c d hcd hc ⟨f, hfailed⟩
  have hp : ∃ f, p c = .failed f := by
    rw [bind_apply, spanned, noticingEnd, bind_apply, position] at hfailed
    cases hp : p c with
    | failed f => exact ⟨f, rfl⟩
    | done a r =>
      simp only [bind_apply, hp] at hfailed
      cases hfailed
    | aborted f =>
      simp only [bind_apply, hp] at hfailed
      cases hfailed
  obtain ⟨f', hq⟩ := h c d hcd hc hp
  refine ⟨f'.noticeEnd, ?_⟩
  rw [bind_apply, spanned, noticingEnd, bind_apply, position]
  simp only [bind_apply, hq]

section
variable (hs : Opening s) (he : CarriesExpr s n expression)
include hs he

theorem carries_reference : CarriesExpr s (n + 1) (reference expression) := by
  have hitem : Carries (Meets s (n + 1)) (Meets s (n + 1)) (fun _ _ => True)
      (fun x y => Lexis.SameSuffix .unplaced .unplaced x.1 y.1)
      (do let x ← spanned (suffix expression); blanks; return x)
      (do let x ← spanned (suffix expression); blanks; return x) :=
    (carries_suffix hs he).spanned.andThen fun _ _ hxy =>
      (carries_blanks hs).andThen fun _ _ _ => .pure hxy
  have hitems := hitem.many (G := fun _ => Follows s) (fun _ _ _ _ _ _ => trivial)
    (fun _ _ _ h => h) (halts_spanned (halts_suffix hs))
  exact (carries_operand hs he).andThen fun a b hab => hitems.map (fun _ _ h => h)
    fun ss ss' hss => hab.suffixes (hss.imp fun _ _ h => ⟨h, rfl⟩)

/-! ## Operators -/

theorem carries_negation : CarriesExpr s (n + 1) (negation expression) := by
  have hnot : Agrees (Meets s (n + 1)) (Meets s (n + 1))
      (do let start ← position; kw "NOT"; return start) fun _ _ => True :=
    .position_bind (P := fun _ _ => True) (fun _ _ _ _ => trivial) fun _ _ =>
      (keeps_kw_meets hs).bind fun _ _ _ => .pure fun _ => trivial
  refine (Carries.of_keeps hnot.many).andThen fun ss ss' hss =>
    (carries_reference hs he).map (fun _ _ h => h) fun a b hab => ?_
  induction hss with
  | nil => exact hab
  | cons hst _ ih => exact ih.unary .not rfl

theorem carries_product : CarriesExpr s (n + 1) (product expression) :=
  (carries_negation hs he).chainLeft (keeps_productOp_meets hs)
    (fun _ _ _ h => .of_done (fun _ => failsAt_productOp) h (by decide))
    fun _ _ ha _ _ hop _ _ hb => ha.join hop hb

theorem carries_signed : CarriesExpr s (n + 1) (signed expression) := by
  refine .position_bind fun _ _ => (Carries.of_keeps
    ((keeps_sign_meets hs).maybe)).andThen fun o o' ho => ?_
  cases ho with
  | none => exact carries_product hs he
  | some hop =>
    obtain rfl := hop
    exact (carries_product hs he).map (fun _ _ h => h) fun a b hab => hab.unary _ rfl

theorem carries_sum : CarriesExpr s (n + 1) (sum expression) :=
  (carries_signed hs he).chainLeft (keeps_sumOp_meets hs)
    (fun _ _ _ h => .of_done (fun _ => failsAt_sumOp) h (by decide))
    fun _ _ ha _ _ hop _ _ hb => ha.join hop hb

theorem carries_relation : CarriesExpr s (n + 1) (relation expression) := by
  refine (carries_sum hs he).bind (fun a b hab => (Carries.of_keeps
    ((keeps_relationOp_meets hs).maybe)).andThen fun o o' ho => ?_) ?_
  · cases ho with
    | none => exact .pure hab
    | some hop =>
      exact (carries_sum hs he).map (fun _ _ h => h) fun a' b' hab' => hab.join hop hab'
  · intro a c x r h hr
    obtain ⟨o, c₁, hrel, hright⟩ := bind_eq_done.1 h
    rcases maybe_eq_done hrel with ⟨rel, -, hrel⟩ | ⟨rfl, rfl⟩
    · exact .of_done (fun _ => failsAt_relationOp) hrel (by decide)
    · cases hright
      exact hr

end

/-- **An expression is read alike in front of another line**, if what follows it keeps it from going
on. -/
theorem carries_expression (hs : Opening s) : CarriesExpr s n expression := by
  induction n with
  | zero =>
    intro c d a r hcd h
    exact absurd (length_eq_zero_iff.1 (Nat.le_zero.1 hcd.length_le)) (ne_nil_of_done h)
  | succ n ih =>
    have hrelation := carries_relation hs ih
    rwa [← expression_eq] at hrelation

end RobotSource.Karel.Grammar
