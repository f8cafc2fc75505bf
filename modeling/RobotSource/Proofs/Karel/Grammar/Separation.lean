import RobotSource.Proofs.Karel.Grammar.Blocks
/-!
# Karel statements on separate lines

A line break is white space to the grammar, and no mark ends a statement. Two texts of statements
are still read as the statements of both when the second one follows on a new line, unless the last
statement of the first text goes on there. The alternatives are taken over one by one
(`CarriesKind`). Where one of them is not read on the left, it must not be read on the right: a
statement with a reserved word of its own cannot be (`Turn`), and what may begin with a name would
have been read on the left already.
-/

namespace RobotSource.Karel.Grammar

open Parsing Parsing.Parser Text List

variable {α β : Type} {c c' d d' r : Cursor} {s t u : List Char} {n : Nat} {a : Statement}
variable {es : List Expr} {w : String} {ws : List String} {c₁ c₂ : Cursor} {as : List Statement}

/-! ## Simple statements -/

/-- Where something has been read, the text was not at its end. -/
theorem carries_joined {p : Parser α} {q : Parser β} {T : Cursor → Cursor → Prop}
    {F : α → Cursor → Prop} {V : α → β → Prop} (h : Carries (Meets s n) T F V p q)
    (hne : ∀ c a r, p c = .done a r → c.rest ≠ []) : Carries (Joined s n) T F V p q :=
  fun c d a c' hcd hp hc' => h c d a c' (.inl ⟨hne c a c' hp, hcd⟩) hp hc'

/-- Where no parenthesis opens on the left, none opens on the right. -/
theorem EndsApart.head?_ne (h : EndsApart s a c) (hcd : Meets s n c d)
    (hc : c.rest.head? ≠ some '(') (ha : Separate a s → s.head? ≠ some '(') :
    d.rest.head? ≠ some '(' := by
  rcases hcd with ⟨hne, hcd⟩ | ⟨hnil, hd⟩
  · rwa [hcd.head?_eq hne]
  · rw [hd]
    exact ha (h.separate hnil)

/-- What `RETURN` yields. -/
def returnValue : Parser Expr := do
  punct '('
  let value ← expression
  punct ')'
  return value

theorem Enclosed.returnValue (h : Enclosed c) : ∃ e r, returnValue c = .done e r := by
  obtain ⟨t, c₀, e, r₀, t', hrest, hc₀, hinner, hr₀⟩ := h
  obtain ⟨c₁, hopen, hc₁⟩ := reaches_punct hrest
  obtain ⟨e', r₁, hread, hr₁⟩ := exists_done_of_sameRest lexis_sameRest.expression
    (hc₀.trans hc₁.symm) hinner
  obtain ⟨r₂, hclose, -⟩ := reaches_punct (hr₁.trans hr₀)
  exact ⟨e', r₂, bind_of_done hopen <| bind_of_done hread <| bind_of_done hclose rfl⟩

theorem carries_return (hs : Opening s) : CarriesKind s (n + 1) returnStatement := by
  have hvalue : Carries (Meets s n) (Meets s n) (fun _ _ => True) (SameExpr .unplaced .unplaced)
      returnValue returnValue := carries_paren hs <| (carries_expression hs).bind
      (fun a b hab => carries_mark hs <| .pure hab)
      fun _ c _ _ h _ => .of_head? (head?_of_bind (fun _ _ => head?_of_punct) h) (by decide)
  have hstop : Halts (Meets s n) (fun c => ∃ span, EndsApart s (.returnFrom span none) c)
      returnValue returnValue := by
    rintro c d hcd ⟨span, hapart⟩ ⟨f, hfailed⟩
    refine (failsAt_punct (hapart.head?_ne hcd (fun hc => ?_) id)).bind d rfl
    obtain ⟨e, r, hdone⟩ := (hapart.readable.enclosed hc).returnValue
    rw [hdone] at hfailed
    cases hfailed
  refine carries_leading hs <| (hvalue.maybe
    (G := fun o c => ∃ span, EndsApart s (.returnFrom span o) c) (fun _ _ _ => trivial) hstop).map
    (fun _ _ h => h) fun o o' ho s t hst => ?_
  rw [SameStatement, Statement.view, Statement.view, hst, map_eq_of_rel ho]

theorem keeps_go (hs : Opening s) : Agrees (Joined s n) (Meets s n)
    (kw "GOTO" <|> (kw "GO" *> kw "TO")) fun _ _ => True :=
  (keeps_kw_joined hs (by decide)).orElse
    ((keeps_kw_joined hs (by decide)).seqRight (keeps_kw_meets hs))

theorem carries_goto (hs : Opening s) : CarriesKind s (n + 1) gotoStatement := by
  refine .pass (keeps_go hs) <| (carries_ident hs).andThen fun x y hxy =>
    .pure fun s t hst => ?_
  rw [SameStatement, Statement.view, Statement.view, hst, hxy]

theorem carries_delay (hs : Opening s) : CarriesKind s (n + 1) delayStatement := by
  refine carries_leading hs <| (carries_expression hs).map
    (fun _ _ ⟨_, hapart⟩ => hapart.follows id) fun a b hab s t hst => ?_
  rw [SameStatement, Statement.view, Statement.view, hst, hab.eq]

theorem carries_waitFor (hs : Opening s) : CarriesKind s (n + 1) waitForStatement := by
  have hfor : Carries (Meets s n) (Meets s n) (fun _ _ => True) (fun _ _ => True) (kw "FOR")
      (kw "FOR") := by
    refine carries_meets (.of_keeps (keeps_kw_joined hs (by decide))) fun c _ r h hnil => ?_
    have hstart := start_of_same (kw_eq_word h (by decide)).1 (by decide)
    simp [hnil] at hstart
  refine carries_leading hs <| hfor.andThen fun _ _ _ => (carries_expression hs).map
    (fun _ _ ⟨_, hapart⟩ => hapart.follows id) fun a b hab s t hst => ?_
  rw [SameStatement, Statement.view, Statement.view, hst, hab.eq]

/-! ## Arguments -/

/-- The argument is at its end. -/
def EndsArgument (c : Cursor) : Prop := c.rest.head? = some ',' ∨ c.rest.head? = some ')'

theorem EndsArgument.follows (h : EndsArgument c) : Follows s c := by
  rcases h with h | h <;> exact .of_head? h (by decide)

/-- Behind the expression a format stands, or the argument is at its end. -/
theorem follows_of_formats (h : many (op "::" *> sum expression) c = .done es r)
    (hr : EndsArgument r) : Follows s c := by
  refine of_many (fun c x r h => ?_) (fun _ h => h.follows) h hr
  obtain ⟨_, _, hmark, -⟩ := seqRight_eq_done.1 h
  exact .of_head? (head?_of_op (x := ':') hmark (by decide)) (by decide)

theorem carries_argument (hs : Opening s) : Carries (Meets s (n + 1)) (Meets s (n + 1))
    (fun _ => EndsArgument) (SameExpr .unplaced .unplaced) argument argument := by
  have hmark : Agrees (Meets s (n + 1)) (Meets s (n + 1)) (op "::") fun _ _ => True :=
    keeps_op_meets hs
  have hformats := Carries.many (G := fun _ => EndsArgument)
    (.pass hmark <| carries_sum hs (carries_expression hs))
    (fun _ _ _ _ h hr => follows_of_formats h hr) (fun _ _ _ h => h)
    (.bind hmark fun c _ _ hc h => ?_)
  · refine (carries_expression hs).bind (fun a b hab => hformats.map (fun _ _ h => h)
      fun _ _ _ => hab) fun _ c _ _ h hr => ?_
    obtain ⟨_, _, hmany, hpure⟩ := bind_eq_done.1 h
    cases hpure
    exact follows_of_formats hmany hr
  · have hhead := head?_of_op (x := ':') h (by decide)
    rcases hc with hc | hc <;> rw [hc] at hhead <;> cases hhead

theorem carries_arguments (hs : Opening s) : Carries (Meets s (n + 1)) (Meets s (n + 1))
    (fun _ _ => True)
    (fun as bs => as.map (Expr.view .unplaced) = bs.map (Expr.view .unplaced)) arguments arguments := by
  have hitems := (carries_argument hs (n := n)).sepBy (K := fun c => c.rest.head? = some ')')
    (keeps_punct_meets hs) (fun c _ _ h => ?_)
    (fun _ h => .inr h) (fun _ _ _ h => comma_ne_done (by simp) h)
    fun c d hcd hc _ => (failsAt_expression (by decide)).bind d (hcd.head? hc)
  · exact carries_paren hs <| hitems.bind (fun as bs habs =>
      .pass (keeps_op_meets hs) <| .pure (map_eq_of_forall₂ habs))
      fun _ c _ _ h _ => head?_of_bind (fun _ _ h => head?_of_op h (by decide)) h
  · exact .inl (head?_of_punct h)

theorem head?_of_arguments (h : arguments c = .done es r) : c.rest.head? = some '(' :=
  head?_of_bind (fun _ _ => head?_of_punct) h

/-- A name in front of white space. -/
theorem keeps_lexedName (hs : Opening s) : Agrees (Joined s n) (Meets s n) (lexeme name)
    fun x y => x.1 = y.1 := by
  have hcoded : Agrees (Joined s n) (Joined s n) (coded name) fun x y => x.1 = y.1 := by
    intro c d hcd
    rw [coded, coded]
    have hname := keeps_token_joined (local_name margin_lineOver.toDelimits) c d hcd
    generalize name c = o, name d = o' at hname
    cases hname with
    | done heq hrest => exact .done heq hrest
    | failed => exact .failed
    | aborted => exact .aborted
  exact hcoded.bind fun _ _ hxy => (keeps_blanks_joined hs.skip_eq).bind fun _ _ _ => .pure hxy

theorem keeps_verb : Agrees (Joined s n) (Joined s n) (keyword "WRITE" <|> keyword "READ")
    (· = ·) :=
  (keeps_keyword_joined (by decide)).orElse (keeps_keyword_joined (by decide))

theorem carries_transfer (hs : Opening s) :
    CarriesKind s (n + 1) transferStatement := by
  have hfile : Carries (Meets s (n + 1)) (Meets s (n + 1)) (fun _ c => c.rest.head? = some '(')
      (Option.Rel fun x y => x.1 = y.1) (maybe (lexeme name)) (maybe (lexeme name)) := by
    refine Carries.maybe (F := fun _ _ => True) ?_ (fun _ _ _ => trivial)
      fun c d hcd hc _ => failsAt_lexeme (failsAt_name (by decide)) d (hcd.head? hc)
    refine carries_meets (.of_keeps (keeps_lexedName hs)) fun c x r h hnil => ?_
    obtain ⟨_, hname, -⟩ := lexeme_name_eq_done h
    have hstart := (name_eq_word hname).2.1
    simp [hnil] at hstart
  refine .position_bind fun p q => (Carries.of_keeps keeps_verb).andThen
    fun v v' hv => (carries_blanks hs).andThen fun _ _ _ => hfile.bind (fun file file' hfile =>
      (carries_arguments hs).andThen fun es es' hes => .pure fun s t hst => ?_)
    fun _ c _ _ h _ => ?_
  · subst hv
    rw [SameStatement]
    cases hfile with
    | none => simp only [Statement.view, hst.eq, hes]; rfl
    | some hfile =>
      simp only [Statement.view, hst.eq, map_cons, Expr.view, hfile, hes]
      rfl
  · obtain ⟨_, _, harguments, -⟩ := bind_eq_done.1 h
    exact head?_of_arguments harguments

theorem keeps_label (hs : Opening s) : Agrees (Joined s n) (Meets s n) labelStatement
    (SameMaking .unplaced .unplaced) := by
  refine (keeps_token_joined (local_name margin_lineOver.toDelimits)).bind fun x y hxy =>
    keeps_spaces_joined.bind fun _ _ _ => (keeps_op_joined hs (by decide)).bind
      fun _ _ _ => .pure fun s t hst => ?_
  rw [SameStatement, Statement.view, Statement.view, hst, hxy]

theorem carries_assignment (hs : Opening s) : CarriesKind s (n + 1) assignment := by
  have hreference := carries_joined (carries_reference (n := n) hs (carries_expression hs))
    fun c e r h => ne_nil_of_done h
  refine hreference.bind (fun a b hab => .pass (keeps_op_meets hs) <|
    (carries_expression hs).map (fun _ _ ⟨_, hapart⟩ => hapart.follows id)
      fun a' b' hab' s t hst => ?_) fun _ c _ _ h _ =>
    .of_head? (head?_of_bind (x := '=') (fun _ _ h => head?_of_op h (by decide)) h) (by decide)
  rw [SameStatement, Statement.view, Statement.view, hst, hab.eq, hab'.eq]

theorem carries_call (hs : Opening s) : CarriesKind s (n + 1) callStatement := by
  refine (Carries.of_keeps (keeps_lexedName hs)).andThen fun x y hxy =>
    ((carries_arguments hs).maybe
    (G := fun o c => ∃ span, EndsApart s (.call span x.1 x.2 (o.getD [])) c) (fun _ _ _ => trivial)
    fun c d hcd hc hfailed => ?_).map (fun _ _ h => h) fun o o' ho s t hst => ?_
  · obtain ⟨span, hapart⟩ := hc
    obtain ⟨f, hfailed⟩ := hfailed
    refine (failsAt_punct (hapart.head?_ne hcd (fun hc => ?_) fun h =>
      h.1 (by simp [Transfers]))).bind d rfl
    obtain ⟨es, r, harguments⟩ := (hapart.readable.enclosed hc).arguments rfl
    rw [harguments] at hfailed
    cases hfailed
  · rw [SameStatement, Statement.view, Statement.view, hst, hxy, getD_eq_of_rel ho]
    rfl

/-! ## Where alternatives stop -/

/-- A reserved word begins none of the later statements. -/
theorem halts_leading (hs : Opening s) {f f' : Unit → Parser α} {p : Parser α}
    {F : α → Cursor → Prop} (hp : LedBy ws p) (hw : OtherThan ws w) :
    Halts (Joined s n) (fun c => ∃ a r, p c = .done a r ∧ F a r) (kw w >>= f) (kw w >>= f') := by
  refine .bind (keeps_kw_joined hs hw.1) ?_
  rintro c _ r ⟨b, r', hb, -⟩ hkw
  exact hp.ne_done hw (kw_eq_word hkw hw.1).1 hb

/-- A name with nothing or with parentheses behind it, in front of what can be read. -/
theorem RestReadable.of_name (h : RestReadable s c) (hname : name c = .done w c') :
    (skip c'.rest = [] → s.head? ≠ some '(') ∧
      ((skip c'.rest).head? = some '(' → ∀ d : Cursor, d.rest = skip c'.rest →
        ∃ es r, arguments d = .done es r) := by
  obtain ⟨-, hstart, -, hreserved⟩ := name_eq_word hname
  cases h with
  | ended h => simp [h] at hstart
  | closer h =>
    rw [h.isReserved] at hreserved
    cases hreserved
  | @next _ r a h hr hseparate =>
    obtain ⟨build, span, rfl, hwait | htransfer | hnamed⟩ := statement_eq_nameLed h hname
    · -- a letter follows the name
      obtain ⟨_, c₁, hkw, _, _, hfor, -⟩ := bind₂_eq_done.1 hwait
      have hletter := start_of_same (kw_eq_word hfor (by decide)).1 (by decide)
      obtain ⟨_, _, hkeyword, hblanks⟩ := bind_eq_done.1 hkw
      cases hblanks
      have hc₁ : (skip c'.rest).head?.any isNameStart = true :=
        skip_of_keyword hname hkeyword (by decide) ▸ hletter
      refine ⟨fun hnil => by simp [hnil] at hc₁, fun hhead => ?_⟩
      rw [hhead] at hc₁
      cases hc₁
    · obtain ⟨c₁, o, c₂, es, c₃, hc₁, hfile, harguments⟩ := arguments_of_transfer hname htransfer
      rcases maybe_eq_done hfile with ⟨x, -, hx⟩ | ⟨-, rfl⟩
      · obtain ⟨_, hfile, -⟩ := lexeme_name_eq_done hx
        have hletter := (name_eq_word hfile).2.1
        rw [hc₁] at hletter
        refine ⟨fun hnil => by simp [hnil] at hletter, fun hhead => ?_⟩
        rw [hhead] at hletter
        cases hletter
      · refine ⟨fun hnil => ?_, fun hhead d hd => ?_⟩
        · have hhead := head?_of_arguments harguments
          simp [hc₁, hnil] at hhead
        · obtain ⟨es', r', hread, -⟩ := exists_done_of_sameRest
            lexis_sameRest.arguments (hc₁.trans hd.symm) harguments
          exact ⟨es', r', hread⟩
    · refine ⟨fun hnil => ?_, fun hhead d hd =>
        arguments_of_nameLed hname hhead hnamed hr.enclosed hd⟩
      obtain ⟨hrest, ns, rfl⟩ := call_of_name hname (by rw [hnil]; decide) hnamed
      exact (hseparate (hrest.trans hnil)).1 (by simp [Transfers])

/-- The alternatives behind `WAIT FOR`. -/
def wordLed : Parser (Span → Statement) :=
  (kw "ABORT" *> pure .abort) <|> (kw "PAUSE" *> pure .pause) <|> transferStatement <|> nameLed

/-- `WAIT` by itself is a name. -/
theorem nameLed_of_wait {b : Span → Statement} (hwait : kw "WAIT" c = .done () c')
    (h : wordLed c = .done b r) : nameLed c = .done b r := by
  have hother {v : String} {p q : Parser (Span → Statement)}
      (hv : (Plain "WAIT" ∧ Plain v) ∧ sameIgnoringCase "WAIT" v = false)
      (h : (kw v *> p <|> q) c = .done b r) : q c = .done b r := by
    refine (orElse_eq_done h).resolve_left fun h => ?_
    obtain ⟨_, _, hread, -⟩ := seqRight_eq_done.1 h
    exact kw_ne_done_of_kw hv hwait hread
  refine (orElse_eq_done (hother (by decide) (hother (by decide) h))).resolve_left fun h => ?_
  obtain ⟨v, hv, hsame⟩ := transfer_word h
  have hall : ∀ v ∈ ["WRITE", "READ"], sameIgnoringCase "WAIT" v = false := by decide
  have hnot := hall v hv
  rw [sameIgnoringCase_trans (kw_eq_word hwait (by decide)).1 hsame] at hnot
  cases hnot

/-- A counted loop behind `WAIT` is a condition to wait for. -/
theorem RestReadable.waitFor (h : RestReadable s r) (hr : r.rest = c₁.rest)
    (hwait : kw "WAIT" c = .done () c₁) (hfor : kw "FOR" c₁ = .done () c₂) :
    ∃ b r', waitForStatement c = .done b r' := by
  obtain ⟨hword, -⟩ := kw_eq_word hfor (by decide)
  cases h with
  | ended h =>
    have hletter := start_of_same hword (by decide)
    simp [← hr, h] at hletter
  | closer h =>
    obtain ⟨v, hv, hsame⟩ := h.exists_word
    have hnot := hv.2.2 "FOR" (by decide)
    rw [hr] at hsame
    rw [sameIgnoringCase_trans hsame hword] at hnot
    cases hnot
  | next h _ _ =>
    obtain ⟨_, r₂, hloop, hr₂⟩ := exists_done_of_sameRest
      lexis_sameRest.kw hr.symm hfor
    obtain ⟨e, r₃, hcondition⟩ := expression_of_for h hloop
    obtain ⟨e', r₄, hcondition', -⟩ := exists_done_of_sameRest
      lexis_sameRest.expression hr₂ hcondition
    exact ⟨_, r₄, bind_of_done hwait <| bind_of_done hfor <| bind_of_done hcondition' rfl⟩

/-- `WAIT` does not run into a `FOR`. -/
theorem halts_waitFor (hs : Opening s) :
    Halts (Joined s n) (fun c => ∃ b r, wordLed c = .done b r ∧ ∃ span, EndsApart s (b span) r)
      waitForStatement waitForStatement := by
  rintro c d hcd ⟨b, r, hb, span, hapart⟩ ⟨f, hfailed⟩
  refine Retreats.failed fun b' r' hright => ?_
  obtain ⟨_, d₁, hwait', _, d₂, hfor', -⟩ := bind₂_eq_done.1 hright
  obtain ⟨_, c₁, hwait, -, hcd₁⟩ :=
    Keeps.exists_left (keeps_kw_joined hs (by decide)) hcd hwait'
  obtain ⟨x, c₀, hkeyword, hblanks⟩ := bind_eq_done.1 hwait
  obtain ⟨w, c', hname, hw⟩ := name_of_keyword hkeyword (by decide) (by decide)
  have hc₁ : c₁.rest = skip c'.rest := by
    cases hblanks
    exact skip_of_keyword hname hkeyword (by decide)
  have hnamed := nameLed_of_wait hwait hb
  rcases hcd₁ with ⟨hne, hcd₁⟩ | ⟨hnil, hd₁⟩
  · -- on the left, the loop follows the call
    obtain ⟨_, c₂, hfor, -⟩ :=
      Keeps.exists_left (keeps_kw_joined hs (by decide)) hcd₁ hfor'
    have hletter := start_of_same (kw_eq_word hfor (by decide)).1 (by decide)
    obtain ⟨hr, -⟩ := call_of_name hname
      (noneOf_of_all (q := isNameStart) (by decide) (all_of_any (hc₁ ▸ hletter))) hnamed
    obtain ⟨_, _, hdone⟩ := hapart.readable.waitFor (hr.trans hc₁.symm) hwait hfor
    rw [hdone] at hfailed
    cases hfailed
  · rw [hc₁] at hnil
    obtain ⟨hr, ns, rfl⟩ := call_of_name hname (by rw [hnil]; decide) hnamed
    refine (hapart.separate (hr.trans hnil)).2 rfl (.inl ⟨hw, ?_⟩)
    exact hd₁ ▸ (kw_eq_word hfor' (by decide)).1

/-- `READ` is reserved, and `WRITE` is not. -/
theorem write_of_nameLed {b : Span → Statement} {v : String} (hb : nameLed c = .done b r)
    (hverb : (keyword "WRITE" <|> keyword "READ") c = .done v c') :
    keyword "WRITE" c = .done v c' := by
  refine (orElse_eq_done hverb).resolve_right fun hread => ?_
  rcases (ledBy_label.orElse (ledBy_assignment.orElse ledBy_call)) c b r hb with ⟨_, hnil, -⟩ | h
  · cases hnil
  · have hnot := h.not_isReserved
    rw [isReserved_of_same (keyword_eq_word (by decide) hread).1] at hnot
    exact absurd hnot (by decide)

/-- The name of a file behind a call is a statement of its own. -/
theorem RestReadable.of_file {x : String × Span} (h : RestReadable s r) (hr : r.rest = c₁.rest)
    (hfile : lexeme name c₁ = .done x c₂) : (c₂.rest = [] → s.head? ≠ some '(') ∧
      (c₂.rest.head? = some '(' → ∃ es r', arguments c₂ = .done es r') := by
  obtain ⟨c', hname, hc₂⟩ := lexeme_name_eq_done hfile
  obtain ⟨_, r₀, hname', hr₀⟩ := exists_done_of_sameRest lexis_sameRest.name
    hr.symm hname
  obtain ⟨hbare, hopen⟩ := h.of_name hname'
  rw [hr₀, ← hc₂] at hbare hopen
  exact ⟨hbare, fun hhead => hopen hhead c₂ rfl⟩

/-- `WRITE` does not run into the name of a file. -/
theorem halts_transfer (hs : Opening s) :
    Halts (Joined s n) (fun c => ∃ b r, nameLed c = .done b r ∧ ∃ span, EndsApart s (b span) r)
      transferStatement transferStatement := by
  rintro c d hcd ⟨b, r, hb, span, hapart⟩ ⟨f, hfailed⟩
  refine Retreats.failed fun b' r' hright => ?_
  obtain ⟨v, c₀, hverb⟩ : ∃ v c₀, (keyword "WRITE" <|> keyword "READ" : Parser String) c =
      .done v c₀ := by
    obtain ⟨_, _, hposition, h⟩ := bind_eq_done.1 hright
    cases hposition
    obtain ⟨_, _, hverb', -⟩ := bind_eq_done.1 h
    obtain ⟨v, c₀, hverb, -⟩ := Keeps.exists_left (keeps_verb) hcd hverb'
    exact ⟨v, c₀, hverb⟩
  have hwrite := write_of_nameLed hb hverb
  obtain ⟨w, c', hname, hw⟩ := name_of_keyword hwrite (by decide) (by decide)
  obtain ⟨c₁, hblanks, hc₁⟩ := reaches_blanks c₀
  rw [skip_of_keyword hname hwrite (by decide)] at hc₁
  have hleft {o : Option (String × Span)} {c₂ c₃ : Cursor} {es : List Expr}
      (hfile : maybe (lexeme name) c₁ = .done o c₂) : arguments c₂ ≠ .done es c₃ := by
    intro harguments
    have hdone : ∃ build r, transferStatement c = .done build r :=
      ⟨_, _, bind_eq_done.2 ⟨_, c, rfl, bind_of_done hverb <| bind_of_done hblanks <|
        bind_of_done hfile <| bind_of_done harguments rfl⟩⟩
    obtain ⟨_, _, hdone⟩ := hdone
    rw [hdone] at hfailed
    cases hfailed
  obtain ⟨_, d', hname', -, hcd'⟩ := Keeps.exists_right
    (keeps_token_joined (local_name margin_lineOver.toDelimits)) hcd hname
  obtain ⟨d₁, o, d₂, es, d₃, hd₁, hfile', harguments'⟩ := arguments_of_transfer hname' hright
  have hparen := head?_of_arguments harguments'
  rcases hcd'.meets hs.skip_eq hc₁ hd₁ with ⟨hne, hcd₁⟩ | ⟨hnil, hs₁⟩
  · rcases maybe_eq_done hfile' with ⟨x, -, hx'⟩ | ⟨-, rfl⟩
    · -- on the left, the file is a statement behind the call
      obtain ⟨x', c₂, hx, -, hcd₂⟩ :=
        Keeps.exists_left (keeps_lexedName hs) hcd₁ hx'
      obtain ⟨c'', hfile, -⟩ := lexeme_name_eq_done hx
      have hletter := (name_eq_word hfile).2.1
      obtain ⟨hr, -⟩ := call_of_name hname
        (noneOf_of_all (q := isNameStart) (by decide) (all_of_any (hc₁ ▸ hletter))) hb
      obtain ⟨hbare, hopen⟩ := hapart.readable.of_file (hr.trans hc₁.symm) hx
      rcases hcd₂ with ⟨hne₂, hcd₂⟩ | ⟨hnil₂, hs₂⟩
      · rw [hcd₂.head?_eq hne₂] at hparen
        obtain ⟨_, _, hread⟩ := hopen hparen
        exact hleft (maybe_of_done hx) hread
      · exact hbare hnil₂ (hs₂ ▸ hparen)
    · rw [hcd₁.head?_eq hne] at hparen
      obtain ⟨_, _, hread⟩ :=
        arguments_of_nameLed hname (hc₁ ▸ hparen) hb hapart.readable.enclosed hc₁
      exact hleft (maybe_of_failed (failsAt_lexeme (failsAt_name (by decide)) c₁ hparen)) hread
  · rw [hc₁] at hnil
    obtain ⟨hr, ns, rfl⟩ := call_of_name hname (by rw [hnil]; decide) hb
    obtain ⟨hopen, hruns⟩ := hapart.separate (hr.trans hnil)
    rcases maybe_eq_done hfile' with ⟨x, -, hx'⟩ | ⟨-, rfl⟩
    · obtain ⟨d'', hfile, hd₂⟩ := lexeme_name_eq_done hx'
      obtain ⟨-, hstart, hrest, hreserved⟩ := name_eq_word hfile
      rw [hs₁] at hstart hreserved hrest
      exact hruns rfl (.inr ⟨hw, hstart, hreserved, by rwa [← hrest, ← hd₂]⟩)
    · exact hopen (by simp [Transfers]) (hs₁ ▸ hparen)

/-- Behind a statement, no suffix leads to an equals sign. -/
theorem EndsApart.fresh (hs : Opening s) (h : EndsApart s a c) (hcd : Meets s n c d)
    (hc : c.rest.head? ≠ some '(') (ha : Separate a s → s.head? ≠ some '(') : Fresh d.rest := by
  rcases hcd with ⟨hne, hcd⟩ | ⟨hnil, hd⟩
  · rw [hcd.rest]
    exact (h.readable.fresh hc).append hne
  · have hopen := ha (h.separate hnil)
    rw [hd]
    rcases hs with rfl | ⟨w, hw, hsame⟩ | hstart
    · exact .other (by decide)
    · exact fresh_of_start (start_of_same hsame (plain_of_mem_openers hw))
    · exact fresh_of_startsOperand hstart hopen

/-- Arguments with a format are no suffix, in front of another line neither. -/
theorem suffix_failed_of_format (hs : Opening s) (hcd : Joined s n c d)
    (hopen : punct '(' c = .done () c₁) (hitems : sepBy (punct ',') expression c₁ = .done es r)
    (hr : r.rest.head? = some ':') : ∃ f, suffix expression d = .failed f := by
  have hcarries := carries_items (n := n) hs (carries_expression hs) (x := ':') (by decide)
  obtain ⟨_, d₁, hopen', -, hcd₁⟩ := Keeps.exists_right
    (keeps_punct_joined hs (by decide)) hcd hopen
  obtain ⟨es', d₂, hitems', -, hcd₂⟩ := hcarries c₁ d₁ es r hcd₁ hitems hr
  have hhead := head?_of_punct hopen'
  refine Retreats.failed fun build r' h => ?_
  obtain ⟨_, _, hopen'', h⟩ := bind_eq_done.1 ((suffix_eq_argumentList hhead).1 h)
  rw [hopen'] at hopen''
  cases hopen''
  obtain ⟨_, _, hitems'', h⟩ := bind_eq_done.1 h
  rw [hitems'] at hitems''
  cases hitems''
  obtain ⟨_, _, hclose, -⟩ := bind_eq_done.1 h
  have hcolon := hcd₂.head? hr
  rw [head?_of_char hclose] at hcolon
  cases hcolon

/-- A call in front of a parenthesis that begins a statement is the target of an assignment. -/
theorem exists_assignment {build : Span → Expr → Expr} {r' : Cursor} (hname : name c = .done w c')
    (hc₁ : c₁.rest = skip c'.rest) (hlist : argumentList expression c₁ = .done build c₂)
    (hr : r.rest = skip c₂.rest) (h : statement r = .done a r') (hparen : r.rest.head? = some '(') :
    ∃ b r'', assignment c = .done b r'' := by
  obtain ⟨base, c₃, hoperand, hc₃⟩ := operand_of_name (q := expression) hname
  obtain ⟨_, c₄, hlist', hc₄⟩ := exists_argumentList hlist (hc₁.trans hc₃.symm)
  obtain ⟨e, c₅, hc₅, heq⟩ := suffixes_of_argumentList hlist' base
  obtain ⟨target, c₆, c₇, value, r'', hsuffixes, hop, hvalue⟩ :=
    equation_of_paren h hparen (d := c₅) (by rw [hr, hc₅, hc₄]) e
  have hreference : reference expression c = .done target c₆ :=
    bind_of_done hoperand <| heq.trans hsuffixes
  exact ⟨_, r'', bind_of_done hreference <| bind_of_done hop <| bind_of_done hvalue rfl⟩

/-- `WRITE` in front of arguments transfers them. -/
theorem transfer_of_arguments (hname : name c = .done w c') (hw : sameIgnoringCase w "WRITE")
    (hc₁ : c₁.rest = skip c'.rest) (h : arguments c₁ = .done es r) :
    ∃ build r', transferStatement c = .done build r' := by
  obtain ⟨rfl, -, hrest, -⟩ := name_eq_word hname
  rw [sameIgnoringCase, leadingWord, String.toList_ofList] at hw
  have hhead : (skip c'.rest).head? = some '(' := hc₁ ▸ head?_of_arguments h
  have hstop : c'.rest.head?.any isWord = false := by
    refine Bool.eq_false_iff.2 fun hword => ?_
    obtain ⟨x, t, ht, hx⟩ := exists_cons_of_any hword
    have hend : c'.rest.head?.any isNameChar = false := hrest ▸ head?_dropWhile_any isNameChar _
    have hstuck : Stuck c' := ⟨x, by rw [ht, head?_cons], hx, by simpa [ht] using hend⟩
    obtain ⟨c₀, hblanks, hc₀⟩ := reaches_blanks c'
    rw [hstuck.blanks] at hblanks
    cases hblanks
    rw [← hc₀, ht, head?_cons, Option.some_inj] at hhead
    rw [hhead] at hx
    exact absurd hx (by decide)
  have hc : c.rest = c.rest.takeWhile isNameChar ++ c'.rest := by
    rw [hrest, takeWhile_append_dropWhile]
  obtain ⟨v, c₀, hverb, hc₀⟩ :=
    keyword_of_same (by decide) (ascii_of_same (by decide) hw) hc hw hstop
  obtain ⟨c₂, hblanks, hc₂⟩ := reaches_blanks c₀
  rw [hc₀, skip_dropWhile] at hc₂
  obtain ⟨_, _, hread, -⟩ :=
    exists_done_of_sameRest lexis_sameRest.arguments (hc₁.trans hc₂.symm) h
  rw [← hc₂] at hhead
  have hfile := maybe_of_failed (failsAt_lexeme (failsAt_name (by decide)) c₂ hhead)
  exact ⟨_, _, bind_eq_done.2 ⟨_, c, rfl, bind_of_done (orElse_of_done hverb) <|
    bind_of_done hblanks <| bind_of_done hfile <| bind_of_done hread rfl⟩⟩

/-- The two texts go on alike, and nothing is transferred. -/
def JoinedElse (s : List Char) (n : Nat) (c d : Cursor) : Prop :=
  Joined s n c d ∧ ∃ e, transferStatement c = .failed e

/-- A call does not run into an equals sign. -/
theorem halts_assignment (hs : Opening s) : Halts (JoinedElse s (n + 1))
    (fun c => ∃ b r, callStatement c = .done b r ∧ ∃ span, EndsApart s (b span) r)
      assignment assignment := by
  rintro c d ⟨hcd, _, helse⟩ ⟨b, r, hb, span, hapart⟩ ⟨f, hfailed⟩
  refine Retreats.failed fun b' r' hright => ?_
  obtain ⟨x, c₁, hlexeme, o, c₂, harguments, hpure⟩ := bind₂_eq_done.1 hb
  cases hpure
  obtain ⟨c', hname, hc₁⟩ := lexeme_name_eq_done hlexeme
  obtain ⟨_, d', hname', -, hcd'⟩ := Keeps.exists_right
    (keeps_token_joined (local_name margin_lineOver.toDelimits)) hcd hname
  obtain ⟨base, d₁, target, d₂, d₃, value, hd₁, -, hsuffixes, hop, -⟩ :=
    assignment_eq_done hname' hright
  have hcd₁ : Meets s (n + 1) c₁ d₁ := hcd'.meets hs.skip_eq hc₁ hd₁
  rcases maybe_eq_done harguments with ⟨es, rfl, hread⟩ | ⟨rfl, rfl⟩
  · have hopen := head?_of_arguments hread
    have hjoined : Joined s (n + 1) c₁ d₁ := hcd₁.joined fun hnil => by simp [hnil] at hopen
    rcases argumentList_of_arguments hread with
      ⟨build, c₃, hlist, hc₃⟩ | ⟨c₃, es', c₄, hpunct, hitems, hcolon⟩
    · obtain ⟨build', d₄, hlist', -, hcd₄⟩ := carries_argumentList hs (carries_expression hs)
        c₁ d₁ build c₃ hjoined hlist trivial
      obtain ⟨_, d₅, hd₅, heq⟩ := suffixes_of_argumentList hlist' base
      rw [heq] at hsuffixes
      by_cases hparen : r.rest.head? = some '('
      · obtain ⟨a, r', hstatement⟩ := hapart.readable.exists_statement hparen
        obtain ⟨_, _, hdone⟩ := exists_assignment hname hc₁ hlist hc₃.symm hstatement hparen
        rw [hdone] at hfailed
        cases hfailed
      · refine (hapart.fresh hs (hcd₄.meets hs.skip_eq hc₃.symm hd₅) hparen fun h => h.1 ?_).ne_done
          hsuffixes hop
        rintro ⟨hwrite | hread', -⟩
        · obtain ⟨_, _, hdone⟩ := transfer_of_arguments hname hwrite hc₁ hread
          rw [hdone] at helse
          cases helse
        · obtain ⟨hx, -, -, hreserved⟩ := name_eq_word hname
          rw [← hx, isReserved_of_same hread'] at hreserved
          exact absurd hreserved (by decide)
    · exact equals_ne_done (suffix_failed_of_format hs hjoined hpunct hitems hcolon)
        (by rw [hcd₁.head? hopen]; simp) hsuffixes hop
  · refine (hapart.fresh hs hcd₁ (fun hparen => ?_) fun h => h.1 (by simp [Transfers])).ne_done
      hsuffixes hop
    obtain ⟨es, r', hread⟩ := (hapart.readable.enclosed hparen).arguments rfl
    rw [maybe_of_done hread] at harguments
    cases harguments

/-! ## Statements -/

theorem carries_nameLed (hs : Opening s) : Carries (JoinedElse s (n + 1)) (Meets s (n + 1))
    (fun build r => ∃ span, EndsApart s (build span) r) (SameMaking .unplaced .unplaced)
    nameLed nameLed := by
  have helse {p : Parser (Span → Statement)} (h : CarriesKind s (n + 1) p) :
      Carries (JoinedElse s (n + 1)) (Meets s (n + 1))
        (fun build r => ∃ span, EndsApart s (build span) r) (SameMaking .unplaced .unplaced) p p :=
    fun c d a c' hcd => h c d a c' hcd.1
  exact (helse (.of_keeps (keeps_label hs))).orElse
    ((helse (carries_assignment hs)).orElse (helse (carries_call hs)) (halts_assignment hs))
    fun c d hcd _ => Halts.of_keeps (K := fun _ => True) (keeps_label hs) c d hcd.1 trivial

/-- Alternatives are carried over, and begin with one of the words or as an operand. -/
structure Turn (s : List Char) (n : Nat) (ws : List String) (p : Parser (Span → Statement)) :
    Prop where
  carries : CarriesKind s n p
  led : LedBy ws p

/-- A statement with a reserved word of its own comes before the others. -/
theorem Turn.leading (hs : Opening s) {f : Unit → Parser (Span → Statement)}
    {p : Parser (Span → Statement)} (h : CarriesKind s n (kw w >>= f)) (hrest : Turn s n ws p)
    (hw : OtherThan ws w) : Turn s n (w :: ws) (kw w >>= f <|> p) where
  carries := h.orElse hrest.carries (halts_leading hs hrest.led hw)
  led := (ledBy_kw (h := ⟨hw.1⟩)).orElse hrest.led

/-- The statements that begin with a word that may be a name. -/
theorem turn_words (hs : Opening s) :
    Turn s (n + 1) ["WAIT", "ABORT", "PAUSE", "WRITE", "READ"] (waitForStatement <|> wordLed) where
  carries := by
    have hword {w : String} (build : Span → Statement) (hw : Plain w)
        (hbuild : SameMaking .unplaced .unplaced build build) : Agrees (Joined s (n + 1))
          (Meets s (n + 1)) (kw w *> pure build) (SameMaking .unplaced .unplaced) :=
      (keeps_kw_joined hs hw).seqRight (.pure hbuild)
    have habort := hword (w := "ABORT") .abort (by decide) fun _ _ _ => rfl
    have hpause := hword (w := "PAUSE") .pause (by decide) fun _ _ _ => rfl
    exact (carries_waitFor hs).orElse ((Carries.of_keeps habort).orElse
      ((Carries.of_keeps hpause).orElse ((carries_transfer hs).orElse_failed (carries_nameLed hs)
        (halts_transfer hs)) (.of_keeps hpause)) (.of_keeps habort)) (halts_waitFor hs)
  led := ledBy_kw.orElse <| ledBy_kw.orElse <|
    ledBy_kw.orElse <| ledBy_transfer.orElse <| ledBy_label.orElse <|
    ledBy_assignment.orElse ledBy_call

/-- `GOTO` and `GO TO` come before what begins with neither. -/
theorem Turn.goto (hs : Opening s) {p : Parser (Span → Statement)} (hrest : Turn s (n + 1) ws p)
    (hws : ∀ w ∈ ["GOTO", "GO"], OtherThan ws w) :
    Turn s (n + 1) ("GOTO" :: "GO" :: ws) (gotoStatement <|> p) where
  carries := by
    refine (carries_goto hs).orElse hrest.carries (.bind (keeps_go hs) ?_)
    rintro c _ _ ⟨b, r, hb, -⟩ hgo
    obtain ⟨w, hw, hsame⟩ := go_word hgo
    exact hrest.led.ne_done (hws w hw) hsame hb
  led := ledBy_goto.orElse hrest.led

theorem carries_kinds (hs : Opening s) (hσ : CarriesStatement s n) :
    CarriesKind s (n + 1) (kinds statement) := by
  have hdelay := Turn.leading hs (carries_delay (n := n) hs) (turn_words hs) (by decide)
  have hreturn := Turn.leading hs (carries_return hs) (hdelay.goto hs (by decide)) (by decide)
  have hselect := Turn.leading hs (carries_select hs hσ) hreturn (by decide)
  have hrepeat := Turn.leading hs (carries_repeat hs hσ) hselect (by decide)
  have hwhile := Turn.leading hs (carries_while hs hσ) hrepeat (by decide)
  have hfor := Turn.leading hs (carries_for hs hσ) hwhile (by decide)
  exact (Turn.leading hs (carries_if hs hσ) hfor (by decide)).carries

/-- **A statement is read alike in front of another line**, if what follows it can be read, and
nothing of the line belongs to it. -/
theorem carries_statement (hs : Opening s) : CarriesStatement s n := by
  induction n with
  | zero =>
    intro c d a r hcd h
    exact absurd (length_eq_zero_iff.1 (Nat.le_zero.1 hcd.length_le)) (ne_nil_of_done h)
  | succ n ih =>
    refine carries_meets ?_ fun c a r h => ne_nil_of_done h
    rw [statement_eq, statementOf_eq]
    exact (carries_coded (carries_kinds hs ih)).map (fun x _ h => ⟨x.2, h⟩)
      fun x y hxy => hxy _ _ rfl

/-! ## Texts -/

/-- The statements of the first text are read, and those of the second one follow. -/
theorem exists_many (hs : Opening s) (hcd : Meets s n c d) (h : many statement c = .done as r)
    (hr : r.rest = []) (hlast : ∀ a ∈ as.getLast?, Separate a s) :
    ∃ bs d', d'.rest = s ∧ List.Forall₂ (SameStatement .unplaced .unplaced) as bs ∧
      ∀ ts r', many statement d' = .done ts r' → many statement d = .done (bs ++ ts) r' := by
  induction many_eq_done.1 h generalizing d with
  | nil =>
    rcases hcd with ⟨hne, -⟩ | ⟨-, hd⟩
    · exact absurd hr hne
    · exact ⟨[], d, hd, .nil, fun ts r' h => h⟩
  | @cons c next r a as hstep hlt hrest ih =>
    have hread := many_eq_done.2 hrest
    have htail : ∀ b ∈ as.getLast?, Separate b s := fun b hb => hlast b (mem_getLast?_cons hb)
    have hapart : EndsApart s a next := by
      refine ⟨restReadable_of_many hread (.inl hr) fun b hb _ => htail b hb, fun hnil => ?_⟩
      obtain ⟨rfl, -⟩ := many_of_nil hnil hread
      exact hlast a rfl
    obtain ⟨b, d₁, hstep', hab, hcd₁⟩ := carries_statement hs c d a next hcd hstep hapart
    obtain ⟨bs, d', hd', hbs, hmany⟩ := ih hcd₁ hread hr htail
    refine ⟨b :: bs, d', hd', .cons hab hbs, fun ts r' h => ?_⟩
    exact many_eq_done.2 (.cons hstep' (length_lt_of_done hstep') (many_eq_done.1 (hmany ts r' h)))

/-- The statements that make up a text. -/
def statementsOf? (text : String) : Option (List Statement) :=
  match statements (.ofText text) with
  | .done as r => if r.rest = [] then some as else none
  | _ => none

theorem statementsOf?_eq_some {text : String} :
    statementsOf? text = some as ↔ ∃ r, statements (.ofText text) = .done as r ∧ r.rest = [] := by
  rw [statementsOf?]
  cases h : statements (.ofText text) with
  | done bs r =>
    simp only [Outcome.done.injEq]
    split
    · rename_i hr
      simp [hr]
    · rename_i hr
      simp [hr]
  | failed f => simp
  | aborted f => simp

theorem opening_of_statementsOf? {text : String}
    (h : statementsOf? text = some as) : Opening text.toList := by
  obtain ⟨r, hread, hr⟩ := statementsOf?_eq_some.1 h
  exact of_many (K := fun c => c.rest = []) (F := fun c => Opening c.rest)
    (fun _ _ _ h => opening_of_statement h) (fun _ h => .inl h) hread hr

/-- **Statements on separate lines stay separate**, if the last one of the first text takes nothing
of the second text. -/
theorem statements_joinLines {text₁ text₂ : String} {as₁ as₂ : List Statement} {a : Statement}
    (h₁ : statementsOf? text₁ = some as₁) (h₂ : statementsOf? text₂ = some as₂)
    (hlast : as₁.getLast? = some a) (hseparate : Separate a text₂.toList) :
    ∃ as, statementsOf? (text₁ ++ "\n" ++ text₂) = some as ∧
      as.map (Statement.view .unplaced) = (as₁ ++ as₂).map (Statement.view .unplaced) := by
  obtain ⟨r₁, hread₁, hr₁⟩ := statementsOf?_eq_some.1 h₁
  obtain ⟨r₂, hread₂, hr₂⟩ := statementsOf?_eq_some.1 h₂
  have hs := opening_of_statementsOf? h₂
  have hne : (Cursor.ofText text₁).rest ≠ [] := by
    intro hnil
    obtain ⟨rfl, -⟩ := many_of_nil hnil hread₁
    cases hlast
  have hjoined : Joined text₂.toList text₁.toList.length (.ofText text₁)
      (.ofText (text₁ ++ "\n" ++ text₂)) := by
    refine ⟨Nat.le_refl _, ?_⟩
    change (text₁ ++ "\n" ++ text₂).toList = text₁.toList ++ '\n' :: text₂.toList
    rw [String.toList_append, String.toList_append, append_assoc]
    rfl
  obtain ⟨bs, d, hd, hbs, hmany⟩ := exists_many hs (.inl ⟨hne, hjoined⟩) hread₁ hr₁ fun b hb => by
    rw [hlast] at hb
    cases hb
    exact hseparate
  obtain ⟨ts, r, hread, hts, hr⟩ := lexis_sameRest.statements.exists_right
    (show SameRest (.ofText text₂) d from hd.symm) hread₂
  refine ⟨bs ++ ts, statementsOf?_eq_some.2 ⟨r, hmany ts r hread, hr.symm.trans hr₂⟩, ?_⟩
  rw [map_append, map_append, ← map_eq_of_forall₂ hbs, hts]

/-- In front of `[in]v`, the assignment ends with its line, as `in` is no expression. -/
theorem statements_joinLines_reserved : ∃ as₁ as₂ a as,
    statementsOf? "WAIT FOR ready\nx = a" = some as₁ ∧ statementsOf? "[in]v = 3" = some as₂ ∧
    as₁.getLast? = some a ∧ Separate a "[in]v = 3".toList ∧
    statementsOf? ("WAIT FOR ready\nx = a" ++ "\n" ++ "[in]v = 3") = some as ∧
    as.map (Statement.view .unplaced) = (as₁ ++ as₂).map (Statement.view .unplaced) := by
  have hlast : (statementsOf? "WAIT FOR ready\nx = a").any (fun as => as.getLast?.any
      fun a => decide (Separate a "[in]v = 3".toList)) = true := by decide +kernel
  have hsome : (statementsOf? "[in]v = 3").isSome = true := by decide +kernel
  obtain ⟨as₁, h₁, hlast⟩ := (Option.any_eq_true _ _).1 hlast
  obtain ⟨a, ha, hseparate⟩ := (Option.any_eq_true _ _).1 hlast
  obtain ⟨as₂, h₂⟩ := Option.isSome_iff_exists.1 hsome
  have hseparate := of_decide_eq_true hseparate
  obtain ⟨as, h, hview⟩ := statements_joinLines h₁ h₂ ha hseparate
  exact ⟨as₁, as₂, a, as, h₁, h₂, ha, hseparate, h, hview⟩

/-- Without the condition they may run together: `x = a` and `(b) = 3` make up one assignment. -/
theorem not_statements_joinLines : ¬ ∀ text₁ text₂ as₁ as₂,
    statementsOf? text₁ = some as₁ → statementsOf? text₂ = some as₂ →
    ∃ as, statementsOf? (text₁ ++ "\n" ++ text₂) = some as ∧
      as.map (Statement.view .unplaced) = (as₁ ++ as₂).map (Statement.view .unplaced) := by
  intro hall
  have hcount (text : String) (k : Nat)
      (h : ((statementsOf? text).map List.length == some k) = true) :
      ∃ as, statementsOf? text = some as ∧ as.length = k :=
    Option.map_eq_some_iff.1 (eq_of_beq h)
  obtain ⟨as₁, h₁, hlength₁⟩ := hcount "x = a" 1 (by decide +kernel)
  obtain ⟨as₂, h₂, hlength₂⟩ := hcount "(b) = 3" 1 (by decide +kernel)
  obtain ⟨as, h, hlength⟩ := hcount ("x = a" ++ "\n" ++ "(b) = 3") 1 (by decide +kernel)
  obtain ⟨as', h', hview⟩ := hall "x = a" "(b) = 3" as₁ as₂ h₁ h₂
  rw [h] at h'
  cases h'
  have hsum := congrArg List.length hview
  rw [length_map, length_map, length_append] at hsum
  omega

end RobotSource.Karel.Grammar
