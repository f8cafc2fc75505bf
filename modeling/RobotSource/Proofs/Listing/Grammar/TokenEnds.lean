import RobotSource.Proofs.Listing.Grammar.LineEnding
import RobotSource.Proofs.Listing.Grammar.Spans
import RobotSource.Proofs.Listing.Places
/-!
# Where the places of an instruction end

Labels, the names of programs and expressions end with a token, and the white space behind it is not
part of them: each of their spans ends right behind a character that is not white space
(`settles_instructionKind`). An action ends where the next token begins, so nothing of the kind holds
for it.
-/

namespace RobotSource.Listing.Grammar

open Parsing Parsing.Parser Text List

variable {α β : Type} {b c c' r : Cursor} {p : Parser α} {ss ts : List Span}
variable {x : Char}

/-! ## Behind a character that is not white space -/

/-- The second cursor stands behind the first, right behind a character that is not white space. -/
def Firm (c r : Cursor) : Prop := ∃ u x, Passes (u ++ [x]) c r ∧ isBlank x = false

/-- Nothing is read, or up to a character that is not white space. -/
def FirmOrSame (c r : Cursor) : Prop := r = c ∨ Firm c r

theorem Firm.of_along (h : Along c c') (h' : Firm c' r) : Firm c r := by
  obtain ⟨w, hw, -⟩ := h
  obtain ⟨u, x, hu, hx⟩ := h'
  exact ⟨w ++ u, x, by rw [append_assoc]; exact hw.trans hu, hx⟩

theorem Firm.along (h : Firm c r) : Along c r := by
  obtain ⟨u, x, hu, -⟩ := h
  exact ⟨_, hu, fun _ _ => trivial⟩

theorem Firm.of_passes {u : List Char} (h : Passes u c r) (hne : u ≠ [])
    (hu : ∀ x ∈ u, isBlank x = false) : Firm c r :=
  ⟨u.dropLast, u.getLast hne, by rwa [dropLast_concat_getLast], hu _ (getLast_mem hne)⟩

instance : IsPreorder Cursor FirmOrSame where
  refl _ := .inl rfl
  trans _ _ _ := by
    rintro (rfl | h) (rfl | h')
    · exact .inl rfl
    · exact .inr h'
    · exact .inr h
    · exact .inr (.of_along h.along h')

/-- What comes last decides. -/
instance {f : α → Parser β} [∀ n, Orderly (n + 1) false p p] [hf : ∀ a, Reads Firm (f a)] :
    Reads Firm (p >>= f) where
  of_done hdone := by
    obtain ⟨a, c', hp, hfa⟩ := bind_eq_done.1 hdone
    exact .of_along (along_of_done hp) ((hf a).of_done hfa)

instance {q : Parser β} [∀ n, Orderly (n + 1) false p p] [Reads Firm q] :
    Reads Firm (p >>= fun _ => q) := inferInstance

/-- What comes last may be missing. -/
instance {f : α → Parser β} [h : Reads Firm p] [hf : ∀ a, Reads FirmOrSame (f a)] :
    Reads Firm (p >>= f) where
  of_done hdone := by
    obtain ⟨a, c', hp, hfa⟩ := bind_eq_done.1 hdone
    rcases (hf a).of_done hfa with rfl | hfirm
    · exact h.of_done hp
    · exact .of_along (h.of_done hp).along hfirm

instance [h : Reads Firm p] : Reads FirmOrSame p := ⟨fun hdone => .inr (h.of_done hdone)⟩

instance {q : Parser α} [h : Reads Firm p] [h' : Reads Firm q] : Reads Firm (p <|> q) :=
  ⟨fun hdone => (orElse_eq_done hdone).elim h.of_done h'.of_done⟩

/-! ## Tokens -/

theorem isBlank_of_isNameChar (h : isNameChar x) : isBlank x = false := by
  rw [← Bool.not_eq_true]
  intro hblank
  rw [delimiter_isLineEnd.name x (by simp [isLineEnd, hblank])] at h
  cases h

theorem isNameChar_of_isDigit (h : x.isDigit) : isNameChar x := by
  simp [isNameChar, Char.isAlphanum, h]

instance [hx : Among x [signs, quotes]] : Reads Firm (char x) :=
  ⟨fun hdone => ⟨[], x, passes_char hdone,
    (by decide : ∀ x ∈ [signs, quotes].flatten, isBlank x = false) x hx.mem⟩⟩

instance : Reads FirmOrSame (takeWhile Char.isDigit) where
  of_done {c _ _} hdone := by
    cases hdone
    by_cases hnil : c.rest.takeWhile Char.isDigit = []
    · rw [hnil]
      exact .inl rfl
    · exact .inr (.of_passes (.takeWhile _) hnil fun x hx =>
        isBlank_of_isNameChar (isNameChar_of_isDigit (mem_takeWhile_imp hx)))

instance : Reads Firm digits where
  of_done hdone := by
    obtain ⟨hne, rfl, rfl⟩ := takeWhile1_eq_done.1 hdone
    exact .of_passes (.takeWhile _) hne fun x hx =>
      isBlank_of_isNameChar (isNameChar_of_isDigit (mem_takeWhile_imp hx))

instance : Reads Firm identifier where
  of_done {c _ _} hdone := by
    obtain ⟨hstart, rfl, rfl⟩ := identifier_eq_done.1 hdone
    obtain ⟨x, t, hrest, hx⟩ := exists_cons_of_any hstart
    refine .of_passes (.takeWhile _) ?_ fun x hx =>
      isBlank_of_isNameChar (mem_takeWhile_imp hx)
    rw [hrest, takeWhile_cons_of_pos (isNameChar_of_isNameStart hx)]
    exact cons_ne_nil _ _

instance : Reads Firm number := by unfold number; infer_instance
instance : Reads Firm stringLiteral := by unfold stringLiteral quoted; infer_instance
instance : Reads Firm systemStep := by unfold systemStep; infer_instance
instance : Reads Firm systemVariable := by unfold systemVariable; infer_instance

theorem firm_of_done [Reads Firm p] {a : α} (h : p c = .done a r) : Firm c r := Reads.of_done h

/-! ## Spans that end with a token -/

/-- The place is one between the two cursors, and something is read behind it that is not white
space. -/
def StartsWithin (b c : Cursor) (p : Position) : Prop :=
  ∃ d e, Along b d ∧ Firm d e ∧ Along e c ∧ p = d.position

/-- The place is one between the two cursors, right behind a character that is not white space. -/
def StopsWithin (b c : Cursor) (p : Position) : Prop :=
  ∃ e, Firm b e ∧ Along e c ∧ p = e.position

/-- Between the two cursors, each of the spans ends with a token. -/
structure Settled (b : Cursor) (ss : List Span) (c : Cursor) : Prop where
  along : Along b c
  starts : ∀ s ∈ ss, StartsWithin b c s.start
  stops : ∀ s ∈ ss, StopsWithin b c s.stop

namespace Settled

theorem refl (c : Cursor) : Settled c [] c := ⟨refl_of _ c, by simp, by simp⟩

theorem extend (h : Settled b ss c) (h' : Along c r) : Settled b ss r := by
  refine ⟨h.along.trans h', fun s hs => ?_, fun s hs => ?_⟩
  · obtain ⟨d, e, hd, hfirm, halong, hstart⟩ := h.starts s hs
    exact ⟨d, e, hd, hfirm, halong.trans h', hstart⟩
  · obtain ⟨e, hfirm, halong, hstop⟩ := h.stops s hs
    exact ⟨e, hfirm, halong.trans h', hstop⟩

theorem append (h : Settled b ss c) (h' : Settled c ts r) : Settled b (ss ++ ts) r := by
  have hss := h.extend h'.along
  refine ⟨hss.along, fun s hs => ?_, fun s hs => ?_⟩
  · refine (mem_append.1 hs).elim (hss.starts s) fun hs => ?_
    obtain ⟨d, e, hd, hfirm, halong, hstart⟩ := h'.starts s hs
    exact ⟨d, e, h.along.trans hd, hfirm, halong, hstart⟩
  · refine (mem_append.1 hs).elim (hss.stops s) fun hs => ?_
    obtain ⟨e, hfirm, halong, hstop⟩ := h'.stops s hs
    exact ⟨e, .of_along h.along hfirm, halong, hstop⟩

theorem mono (h : Settled b ss c) (hsubset : ts ⊆ ss) : Settled b ts c :=
  ⟨h.along, fun s hs => h.starts s (hsubset hs), fun s hs => h.stops s (hsubset hs)⟩

/-- One more span, in front of some of the others. -/
theorem insert {s : Span} (h : Settled b (ss ++ ts) c) (hstart : StartsWithin b c s.start)
    (hstop : StopsWithin b c s.stop) : Settled b (ss ++ s :: ts) c := by
  have hcases {t : Span} (ht : t ∈ ss ++ s :: ts) : t = s ∨ t ∈ ss ++ ts := by
    simpa [or_left_comm] using ht
  refine ⟨h.along, fun t ht => ?_, fun t ht => ?_⟩
  · rcases hcases ht with rfl | ht
    · exact hstart
    · exact h.starts t ht
  · rcases hcases ht with rfl | ht
    · exact hstop
    · exact h.stops t ht

/-- The span of all that was read, if it was read up to such a character. -/
theorem cons (hfirm : Firm b c) (h : Settled b ss c) :
    Settled b (⟨b.position, c.position⟩ :: ss) c where
  along := h.along
  starts := forall_mem_cons.2 ⟨⟨b, c, refl_of _ b, hfirm, refl_of _ c, rfl⟩, h.starts⟩
  stops := forall_mem_cons.2 ⟨⟨c, hfirm, refl_of _ c, rfl⟩, h.stops⟩

end Settled

/-- The places of what the parser reads end with a token. -/
abbrev Settles (p : Parser α) (places : α → List Span) : Prop := Gathers Settled p places

theorem leaves_of_reads [Reads (Over InRow) p] : Leaves Settled p :=
  fun _ _ _ _ _ hc hdone => hc.extend (inRow_of_done hdone).along

namespace Settles

variable {ν : α → List Span}

/-- It is enough to look at a cursor with nothing in front of it. -/
theorem of_alone (h : ∀ c a r, p c = .done a r → Settled c (ν a) r) : Settles p ν :=
  fun _ _ c a r hc hdone => hc.append (h c a r hdone)

theorem alone {a : α} (h : Settles p ν) (hdone : p c = .done a r) : Settled c (ν a) r :=
  h c [] c a r (.refl c) hdone

/-- A lexeme ends with its token, and the white space behind is not part of it. -/
theorem lexeme [Reads Firm p] (h : Settles p ν) : Settles (lexeme p) fun x => x.2 :: ν x.1 := by
  refine of_alone fun c x r hdone => ?_
  obtain ⟨y, c', hspanned, _, c'', hspaces, hpure⟩ := bind₂_eq_done.1 hdone
  cases hpure
  obtain ⟨a, hp, rfl⟩ := spanned_eq_done.1 hspanned
  exact ((h.alone hp).cons (firm_of_done hp)).extend (along_of_done hspaces)

/-- Places of which nothing is made may be forgotten. -/
theorem forget (h : Settles p ν) : Leaves Settled p :=
  fun b ss => (h b ss).imp (fun _ hc => hc) fun _ _ hr => hr.mono (subset_append_left ss _)

end Settles

/-! ## Expressions -/

/-- What the parser builds from a span has that place first and then places inside; all of it ends
with a token. -/
def Frames (p : Parser (Span → Expr)) : Prop :=
  ∀ c build r, p c = .done build r → Firm c r ∧
    ∃ inner, Settled c inner r ∧ ∀ span, (build span).places = span :: inner

theorem Frames.orElse {p q : Parser (Span → Expr)} (h : Frames p) (h' : Frames q) :
    Frames (p <|> q) :=
  fun c build r hdone => (orElse_eq_done hdone).elim (h c build r) (h' c build r)

theorem Frames.leaf (leaf : Span → String → Expr) (p : Parser String) [Reads Firm p]
    (hleaf : ∀ span s, (leaf span s).places = [span]) :
    Frames (do let s ← p; return fun span => leaf span s) := by
  intro c build r hdone
  obtain ⟨s, c₁, hs, hpure⟩ := bind_eq_done.1 hdone
  cases hpure
  have hfirm := firm_of_done hs
  exact ⟨hfirm, [], (Settled.refl c).extend hfirm.along, fun span => hleaf span s⟩

section
variable {e : Parser Expr}

theorem frames_parenthesized (he : Settles e Expr.places) : Frames (parenthesized e) := by
  intro c build r hdone
  obtain ⟨_, c₁, hopen, inner, c₂, hinner, _, c₃, hclose, hdone⟩ := bind₃_eq_done.1 hdone
  cases hdone
  have h₁ : Settled c [] c₁ := (Settled.refl c).extend (along_of_done hopen)
  have h₂ : Settled c inner.places c₂ := h₁.append (he.alone hinner)
  have hfirm : Firm c₂ r := firm_of_done hclose
  exact ⟨.of_along h₂.along hfirm, inner.places, h₂.extend hfirm.along, fun _ => rfl⟩

theorem frames_register (he : Settles e Expr.places) : Frames (register e) := by
  intro c build r hdone
  obtain ⟨kind, c₁, hkind, _, c₂, hopen, _, c₃, hspaces, indices, c₄, hindices, hdone⟩ :=
    bind₄_eq_done.1 hdone
  obtain ⟨comment, c₅, hcomment, _, c₆, hclose, hdone⟩ := bind₂_eq_done.1 hdone
  cases hdone
  have h₃ : Settled c [] c₃ := (Settled.refl c).extend <|
    (along_of_done hkind).trans <| (along_of_done hopen).trans (along_of_done hspaces)
  have hlist : Settles (sepBy (symbol ",") e) fun es => es.flatMap Expr.places :=
    .sepBy leaves_of_reads he
  have h₄ : Settled c (indices.flatMap Expr.places) c₄ := h₃.append (hlist.alone hindices)
  have h₅ := h₄.extend (along_of_done hcomment)
  have hfirm : Firm c₅ r := firm_of_done hclose
  refine ⟨.of_along h₅.along hfirm, _, h₅.extend hfirm.along, fun span => ?_⟩
  rw [Expr.places, Expr.placesAll_eq_flatMap]

theorem settles_operand (he : Settles e Expr.places) : Settles (operand e) Expr.places := by
  have hframes : Frames _ :=
    (frames_parenthesized he).orElse <|
    (Frames.leaf .number number fun _ _ => rfl).orElse <|
    (Frames.leaf .string stringLiteral fun _ _ => rfl).orElse <|
    (Frames.leaf .system systemVariable fun _ _ => rfl).orElse <|
    (frames_register he).orElse (Frames.leaf .identifier identifier fun _ _ => rfl)
  refine .of_alone fun c a r hdone => ?_
  obtain ⟨x, c', hlexeme, hpure⟩ := bind_eq_done.1 hdone
  cases hpure
  obtain ⟨y, c₁, hspanned, _, c₂, hspaces, hpure⟩ := bind₂_eq_done.1 hlexeme
  cases hpure
  obtain ⟨build, hbuild, rfl⟩ := spanned_eq_done.1 hspanned
  obtain ⟨hfirm, inner, hinner, hplaces⟩ := hframes c build c₁ hbuild
  rw [hplaces]
  exact (hinner.cons hfirm).extend (along_of_done hspaces)

/-- Signs in front of an expression end where it does. -/
theorem settled_signs {signs : List (Position × UnaryOp)} {inner : Expr}
    (h : Settled b (ss ++ inner.places) c) (hsigns : ∀ sign ∈ signs, StartsWithin b c sign.1) :
    Settled b (ss ++ (signs.foldr (fun (start, op) e => .unary ⟨start, e.span.stop⟩ op e)
      inner).places) c := by
  induction signs with
  | nil => exact h
  | cons sign signs ih =>
    obtain ⟨hsign, hsigns⟩ := forall_mem_cons.1 hsigns
    have hrest := ih hsigns
    rw [foldr_cons, Expr.places]
    have hstop := hrest.stops _ (mem_append_right ss (Expr.span_mem_places _))
    exact hrest.insert hsign hstop

theorem settles_signed (he : Settles e Expr.places) : Settles (signed e) Expr.places := by
  refine .of_alone fun c a r hdone => ?_
  obtain ⟨signs, c₁, hsigns, inner, c₂, hinner, hpure⟩ := bind₂_eq_done.1 hdone
  cases hpure
  -- each sign starts between the beginning and the operand
  have hmarks : Along c c₁ ∧ ∀ sign ∈ signs, ∃ d, Along c d ∧ Along d c₁ ∧ sign.1 = d.position := by
    refine Yields.many (I := fun as c' => Along c c' ∧
      ∀ sign ∈ as, ∃ d, Along c d ∧ Along d c' ∧ sign.1 = d.position) (fun as => ?_) [] c signs c₁
      ⟨refl_of _ c, by simp⟩ hsigns
    intro d sign d' hd hread
    obtain ⟨_, _, hposition, hread⟩ := bind_eq_done.1 hread
    cases hposition
    obtain ⟨op, d₁, hop, hpure⟩ := bind_eq_done.1 hread
    cases hpure
    have halong := along_of_done hop
    refine ⟨hd.1.trans halong, forall_mem_append.2 ⟨fun mark hmark => ?_, ?_⟩⟩
    · obtain ⟨m, hm, hbehind, hstart⟩ := hd.2 mark hmark
      exact ⟨m, hm, hbehind.trans halong, hstart⟩
    · simpa using ⟨d, hd.1, halong, rfl⟩
  have hplaces : Settled c₁ inner.places r := (settles_operand he).alone hinner
  have hall : Settled c ([] ++ inner.places) r := ((Settled.refl c).extend hmarks.1).append hplaces
  refine settled_signs hall fun sign hsign => ?_
  obtain ⟨d, hd, hbehind, hstart⟩ := hmarks.2 sign hsign
  obtain ⟨e, hfirm, halong, -⟩ := hplaces.stops _ inner.span_mem_places
  exact ⟨d, e, hd, .of_along hbehind hfirm, halong, hstart⟩

/-- Two expressions that are joined start where the first does and stop where the second does. -/
theorem settled_join {left right : Expr} (op : BinaryOp)
    (h : Settled b (ss ++ left.places ++ right.places) c) :
    Settled b (ss ++ (left.join op right).places) c := by
  have hstart := h.starts left.span (by simp [Expr.span_mem_places])
  have hstop := h.stops right.span (by simp [Expr.span_mem_places])
  rw [Expr.join, Expr.places]
  rw [append_assoc] at h
  exact h.insert hstart hstop

end

/-! ## Instructions -/

/-- The places of the parts of an instruction. -/
def places : Harvest Span where
  expr := Expr.places
  name _ span := [span]
  label := LabelReference.places
  definition d := [d.span]
  action a := a.kind.places
  option o := o.kind.places

theorem places_actionKind (kind : ActionKind) : places.actionKind kind = kind.places := by
  cases kind <;> rfl

theorem places_optionKind (kind : MotionOptionKind) : places.optionKind kind = kind.places := by
  cases kind <;> rfl

/-- What is gathered of an instruction are its places. -/
theorem places_instructionKind : places.instructionKind = InstructionKind.places := by
  funext kind
  cases kind with
  | motion m =>
    obtain ⟨type, destination, speed, termination, options⟩ := m
    cases speed <;> cases termination <;> rfl
  | _ => rfl

theorem settles_name : Settles (spanned identifier) fun x => places.name x.1 x.2 := by
  refine .of_alone fun c x r hdone => ?_
  obtain ⟨name, hread, rfl⟩ := spanned_eq_done.1 hdone
  have hfirm := firm_of_done hread
  exact .cons hfirm ((Settled.refl c).extend hfirm.along)

theorem settlesOperands : GathersOperands Settled places where
  row := leaves_of_reads
  forget := Settles.forget
  operand := settles_operand
  signed := settles_signed
  join {_ _ _ _ _ op} h := settled_join op h
  name := settles_name

theorem settles_labelReference : Settles labelReference LabelReference.places := by
  intro b ss
  refine (Settles.lexeme settlesOperands.labelTarget b ss).bind fun ⟨target, _⟩ =>
    .pure fun _ hc => ?_
  cases target <;> exact hc

theorem settles_labelDefinition : Settles labelDefinition fun d => [d.span] := by
  intro b ss
  exact (Settles.lexeme (ν := fun _ => []) (.of_leaves leaves_of_reads fun _ => rfl) b ss).bind
    fun _ => .pure fun _ hc => hc

/-- The span of an action or a motion option itself is not among its places. -/
theorem settles_spanned {ν : α → List Span} (h : Settles p ν) : Settles (spanned p) fun x => ν x.1 := by
  refine .of_alone fun c x r hdone => ?_
  obtain ⟨a, hread, rfl⟩ := spanned_eq_done.1 hdone
  exact h.alone hread

theorem settlesParts : GathersParts Settled places where
  toGathersOperands := settlesOperands
  label := settles_labelReference
  definition := settles_labelDefinition
  action := settlesOperands.action settles_labelReference fun p h => by
    rw [funext places_actionKind] at h
    exact settles_spanned h
  option := settlesOperands.motionOption settles_labelReference fun p h => by
    rw [funext places_optionKind] at h
    exact settles_spanned h

/-- **Labels, the names of programs and expressions end with a token.** -/
theorem settles_instructionKind : Settles instructionKind InstructionKind.places :=
  places_instructionKind ▸ settlesParts.instructionKind

end RobotSource.Listing.Grammar
