import RobotSource.Proofs.Karel.Grammar.Statement
/-!
# Comparing how Karel declarations are read

Where the tokens of two texts are read alike, so are types (`Lexis.dataType`), declarations
(`Lexis.declaration`) and everything of a program behind its name (`Lexis.content`).
-/

namespace RobotSource.Karel.Grammar

open Parsing Parsing.Parser Text List

/-! ## Groups of names -/

/-- A view of names that are declared together. -/
def NameGroup.view (v : View) (g : NameGroup) : NameGroup :=
  ⟨g.names.map fun (name, span) => (v.name name, v.span span), g.storage.map v.name, g.type.view v⟩

/-- The items of a view are the views of the items. -/
theorem NameGroup.map_items {α : Type} {v : View} {f : α → α}
    {build : String → Option String → DataType → Span → α}
    (hf : ∀ name storage type span, f (build name storage type span) =
      build (v.name name) (storage.map v.name) (type.view v) (v.span span)) (gs : List NameGroup) :
    (NameGroup.items build gs).map f = NameGroup.items build (gs.map (NameGroup.view v)) := by
  have hgroup (g : NameGroup) :
      (g.names.map fun (name, span) => build name g.storage g.type (span.cover g.type.span)).map f =
      (g.view v).names.map fun (name, span) =>
        build name (g.view v).storage (g.view v).type (span.cover (g.view v).type.span) := by
    simp only [NameGroup.view, map_map, DataType.span_view]
    refine map_congr_left fun x _ => ?_
    simp only [Function.comp_apply, hf, View.span_cover]
  rw [NameGroup.items, NameGroup.items, map_flatMap, flatMap_map]
  exact congrArg (gs.flatMap ·) (funext hgroup)

theorem NameGroup.map_items_eq {α : Type} {v v' : View} {f f' : α → α}
    {build : String → Option String → DataType → Span → α} {gs gs' : List NameGroup}
    (h : List.Forall₂ (fun g g' => NameGroup.view v g = NameGroup.view v' g') gs gs')
    (hf : ∀ name storage type span, f (build name storage type span) =
      build (v.name name) (storage.map v.name) (type.view v) (v.span span))
    (hf' : ∀ name storage type span, f' (build name storage type span) =
      build (v'.name name) (storage.map v'.name) (type.view v') (v'.span span)) :
    (NameGroup.items build gs).map f = (NameGroup.items build gs').map f' := by
  rw [map_items hf, map_items hf', map_eq_of_forall₂ h]

/-! ## The content of a program -/

/-- What stands behind the name of a program: the items before the main body, the main body, the
declarations behind it, and where the text ends. -/
structure Content where
  prologue : List PrologueItem
  main : List Statement
  trailing : List Declaration
  stop : Position

/-- Everything behind the name of a program. -/
def content : Parser Content := do
  blanks
  let prologue ← many ((.directive <$> directive) <|> (.declaration <$> declaration))
  kw "BEGIN"
  let main ← statements
  kw "END"
  let _ ← ident
  let trailing ← many declaration
  let stop ← position
  let _ ← endOfText
  return ⟨prologue, main, trailing, stop⟩

/-- The program with the given name, header and place of its beginning. -/
def Content.program (name header : String) (start : Position) (k : Content) : Program where
  name := name
  header := header
  directives := k.prologue.filterMap PrologueItem.directive?
  declarations := k.prologue.filterMap PrologueItem.declaration? ++ k.trailing
  main := k.main
  span := ⟨start, k.stop⟩

/-- A program is its name, with the comment around it, and its content. -/
theorem program_eq : program = (do
    let top ← cursor
    blanks
    let leading := top.upTo (← cursor)
    kw "PROGRAM"
    let name ← name
    spaces
    let header := headerComment leading (← cursor).rest
    let k ← content
    return k.program name header top.position) := by
  simp only [program, content, Content.program, bind_assoc, pure_bind]

def PrologueItem.view (v : View) : PrologueItem → PrologueItem
  | .directive d => .directive (d.view v)
  | .declaration d => .declaration (d.view v)

def Content.view (v : View) (k : Content) : Content :=
  ⟨k.prologue.map (PrologueItem.view v), k.main.map (Statement.view v),
    k.trailing.map (Declaration.view v), v.position k.stop⟩

/-- The view of a program is the program of the views. -/
theorem Content.view_program (v : View) (name header : String) (start : Position) (k : Content) :
    (k.program name header start).view v =
      (k.view v).program (v.name name) (v.literal header) (v.position start) := by
  have hdirectives : (k.prologue.filterMap PrologueItem.directive?).map (Directive.view v) =
      (k.prologue.map (PrologueItem.view v)).filterMap PrologueItem.directive? := by
    rw [map_filterMap, filterMap_map]
    refine congrArg (List.filterMap · _) (funext fun item => ?_)
    cases item <;> rfl
  have hdeclarations : (k.prologue.filterMap PrologueItem.declaration?).map (Declaration.view v) =
      (k.prologue.map (PrologueItem.view v)).filterMap PrologueItem.declaration? := by
    rw [map_filterMap, filterMap_map]
    refine congrArg (List.filterMap · _) (funext fun item => ?_)
    cases item <;> rfl
  rw [Content.program, Content.program, Program.view, hdirectives, map_append, hdeclarations]
  rfl

/-- The two items are the same in the views, if they are no directives; directives are related by
`D`. -/
inductive SameItem (v v' : View) (D : Directive → Directive → Prop) :
    PrologueItem → PrologueItem → Prop
  | directive {a b : Directive} (h : D a b) : SameItem v v' D (.directive a) (.directive b)
  | declaration {a b : Declaration} (h : a.view v = b.view v') :
    SameItem v v' D (.declaration a) (.declaration b)

/-- The two contents are the same in the views, but for directives and the end of the text, which are
related by `D` and `Q`. -/
structure SameContent (v v' : View) (D : Directive → Directive → Prop)
    (Q : Position → Position → Prop) (k k' : Content) : Prop where
  prologue : List.Forall₂ (SameItem v v' D) k.prologue k'.prologue
  main : k.main.map (Statement.view v) = k'.main.map (Statement.view v')
  trailing : k.trailing.map (Declaration.view v) = k'.trailing.map (Declaration.view v')
  stop : Q k.stop k'.stop

theorem SameContent.view_eq {v v' : View} {k k' : Content}
    (h : SameContent v v' (fun a b => a.view v = b.view v') (fun p q => v.position p = v'.position q)
      k k') : k.view v = k'.view v' := by
  have hprologue : List.Forall₂ (fun a b => PrologueItem.view v a = PrologueItem.view v' b)
      k.prologue k'.prologue := by
    refine h.prologue.imp fun a b hab => ?_
    cases hab with
    | directive h => rw [PrologueItem.view, PrologueItem.view, h]
    | declaration h => rw [PrologueItem.view, PrologueItem.view, h]
  rw [Content.view, Content.view, map_eq_of_forall₂ hprologue, h.main, h.trailing, h.stop]

/-- What is made of a span is the same in the views. -/
def SameTypeMaking (v v' : View) (f g : Span → DataType) : Prop :=
  ∀ s t, SameSpan v v' s t → (f s).view v = (g t).view v'

namespace Lexis

variable {loose tight : Cursor → Cursor → Prop} {v v' : View}
  (L : Lexis loose tight v v')
include L

/-! ## Types -/

theorem arrayBound : Agrees tight tight Grammar.arrayBound fun a b => a.view v = b.view v' :=
  .orElse (.seqRight L.punct (.pure rfl)) (.map_view L.expression)

theorem stringType : Agrees tight loose Grammar.stringType (SameTypeMaking v v') := by
  refine .pass L.kw <| .pass L.punct <| L.expression.bind fun a b hab => .pass L.mark ?_
  refine .pure fun s t hst => ?_
  rw [DataType.view, DataType.view, hst, hab.eq]

theorem motionGroup : Agrees tight tight Grammar.motionGroup fun _ _ => True := by
  have hgroup : Agrees tight tight
      (do Grammar.kw "IN"; Grammar.groupMark; Grammar.blanks
          let _ ← Grammar.expression
          Grammar.punct ']')
      fun _ _ => True :=
    .pass L.kw <| .pass L.groupMark <| .pass L.gap <| .pass L.expression <|
      L.punct
  simpa only [Grammar.motionGroup, Grammar.groupMark, Grammar.punct, bind_assoc, pure_bind] using
    hgroup

section
variable {τ : Parser DataType} (hτ : Agrees tight tight τ fun a b => a.view v = b.view v')
include hτ

theorem nameGroupOf : Agrees tight tight (Grammar.nameGroupOf τ) (fun g g' => g.view v = g'.view v') := by
  refine (Keeps.sepBy1 L.punct L.lexedName).bind fun ns ns' hns => ?_
  refine .bind (.maybe (.seqRight L.kw L.ident)) fun o o' ho => .pass L.punct ?_
  refine hτ.bind fun a b hab => .pure ?_
  have hpairs : List.Forall₂ (fun x y => (v.name x.1, v.span x.2) = (v'.name y.1, v'.span y.2))
      ns ns' := hns.imp fun x y hxy => by rw [hxy.1, hxy.2.eq]
  rw [NameGroup.view, NameGroup.view, hab, map_eq_of_rel ho]
  exact congrArg (NameGroup.mk · _ _) (map_eq_of_forall₂ hpairs)

theorem arrayType : Agrees tight tight (Grammar.arrayType τ) (SameTypeMaking v v') := by
  have hbounds : Agrees tight tight
      (do Grammar.punct '['; let bounds ← sepBy1 (Grammar.punct ',') Grammar.arrayBound
          Grammar.punct ']'; return bounds)
      fun as bs => as.map (ArrayBound.view v) = bs.map (ArrayBound.view v') :=
    .pass L.punct <| (Keeps.sepBy1 L.punct L.arrayBound).bind fun _ _ habs =>
      .pass L.punct <| .pure (map_eq_of_forall₂ habs)
  refine .pass L.kw <| .bind (.maybe hbounds) fun o o' ho => .pass L.kw ?_
  refine hτ.bind fun a b hab => .pure fun s t hst => ?_
  rw [DataType.view, DataType.view, hst, hab, getD_eq_of_rel ho]

theorem pathType : Agrees tight tight (Grammar.pathType τ) (SameTypeMaking v v') := by
  refine .pass L.kw <| .bind (.maybe <| .pass L.kw <| .pass L.op <| hτ.bind
    fun _ _ hab => .pass L.punct (.pure hab)) fun o o' ho => .pass L.kw <| .pass L.op ?_
  refine hτ.bind fun a b hab => .pure fun s t hst => ?_
  rw [DataType.view, DataType.view, hst, hab, DataType.viewHeader_eq_map,
    DataType.viewHeader_eq_map, map_eq_of_rel ho]

variable [∀ n, Orderly n true τ τ]

theorem structureType : Agrees tight tight (Grammar.structureType τ) (SameTypeMaking v v') := by
  refine .pass L.kw <| (L.nameGroupOf hτ).many1.bind fun gs gs' hgs => .pass L.kw ?_
  refine .pure fun s t hst => ?_
  rw [DataType.view, DataType.view, hst, DataType.viewFields_eq_map, DataType.viewFields_eq_map]
  refine congrArg (DataType.structure (v'.span t)) ?_
  exact NameGroup.map_items_eq hgs (fun _ _ _ _ => rfl) fun _ _ _ _ => rfl

theorem dataTypeOf : Agrees tight tight (Grammar.dataTypeOf τ) (fun a b => a.view v = b.view v') := by
  refine (L.lexeme (V := SameTypeMaking v v') ?_).bind fun x y hxy =>
    .pass (.maybe L.motionGroup) <| .pure (hxy.1 _ _ hxy.2)
  refine (L.loose_of (L.arrayType hτ)).orElse <| (L.loose_of (L.structureType hτ)).orElse <|
    (L.loose_of (L.pathType hτ)).orElse <| L.stringType.orElse ?_
  exact L.identifier.map fun a b hab s t hst => L.type a b s t hab hst

end

/-- **Where the tokens are read alike, so is every type.** -/
theorem dataType : Agrees tight tight Grammar.dataType fun a b => a.view v = b.view v' :=
  .nested (s := true) (fun _ _ _ _ => inferInstance) fun _ _ h => L.dataTypeOf h

theorem nameGroup : Agrees tight tight Grammar.nameGroup fun g g' => g.view v = g'.view v' :=
  (L.nameGroupOf L.dataType)

/-! ## Declarations -/

theorem constant : Agrees tight tight Grammar.constant fun a b => a.view v = b.view v' := by
  refine L.lexedName.bind fun x y hxy => .pass L.op <| L.expression.bind fun a b hab =>
    .pure ?_
  rw [Constant.view, Constant.view, hxy.1, hab.eq, hxy.2.cover hab.span]

theorem typeDeclaration : Agrees tight tight Grammar.typeDeclaration
    fun a b => a.view v = b.view v' := by
  refine L.lexedName.bind fun x y hxy => .bind (.maybe (.seqRight L.kw L.ident))
    fun o o' ho => .pass L.op <| L.dataType.bind fun a b hab => .pure ?_
  have hspan : SameSpan v v' a.span b.span := by
    rw [SameSpan, ← DataType.span_view, ← DataType.span_view, hab]
  rw [TypeDeclaration.view, TypeDeclaration.view, hxy.1, map_eq_of_rel ho, hab, hxy.2.cover hspan]

theorem dataSection : Agrees tight tight Grammar.dataSection
    fun a b => a.view v = b.view v' := by
  have hvars : Agrees tight tight Grammar.varItems
      fun a b => a.map (Variable.view v) = b.map (Variable.view v') :=
    L.nameGroup.many1.map fun gs gs' hgs =>
      NameGroup.map_items_eq hgs (fun _ _ _ _ => rfl) fun _ _ _ _ => rfl
  refine .orElse ?_ (.orElse ?_ (.map_view (.seqRight L.kw hvars)))
  · refine .map (.seqRight L.kw L.constant.many1) fun a b hab => ?_
    rw [DataSection.view, DataSection.view, map_eq_of_forall₂ hab]
  · refine .map (.seqRight L.kw L.typeDeclaration.many1) fun a b hab => ?_
    rw [DataSection.view, DataSection.view, map_eq_of_forall₂ hab]

theorem dataDeclaration : Agrees tight tight Grammar.dataDeclaration
    fun a b => a.view v = b.view v' := by
  refine (L.coded L.loose_of_tight L.dataSection).bind fun x y hxy => .pure ?_
  rw [DataDeclaration.view, DataDeclaration.view, hxy.1, hxy.2]

theorem parameters : Agrees tight tight Grammar.parameters
    fun a b => a.map (Variable.view v) = b.map (Variable.view v') :=
  .pass L.punct <| (Keeps.sepBy1 L.punct L.nameGroup).bind fun _ _ hgs =>
    .pass L.punct <| .pure (NameGroup.map_items_eq hgs (fun _ _ _ _ => rfl) fun _ _ _ _ => rfl)

/-- The name at the end of a routine is compared with the name at its beginning. -/
theorem matchingIdent {what what' : String} (hwhat : v.name what = v'.name what') :
    Keeps tight tight (fun _ _ => True) (Grammar.matching what Grammar.ident)
      (Grammar.matching what' Grammar.ident) := by
  intro c d hcd
  rw [Grammar.matching, Grammar.matching]
  have hident := L.ident c d hcd
  generalize Grammar.ident c = o, Grammar.ident d = o' at hident
  cases hident with
  | done hab hrest =>
    simp only [L.matching _ _ _ _ hab hwhat]
    split
    · exact .done trivial hrest
    · exact .failed
  | failed => exact .failed
  | aborted => exact .aborted

theorem routineBody {name name' : String} (hname : v.name name = v'.name name') :
    Keeps tight tight
      (fun a b => a.1.map (DataDeclaration.view v) = b.1.map (DataDeclaration.view v') ∧
        a.2.map (Statement.view v) = b.2.map (Statement.view v'))
      (Grammar.routineBody name) (Grammar.routineBody name') :=
  L.dataDeclaration.many.bind fun _ _ hlocals => .pass L.kw <| L.statements.bind
    fun _ _ hbody => .pass L.kw <| .pass (L.matchingIdent hname) <|
    .pure ⟨map_eq_of_forall₂ hlocals, hbody⟩

theorem routine : Agrees tight tight Grammar.routine fun a b => a.view v = b.view v' := by
  refine .pass L.kw <| L.lexedName.bind fun x y hxy => ?_
  refine .bind (.maybe L.parameters) fun ps ps' hps => ?_
  refine .bind (.maybe (.seqRight L.punct L.dataType)) fun r r' hr => ?_
  refine .bind (.maybe (.seqRight L.kw L.ident)) fun o o' ho => ?_
  cases ho with
  | some howner =>
    refine .pure ?_
    rw [Routine.view, Routine.view, hxy.1, hxy.2, getD_eq_of_rel hps, map_eq_of_rel hr,
      Option.map_some, Option.map_some, howner]
    rfl
  | none =>
    refine ((L.routineBody hxy.1).maybe).bind fun k k' hk => .pure ?_
    rw [Routine.view, Routine.view, hxy.1, hxy.2, getD_eq_of_rel hps, map_eq_of_rel hr]
    cases hk with
    | none => rfl
    | some h => simp only [Option.map_some, Option.getD_some, h.1, h.2, Option.map_none]

theorem declaration : Agrees tight tight Grammar.declaration
    fun a b => a.view v = b.view v' := by
  refine .bind (L.coded L.loose_of_tight (V := fun a b : DeclarationKind => a.view v = b.view v')
    (.orElse (.map_view L.dataSection) (.map_view L.routine))) fun x y hxy => .pure ?_
  rw [Declaration.view, Declaration.view, hxy.1, hxy.2]

/-- **Where the tokens are read alike, so is all that follows the name of a program.** Directives and
the end of the text are no tokens; what is known of them is asked for. -/
theorem content {D : Directive → Directive → Prop} {Q : Position → Position → Prop}
    (hD : Agrees tight tight Grammar.directive D)
    (hQ : ∀ c d, tight c d → Q c.position d.position) :
    Keeps loose tight (SameContent v v' D Q) Grammar.content Grammar.content := by
  have hitem : Agrees tight tight
      ((PrologueItem.directive <$> Grammar.directive) <|>
        (PrologueItem.declaration <$> Grammar.declaration))
      (SameItem v v' D) :=
    (hD.map fun _ _ hab => .directive hab).orElse (L.declaration.map fun _ _ hab => .declaration hab)
  have hend : Keeps tight tight (fun _ _ => True) endOfText endOfText := by
    intro c d hcd
    rw [endOfText, endOfText, L.atEnd c d hcd]
    split
    · exact .done trivial hcd
    · exact .failed
  refine .pass L.gap <| hitem.many.bind fun items items' hitems => .pass L.kw ?_
  refine L.statements.bind fun ss tt hmain => .pass L.kw <| .pass L.ident ?_
  refine L.declaration.many.bind fun ds ds' hds => ?_
  refine (Keeps.position hQ).bind fun p q hpq => .pass hend <| .pure ?_
  exact ⟨hitems, hmain, map_eq_of_forall₂ hds, hpq⟩

end Lexis

end RobotSource.Karel.Grammar
