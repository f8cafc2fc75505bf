import Mathlib
import RobotSource.Completion.Path
import RobotSource.Proofs.Completion.Tokens
/-!
# Paths follow the declared types

A path is a walk through the declarations of a program. It begins at a variable, goes on to a field of
the structure that has been reached, and a subscript leads to the elements of an array (`Leads`).
Before each of these steps the name of a type is followed to the type that it stands for, through no
more than fifteen declarations (`Stands`). What is offered behind a path are the fields of the
structure at the end of this walk, and nothing if the walk does not get there.

A type that is declared in terms of itself stands for nothing (`Cyclic.not_stands`), so no walk leads
over it.
-/

namespace RobotSource.Completion

open Karel Text List

variable {α : Type} {p : Program} {t u s : DataType} {n : Nat}

/-! ## Names -/

/-- The first of several things that has a name, the case of ASCII letters left aside. -/
def FirstNamed (nameOf : α → String) (items : List α) (name : String) (a : α) : Prop :=
  ∃ before after, items = before ++ a :: after ∧ sameIgnoringCase (nameOf a) name = true ∧
    ∀ b ∈ before, sameIgnoringCase (nameOf b) name = false

theorem find?_eq_some_iff_firstNamed {nameOf : α → String} {items : List α} {name : String} {a : α} :
    (items.find? fun b => sameIgnoringCase (nameOf b) name) = some a ↔
      FirstNamed nameOf items name a := by
  rw [find?_eq_some_iff_append, FirstNamed]
  constructor
  · rintro ⟨hsame, before, after, hitems, hbefore⟩
    exact ⟨before, after, hitems, hsame, fun b hb => by simpa using hbefore b hb⟩
  · rintro ⟨before, after, hitems, hsame, hbefore⟩
    exact ⟨hsame, before, after, hitems, fun b hb => by simpa using hbefore b hb⟩

/-! ## What a type stands for -/

/-- The type is the name of a declared type. -/
def Alias (p : Program) (t u : DataType) : Prop :=
  ∃ span name d, t = .named span name ∧ FirstNamed TypeDeclaration.name p.types name d ∧ u = d.type

/-- So many names lead from one type to another, which is not a name. -/
inductive Aliases (p : Program) : Nat → DataType → DataType → Prop
  | here {t : DataType} (h : ∀ span name, t ≠ .named span name) : Aliases p 0 t t
  | next {n : Nat} {t u s : DataType} (h : Alias p t u) (hrest : Aliases p n u s) :
      Aliases p (n + 1) t s

/-- What a type stands for: the type itself, or the one behind its name, with at most fifteen names
on the way. -/
def Stands (p : Program) (t s : DataType) : Prop := ∃ n ≤ 15, Aliases p n t s

theorem alias_named_iff {span : Span} {name : String} :
    Alias p (.named span name) u ↔ ∃ d, p.findType? name = some d ∧ u = d.type := by
  constructor
  · rintro ⟨_, _, d, heq, hd, rfl⟩
    cases heq
    exact ⟨d, find?_eq_some_iff_firstNamed.2 hd, rfl⟩
  · rintro ⟨d, hd, rfl⟩
    exact ⟨span, name, d, rfl, find?_eq_some_iff_firstNamed.1 hd, rfl⟩

theorem resolveWithin_eq_some_iff {depth : Nat} :
    resolveWithin p depth t = some s ↔ ∃ n < depth, Aliases p n t s := by
  fun_induction resolveWithin p depth t with
  | case1 => simp
  | case2 depth span name ih =>
    simp only [Option.bind_eq_some_iff, ih]
    constructor
    · rintro ⟨d, hd, n, hn, hrest⟩
      exact ⟨n + 1, by omega, .next (alias_named_iff.2 ⟨d, hd, rfl⟩) hrest⟩
    · rintro ⟨_, hn, h⟩
      cases h with
      | here h => exact absurd rfl (h span name)
      | next h hrest =>
        obtain ⟨d, hd, rfl⟩ := alias_named_iff.1 h
        exact ⟨d, hd, _, by omega, hrest⟩
  | case3 t depth hplain =>
    rw [Option.some_inj]
    constructor
    · rintro rfl
      exact ⟨0, Nat.succ_pos _, .here hplain⟩
    · rintro ⟨_, -, h⟩
      cases h with
      | here _ => rfl
      | next h _ =>
        obtain ⟨span, name, d, heq, -⟩ := h
        exact absurd heq (hplain span name)

theorem resolveType_eq_some_iff : resolveType p t = some s ↔ Stands p t s := by
  rw [resolveType, resolveWithin_eq_some_iff, Stands]
  simp only [typeDepth, Nat.lt_succ_iff]

theorem elementType?_eq_some_iff :
    elementType? p t = some s ↔ ∃ span bounds, Stands p t (.array span bounds s) := by
  simp only [elementType?, ← resolveType_eq_some_iff]
  split
  · rename_i hresolved
    simp [hresolved]
  · rename_i hother
    simpa using fun span bounds => hother span bounds s

theorem fields?_eq_some_iff {fields : List (StructureField DataType)} :
    fields? p t = some fields ↔ ∃ span, Stands p t (.structure span fields) := by
  simp only [fields?, ← resolveType_eq_some_iff]
  split
  · rename_i hresolved
    simp [hresolved]
  · rename_i hother
    simpa using fun span => hother span fields

/-! ## Types declared in terms of themselves -/

/-- From the type one comes to a type that leads back to itself. -/
def Cyclic (p : Program) (t : DataType) : Prop :=
  ∃ u, Relation.ReflTransGen (Alias p) t u ∧ Relation.TransGen (Alias p) u u

/-- A cycle goes on with a name. -/
theorem Cyclic.exists_alias (h : Cyclic p t) : ∃ u, Alias p t u ∧ Cyclic p u := by
  obtain ⟨u, htu, huu⟩ := h
  rcases Relation.ReflTransGen.cases_head htu with rfl | ⟨v, htv, hvu⟩
  · obtain ⟨v, htv, hvt⟩ := Relation.TransGen.head'_iff.1 huu
    exact ⟨v, htv, t, hvt, huu⟩
  · exact ⟨v, htv, u, hvu, huu⟩

/-- A name is declared by one type at most. -/
theorem Alias.unique (h : Alias p t u) (h' : Alias p t s) : u = s := by
  obtain ⟨span, name, d, rfl, hd, rfl⟩ := h
  obtain ⟨d', hd', rfl⟩ := alias_named_iff.1 h'
  have hfound : p.findType? name = some d := find?_eq_some_iff_firstNamed.2 hd
  rw [Option.some.inj (hfound.symm.trans hd')]

/-- **A type that runs into a cycle stands for nothing.** -/
theorem Cyclic.not_stands (h : Cyclic p t) : ¬ Stands p t s := by
  rintro ⟨n, -, haliases⟩
  induction haliases with
  | here hplain =>
    obtain ⟨u, ⟨span, name, d, heq, -⟩, -⟩ := h.exists_alias
    exact hplain span name heq
  | next halias _ ih =>
    obtain ⟨v, hv, hcyclic⟩ := h.exists_alias
    exact ih (halias.unique hv ▸ hcyclic)

/-! ## Segments -/

/-- A step of a walk. -/
inductive Step where
  /-- to a variable at the beginning, to a field behind it -/
  | named (name : String)
  /-- to the elements of an array -/
  | element

/-- A subscript ends the segment: brackets around anything but a closing bracket. -/
def EndsWith (segment name inner : List Char) : Prop :=
  segment = name ++ '[' :: (inner ++ [']']) ∧ ']' ∉ inner

/-- The steps of a segment. Its subscript is the longest one that ends it. -/
inductive Cut (segment : List Char) : List Step → Prop
  | plain (h : ∀ name inner, ¬ EndsWith segment name inner) :
      Cut segment [.named (String.ofList segment)]
  | subscript {name inner : List Char} (h : EndsWith segment name inner)
      (hlongest : ∀ name' inner', EndsWith segment name' inner' → name.length ≤ name'.length) :
      Cut segment [.named (String.ofList name), .element]

/-- The steps of several segments, one after the other. -/
def Path (segments : List (List Char)) (steps : List Step) : Prop :=
  ∃ cuts, List.Forall₂ Cut segments cuts ∧ steps = cuts.flatten

/-- The steps of a segment that has been cut. -/
def Segment.steps (s : Segment) : List Step :=
  .named s.name :: if s.subscripted then [.element] else []

section
variable {segment name inner before : List Char} {steps steps' : List Step}

/-- Every subscript lies behind the closing bracket before it. -/
theorem EndsWith.exists_eq (h : EndsWith (before.reverse ++ [']']) name inner) :
    ∃ between, name = (before.dropWhile (· != ']')).reverse ++ between ∧
      (before.takeWhile (· != ']')).reverse = between ++ '[' :: inner := by
  obtain ⟨heq, hinner⟩ := h
  have hbefore : before = (inner.reverse ++ ['[']) ++ name.reverse := by
    simpa using congrArg List.reverse heq
  have hopen : ∀ x ∈ inner.reverse ++ ['['], (x != ']') = true := by
    simpa [or_imp, forall_and, forall_mem_ne'] using hinner
  refine ⟨(name.reverse.takeWhile (· != ']')).reverse, ?_, ?_⟩
  · rw [hbefore, dropWhile_append_of_pos hopen, ← reverse_append,
      takeWhile_append_dropWhile, reverse_reverse]
  · rw [hbefore, takeWhile_append_of_pos hopen]
    simp

/-- A segment is cut into the steps that it consists of. -/
theorem cut_ofChars (segment : List Char) : Cut segment (Segment.ofChars segment).steps := by
  rw [Segment.ofChars]
  split
  · rename_i before hreverse
    obtain rfl : segment = before.reverse ++ [']'] := by
      simpa using congrArg List.reverse hreverse
    dsimp only
    split
    · rename_i hopen
      obtain ⟨between, inner, hlast, hbetween⟩ :=
        eq_append_cons_of_mem (contains_iff_mem.1 hopen)
      rw [hlast, takeWhile_append_mark hbetween]
      refine @Cut.subscript _ _ inner ⟨?_, fun hmem => ?_⟩ fun name' inner' h => ?_
      · rw [← takeWhile_append_dropWhile (p := (· != ']')) (l := before), reverse_append,
          hlast]
        simp
      · have hmem : ']' ∈ (before.takeWhile (· != ']')).reverse := by simp [hlast, hmem]
        simpa using mem_takeWhile_imp (mem_reverse.1 hmem)
      · obtain ⟨between', rfl, hlast'⟩ := h.exists_eq
        rw [hlast] at hlast'
        have hle : between.length ≤ between'.length := by
          rcases append_eq_append_iff.1 hlast' with ⟨more, rfl, -⟩ | ⟨more, rfl, hmore⟩
          · simp
          · cases more with
            | nil => simp
            | cons x more =>
              cases hmore
              simp at hbetween
        simpa using hle
    · rename_i hopen
      refine .plain fun name' inner' h => hopen ?_
      obtain ⟨between, -, hbetween⟩ := h.exists_eq
      simp [hbetween]
  · rename_i hreverse
    refine .plain fun name inner h => ?_
    exact hreverse (name ++ '[' :: inner).reverse (by simp [h.1])

theorem Cut.unique (h : Cut segment steps) (h' : Cut segment steps') :
    steps = steps' := by
  cases h with
  | plain hplain =>
    cases h' with
    | plain _ => rfl
    | subscript h _ => exact absurd h (hplain _ _)
  | @subscript name inner h hlongest =>
    cases h' with
    | plain hplain => exact absurd h (hplain _ _)
    | @subscript name' inner' h' hlongest' =>
      have hlength := Nat.le_antisymm (hlongest _ _ h') (hlongest' _ _ h)
      rw [(append_inj (h.1.symm.trans h'.1) hlength).1]

theorem cut_iff : Cut segment steps ↔ (Segment.ofChars segment).steps = steps :=
  ⟨(cut_ofChars segment).unique, fun h => h ▸ cut_ofChars segment⟩

theorem path_iff {segments : List (List Char)} :
    Path segments steps ↔ steps = (segments.map Segment.ofChars).flatMap Segment.steps := by
  have hcuts {cuts : List (List Step)} : List.Forall₂ Cut segments cuts ↔
      (segments.map fun s => (Segment.ofChars s).steps) = cuts := by
    rw [← List.forall₂_eq_eq_eq, List.forall₂_map_left_iff]
    exact ⟨fun h => h.imp fun _ _ => cut_iff.1, fun h => h.imp fun _ _ => cut_iff.2⟩
  simp only [Path, hcuts, exists_eq_left', flatMap_def, map_map, Function.comp_def]

end

/-! ## Walks -/

/-- A step from a type on: to a field of the structure that it stands for, or to the elements of the
array. -/
inductive StepsTo (p : Program) (t : DataType) : Step → DataType → Prop
  | field {span : Span} {fields : List (StructureField DataType)} {name : String}
      {f : StructureField DataType} (h : Stands p t (.structure span fields))
      (hfield : FirstNamed StructureField.name fields name f) : StepsTo p t (.named name) f.type
  | element {span : Span} {bounds : List ArrayBound} {e : DataType}
      (h : Stands p t (.array span bounds e)) : StepsTo p t .element e

/-- Steps from a type on, one after the other. -/
inductive Walk (p : Program) : DataType → List Step → DataType → Prop
  | done {t : DataType} : Walk p t [] t
  | step {t u s : DataType} {x : Step} {steps : List Step} (h : StepsTo p t x u)
      (hrest : Walk p u steps s) : Walk p t (x :: steps) s

/-- **The type to which steps lead**: from a variable of the program to fields of structures and
elements of arrays. -/
def Leads (p : Program) (steps : List Step) (t : DataType) : Prop :=
  ∃ name rest v, steps = .named name :: rest ∧ FirstNamed Variable.name p.vars name v ∧
    Walk p v.type rest t

/-- The type behind a step. -/
def stepFrom? (p : Program) (t : DataType) : Step → Option DataType
  | .named name => do
    let fields ← fields? p t
    let field ← fields.find? fun f => sameIgnoringCase f.name name
    return field.type
  | .element => elementType? p t

section
variable {x : Step} {steps more : List Step} {segments : List Segment}

theorem stepsTo_iff : StepsTo p t x u ↔ stepFrom? p t x = some u := by
  cases x with
  | named name =>
    simp only [stepFrom?, Option.bind_eq_bind, Option.bind_eq_some_iff, Option.pure_def,
      Option.some_inj, fields?_eq_some_iff, find?_eq_some_iff_firstNamed]
    constructor
    · rintro (⟨h, hfield⟩ | _)
      exact ⟨_, ⟨_, h⟩, _, hfield, rfl⟩
    · rintro ⟨_, ⟨_, h⟩, _, hfield, rfl⟩
      exact .field h hfield
  | element =>
    rw [stepFrom?, elementType?_eq_some_iff]
    constructor
    · rintro (_ | h)
      exact ⟨_, _, h⟩
    · rintro ⟨_, _, h⟩
      exact .element h

theorem walk_iff : Walk p t steps s ↔ steps.foldlM (stepFrom? p) t = some s := by
  induction steps generalizing t with
  | nil =>
    rw [foldlM_nil, Option.pure_def, Option.some_inj]
    exact ⟨fun h => by cases h; rfl, fun h => h ▸ .done⟩
  | cons x steps ih =>
    rw [foldlM_cons, Option.bind_eq_bind, Option.bind_eq_some_iff]
    simp only [← ih, ← stepsTo_iff]
    constructor
    · rintro (_ | ⟨h, hrest⟩)
      exact ⟨_, h, hrest⟩
    · rintro ⟨u, h, hrest⟩
      exact .step h hrest

/-- A segment takes the steps that it consists of. -/
theorem fieldType?_eq (p : Program) (t : DataType) (s : Segment) :
    fieldType? p t s = s.steps.foldlM (stepFrom? p) t := by
  rw [Segment.steps]
  cases h : s.subscripted <;> simp [fieldType?, Segment.step?, stepFrom?, h, Option.bind_assoc]

theorem foldlM_fieldType? :
    segments.foldlM (fieldType? p) t = (segments.flatMap Segment.steps).foldlM (stepFrom? p) t := by
  induction segments generalizing t with
  | nil => rfl
  | cons s segments ih =>
    simp only [foldlM_cons, flatMap_cons, foldlM_append, fieldType?_eq, ih]

/-- **The type of a path is the type to which it leads.** -/
theorem pathType?_eq_some_iff :
    pathType? p segments = some t ↔ Leads p (segments.flatMap Segment.steps) t := by
  cases segments with
  | nil => simp [pathType?, Leads]
  | cons s segments =>
    have hstep (u : DataType) :
        s.step? p u = (if s.subscripted then [Step.element] else []).foldlM (stepFrom? p) u := by
      rw [Segment.step?]
      split <;> simp [stepFrom?]
    simp only [pathType?, firstType?, foldlM_fieldType?, Option.bind_assoc, Option.bind_eq_some_iff,
      hstep, flatMap_cons, Segment.steps, cons_append, Leads, walk_iff,
      ← find?_eq_some_iff_firstNamed, List.cons.injEq, Step.named.injEq, and_assoc, exists_and_left,
      exists_eq_left', foldlM_append, Option.bind_eq_bind]
    rfl

/-- Nothing lies behind a type that runs into a cycle, whether the walk ends with it or goes on. -/
theorem Leads.not_stands (h : Leads p steps t) (hcyclic : Cyclic p t)
    (h' : Leads p (steps ++ more) s) : ¬ Stands p s u := by
  obtain ⟨name, rest, v, rfl, hv, hwalk⟩ := h
  obtain ⟨_, _, v', heq, hv', hwalk'⟩ := h'
  obtain ⟨rfl, rfl⟩ : name = _ ∧ rest ++ more = _ := by simpa using heq
  rw [← find?_eq_some_iff_firstNamed] at hv hv'
  cases hv.symm.trans hv'
  rw [walk_iff, foldlM_append, walk_iff.1 hwalk] at hwalk'
  cases walk_iff.2 hwalk' with
  | done => exact hcyclic.not_stands
  | step hstep _ =>
    cases hstep with
    | field h _ => exact absurd h hcyclic.not_stands
    | element h => exact absurd h hcyclic.not_stands

end

/-! ## What is offered -/

/-- The end of a walk that can be looked into: a structure with its fields. -/
def Reaches (p : Program) (steps : List Step) (fields : List (StructureField DataType)) : Prop :=
  ∃ t span, Leads p steps t ∧ Stands p t (.structure span fields)

theorem pathFields_eq_some_iff {segments : List Segment} {fields : List (StructureField DataType)} :
    (pathType? p segments).bind (fields? p) = some fields ↔
      Reaches p (segments.flatMap Segment.steps) fields := by
  rw [Option.bind_eq_some_iff, Reaches]
  simp only [pathType?_eq_some_iff, fields?_eq_some_iff, exists_and_left]

/-- **Behind a path the fields of the structure are offered to which the path leads.** There is one
way to take the segments before the last one as steps. If these steps reach a structure, there is one
item for each of its fields, in their order and under its name; if they do not, there is none. In
particular there is none if on the way, or at its end, they come to a type that runs into a cycle of
declarations. -/
theorem pathItems_follow_types (p : Program) {segments : List (List Char)}
    (h : 2 ≤ segments.length) :
    ∃ steps, (∀ steps', Path segments.dropLast steps' ↔ steps' = steps) ∧
      (∀ fields, Reaches p steps fields →
        (pathItems p segments).map (·.label) = fields.map (·.name) ∧
        pathItems p segments = fields.map fun f => pathItem p .field f.name f.type) ∧
      ((¬ ∃ fields, Reaches p steps fields) → pathItems p segments = []) ∧
      ∀ taken t, taken <+: steps → Leads p taken t → Cyclic p t → pathItems p segments = [] := by
  have hitems : pathItems p segments =
      ((pathType? p (segments.dropLast.map Segment.ofChars)).bind (fields? p)).elim []
        (List.map fun f => pathItem p .field f.name f.type) := by
    rw [pathItems]
    split
    · rename_i hnil
      have hlength := congrArg List.length hnil
      rw [length_dropLast, length_nil] at hlength
      omega
    · generalize (pathType? p _).bind _ = fields
      cases fields <;> rfl
  have hnone : (¬ ∃ fields, Reaches p
      ((segments.dropLast.map Segment.ofChars).flatMap Segment.steps) fields) →
      pathItems p segments = [] := by
    intro hnot
    rw [hitems, Option.eq_none_iff_forall_ne_some.2 fun fields hfields =>
      hnot ⟨fields, pathFields_eq_some_iff.1 hfields⟩, Option.elim_none]
  refine ⟨_, fun steps' => path_iff, fun fields hreaches => ?_, hnone, ?_⟩
  · rw [hitems, pathFields_eq_some_iff.2 hreaches, Option.elim_some, map_map]
    exact ⟨rfl, rfl⟩
  · rintro taken t ⟨more, hmore⟩ hleads hcyclic
    refine hnone ?_
    rintro ⟨fields, s, span, hs, hstands⟩
    exact hleads.not_stands hcyclic (hmore ▸ hs) hstands

/-- A path through a structure, over a subscript that holds an opening bracket, to an array of pairs by
another name; and a path from a variable whose type is declared as itself. -/
theorem pathItems_follow_types_nested :
    let here : Span := ⟨.first, .first⟩
    let pair : List (StructureField DataType) :=
      [⟨"x", .scalar here .real, here⟩, ⟨"Y", .scalar here .real, here⟩]
    let types : List TypeDeclaration :=
      [⟨"pair", none, .structure here pair, here⟩, ⟨"point", none, .named here "PAIR", here⟩,
       ⟨"box", none, .structure here
         [⟨"parts", .array here [.unspecified] (.named here "Point"), here⟩], here⟩,
       ⟨"ring", none, .named here "RING", here⟩]
    let vars : List Variable :=
      [⟨"rec", none, .named here "box", here⟩, ⟨"loop", none, .named here "ring", here⟩]
    let p : Program :=
      { name := "p", header := "", directives := [], main := [], span := here
        declarations := [⟨.data (.types types), here⟩, ⟨.data (.vars vars), here⟩] }
    let nested := ["REC".toList, "Parts[i,[2]".toList, "x".toList]
    let cyclic := ["LOOP".toList, []]
    2 ≤ nested.length ∧ (pathItems p nested).map (·.label) = ["x", "Y"] ∧
      pathItems p nested = pair.map (fun f => pathItem p .field f.name f.type) ∧
      2 ≤ cyclic.length ∧ pathItems p cyclic = [] := by
  intro here pair types vars p nested cyclic
  have hnested : 2 ≤ nested.length := by decide
  have hcyclic : 2 ≤ cyclic.length := by decide
  obtain ⟨steps, hpath, hitems, -⟩ := pathItems_follow_types p hnested
  obtain ⟨steps', hpath', -, -, hnone⟩ := pathItems_follow_types p hcyclic
  have hreaches : Reaches p steps pair := by
    rw [← (hpath _).1 (path_iff.2 rfl)]
    exact pathFields_eq_some_iff.1 (by cbv)
  obtain ⟨hlabels, hpair⟩ := hitems pair hreaches
  refine ⟨hnested, hlabels, hpair, hcyclic, hnone [.named "LOOP"] (.named here "ring") ?_ ?_ ?_⟩
  · rw [← (hpath' _).1 (path_iff.2 rfl)]
    exact prefix_rfl
  · exact ⟨_, _, ⟨"loop", none, .named here "ring", here⟩, rfl,
      ⟨vars.take 1, [], rfl, by decide, by decide⟩, .done⟩
  · have hring {name : String} (h : sameIgnoringCase "ring" name := by decide)
        (hbefore : ∀ d ∈ types.take 3, sameIgnoringCase d.name name = false := by decide) :
        Alias p (.named here name) (.named here "RING") :=
      ⟨here, name, _, rfl, ⟨types.take 3, [], rfl, h, hbefore⟩, rfl⟩
    exact ⟨.named here "RING", .single hring, .single hring⟩

end RobotSource.Completion
