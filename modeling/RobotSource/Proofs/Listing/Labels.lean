import RobotSource.Listing.Program
/-!
# Labels and calls of a listing

Where an instruction can hold a label or the name of a program is a matter of its syntax:
`InstructionKind.Mentions` and `InstructionKind.Names` have a case for each such place. The labels that
are collected of an instruction are all that stand in it (`Instruction.mem_labelReferences_iff`), and
an instruction with a label has no name of a program (`InstructionKind.Mentions.not_names`). The
definition that a number leads to is the first one in the program (`Program.FirstDefinition`).
-/

namespace RobotSource.Listing

open List

variable {i : Instruction} {r : LabelReference} {c : Call}
variable {number : Nat}

/-! ## Where a label stands -/

/-- The action jumps to the label. -/
inductive ActionKind.Mentions (r : LabelReference) : ActionKind → Prop
  | jump : Mentions r (.jump r)

/-- The motion option leads to the label. -/
inductive MotionOptionKind.Mentions (r : LabelReference) : MotionOptionKind → Prop
  | skip : Mentions r (.skip r)
  | skipJump : Mentions r (.skipJump r)

/-- The label stands in the instruction: as that of a jump or of a timeout, or in an action or a
motion option. -/
inductive InstructionKind.Mentions (r : LabelReference) : InstructionKind → Prop
  | jump : Mentions r (.jump r)
  | motion {m : Motion} {o : MotionOption} (ho : o ∈ m.options) (h : o.kind.Mentions r) :
      Mentions r (.motion m)
  | ifAction {condition : Expr} {a : Action} (h : a.kind.Mentions r) :
      Mentions r (.ifAction condition a)
  | select {subject : Expr} {branch : CaseBranch} (h : branch.action.kind.Mentions r) :
      Mentions r (.select subject branch)
  | case {branch : CaseBranch} (h : branch.action.kind.Mentions r) : Mentions r (.case branch)
  | caseElse {a : Action} (h : a.kind.Mentions r) : Mentions r (.caseElse a)
  | timeout {condition : Expr} : Mentions r (.waitUntil condition (some r))

theorem Instruction.optionLabel?_eq_some_iff {o : MotionOption} :
    optionLabel? o = some r ↔ o.kind.Mentions r := by
  obtain ⟨kind, span⟩ := o
  constructor
  · intro h
    cases kind with
    | skip label =>
      cases h
      exact .skip
    | skipJump label =>
      cases h
      exact .skipJump
    | _ => cases h
  · rintro (_ | _) <;> rfl

/-- The label of an action, as it is collected. -/
theorem Instruction.mem_actionLabel_iff {a : Action} :
    r ∈ (match some a with
      | some ⟨.jump label, _⟩ => [label]
      | _ => []) ↔ a.kind.Mentions r := by
  obtain ⟨kind, span⟩ := a
  constructor
  · intro h
    cases kind with
    | jump label =>
      obtain rfl := mem_singleton.1 h
      exact .jump
    | _ => cases h
  · rintro ⟨⟩
    exact mem_singleton.2 rfl

/-- **The labels that are collected of an instruction are those that stand in it.** -/
theorem Instruction.mem_labelReferences_iff : r ∈ i.labelReferences ↔ i.kind.Mentions r := by
  obtain ⟨kind, span⟩ := i
  constructor
  · intro h
    cases kind with
    | jump label =>
      obtain rfl := mem_singleton.1 h
      exact .jump
    | motion m =>
      obtain ⟨o, ho, hr⟩ := mem_filterMap.1 h
      exact .motion ho (optionLabel?_eq_some_iff.1 hr)
    | ifAction condition a => exact .ifAction (mem_actionLabel_iff.1 h)
    | select subject branch => exact .select (mem_actionLabel_iff.1 h)
    | case branch => exact .case (mem_actionLabel_iff.1 h)
    | caseElse a => exact .caseElse (mem_actionLabel_iff.1 h)
    | waitUntil condition timeout =>
      cases timeout with
      | none => cases h
      | some label =>
        obtain rfl := mem_singleton.1 h
        exact .timeout
    | _ => cases h
  · intro h
    cases h with
    | jump => exact mem_singleton.2 rfl
    | motion ho h => exact mem_filterMap.2 ⟨_, ho, optionLabel?_eq_some_iff.2 h⟩
    | ifAction h => exact mem_actionLabel_iff.2 h
    | select h => exact mem_actionLabel_iff.2 h
    | case h => exact mem_actionLabel_iff.2 h
    | caseElse h => exact mem_actionLabel_iff.2 h
    | timeout => exact mem_singleton.2 rfl

/-! ## Where the name of a program stands -/

/-- The action calls or starts the program. -/
inductive ActionKind.Names (c : Call) : ActionKind → Prop
  | call : Names c (.call c)
  | run : Names c (.run c)

/-- The name of the program stands in the instruction: in a call or a start, or in an action. -/
inductive InstructionKind.Names (c : Call) : InstructionKind → Prop
  | call : Names c (.call c)
  | run : Names c (.run c)
  | ifAction {condition : Expr} {a : Action} (h : a.kind.Names c) : Names c (.ifAction condition a)
  | select {subject : Expr} {branch : CaseBranch} (h : branch.action.kind.Names c) :
      Names c (.select subject branch)
  | case {branch : CaseBranch} (h : branch.action.kind.Names c) : Names c (.case branch)
  | caseElse {a : Action} (h : a.kind.Names c) : Names c (.caseElse a)

theorem Instruction.actionCall_eq_some {a : Action}
    (h : (match some a with
      | some ⟨.call call, _⟩ => some call
      | some ⟨.run call, _⟩ => some call
      | _ => none) = some c) : a.kind.Names c := by
  obtain ⟨kind, span⟩ := a
  cases kind with
  | call call =>
    cases h
    exact .call
  | run call =>
    cases h
    exact .run
  | _ => cases h

/-- The program that is found to be called is one whose name stands in the instruction. -/
theorem Instruction.names_of_call? (h : i.call? = some c) : i.kind.Names c := by
  obtain ⟨kind, span⟩ := i
  cases kind with
  | call call =>
    cases h
    exact .call
  | run call =>
    cases h
    exact .run
  | ifAction condition a => exact .ifAction (actionCall_eq_some h)
  | select subject branch => exact .select (actionCall_eq_some h)
  | case branch => exact .case (actionCall_eq_some h)
  | caseElse a => exact .caseElse (actionCall_eq_some h)
  | _ => cases h

theorem ActionKind.Mentions.not_names {k : ActionKind} (h : k.Mentions r) : ¬k.Names c := by
  cases h
  nofun

/-- An instruction that leads to a label calls no program. -/
theorem InstructionKind.Mentions.not_names {k : InstructionKind} (h : k.Mentions r) :
    ¬k.Names c := by
  cases h with
  | ifAction h | select h | case h | caseElse h =>
    rintro ⟨⟩
    exact h.not_names ‹_›
  | _ => nofun

theorem Instruction.call?_eq_none_of_mentions (h : i.kind.Mentions r) : i.call? = none :=
  Option.eq_none_iff_forall_ne_some.2 fun _ hcall => h.not_names (names_of_call? hcall)

/-! ## Where a number leads -/

theorem LabelReference.number?_eq_some_iff :
    r.number? = some number ↔ r.target = .direct number := by
  obtain ⟨target, span⟩ := r
  cases target <;> simp [number?]

/-- The instruction defines the label number. -/
def Instruction.Defines (i : Instruction) (number : Nat) : Prop :=
  ∃ d, i.kind = .label d ∧ d.number = number

/-- The definition is that of the number, and no instruction before it defines the number. -/
def Program.FirstDefinition (p : Program) (number : Nat) (d : LabelDefinition) : Prop :=
  ∃ before i behind, p.instructions = before ++ i :: behind ∧ i.kind = .label d ∧
    d.number = number ∧ ∀ j ∈ before, ¬j.Defines number

theorem Program.labelDefinition?_eq_some_iff {d : LabelDefinition} :
    labelDefinition? i = some d ↔ i.kind = .label d := by
  obtain ⟨kind, span⟩ := i
  cases kind <;> simp [labelDefinition?]

/-- The search for a number stops where it is defined. -/
theorem Program.any_labelDefinition?_iff :
    (labelDefinition? i).any (·.number == number) = true ↔ i.Defines number := by
  simp [Option.any_eq_true, labelDefinition?_eq_some_iff, Instruction.Defines]

theorem Program.FirstDefinition.findLabel? {p : Program} {d : LabelDefinition}
    (h : p.FirstDefinition number d) : p.findLabel? number = some d := by
  obtain ⟨before, i, behind, hsplit, hkind, hnumber, hbefore⟩ := h
  have hfind : p.instructions.find? (fun j => (labelDefinition? j).any (·.number == number)) =
      some i := by
    refine find?_eq_some_iff_append.2 ⟨any_labelDefinition?_iff.2 ⟨d, hkind, hnumber⟩, before,
      behind, hsplit, fun j hj => ?_⟩
    simpa [← any_labelDefinition?_iff] using hbefore j hj
  rw [Program.findLabel?, labels, find?_filterMap, hfind]
  exact labelDefinition?_eq_some_iff.2 hkind

theorem Program.findLabel?_eq_none {p : Program}
    (h : ∀ i ∈ p.instructions, ¬i.Defines number) : p.findLabel? number = none := by
  refine find?_eq_none.2 fun d hd hnumber => ?_
  obtain ⟨i, hi, hdefinition⟩ := mem_filterMap.1 hd
  exact h i hi ⟨d, labelDefinition?_eq_some_iff.1 hdefinition, by simpa using hnumber⟩

/-! ## What a search finds if there is only one -/

/-- If no two of the values meet the condition, the search for it finds the one that does. -/
theorem find?_eq_some_of_pairwise {α : Type} {l : List α} {q : α → Bool} {a : α} (ha : a ∈ l)
    (hq : q a) (h : l.Pairwise fun x y => q x = true → q y = false) : l.find? q = some a := by
  induction l with
  | nil => cases ha
  | cons x l ih =>
    obtain ⟨hx, hl⟩ := pairwise_cons.1 h
    rcases mem_cons.1 ha with rfl | ha
    · exact find?_cons_of_pos hq
    · have hfirst : ¬q x = true := fun hqx => absurd (hx a ha hqx) (by simp [hq])
      rw [find?_cons_of_neg hfirst, ih ha hl]

end RobotSource.Listing
