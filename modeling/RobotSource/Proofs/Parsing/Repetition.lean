import RobotSource.Proofs.Parsing.Progress
/-!
# Repetitions that end alike

A repetition comes round only if something was read, and a rule that refers to itself is guarded by
what is left. On two texts they end alike if their parts do, for parts that read something
(`Consumes`); a rule is compared by comparing its body.
-/

namespace RobotSource.Parsing

variable {α β γ δ : Type} {S T : Cursor → Cursor → Prop} {V : α → β → Prop} {W : γ → δ → Prop}
variable {P : Position → Position → Prop} {p : Parser α} {q : Parser β} {p₀ : Parser γ}
  {q₀ : Parser δ} {c d : Cursor}

/-! ## Places -/

/-- What begins with its place is compared under the assumption that the places are related: where the
text is over, nothing is read. -/
theorem Keeps.position_bind {f : Position → Parser α} {g : Position → Parser β}
    [∀ s, Consumes (f s)] (hS : ∀ c d, S c d → c.rest ≠ [] → P c.position d.position)
    (h : ∀ s t, Keeps S T (fun a b => P s t → V a b) (f s) (g t)) :
    Keeps S T V (Parser.position >>= f) (Parser.position >>= g) := by
  intro c d hcd
  refine (h c.position d.position c d hcd).imp_done fun a b r r' hp _ hab hrest => ?_
  exact ⟨hab (hS c d hcd (ne_nil_of_done hp)), hrest⟩

/-- Spans are related where the places before and behind are. -/
theorem Keeps.spanned_of_ne_nil [∀ n, Orderly (n + 1) true p p] (h : Keeps S T V p q)
    (hS : ∀ c d, S c d → c.rest ≠ [] → P c.position d.position)
    (hT : ∀ c d, T c d → P c.position d.position) : Keeps S T
      (fun x y => V x.1 y.1 ∧ P x.2.start y.2.start ∧ P x.2.stop y.2.stop) (Parser.spanned p)
      (Parser.spanned q) := by
  intro c d hcd
  refine Outcome.Rel.noticingEnd (Keeps.position_bind hS (fun s t => ?_) c d hcd)
  refine h.bind fun a b hab => (Keeps.position hT).bind fun _ _ ht => ?_
  exact .pure fun hs => ⟨hab, hs, ht⟩

/-! ## Repetition -/

theorem Outcome.Rel.consTo {o : Outcome (List α)} {o' : Outcome (List β)} {a : α} {b : β}
    (hab : V a b) (h : o.Rel T (List.Forall₂ V) o') :
    (Parser.consTo a o).Rel T (List.Forall₂ V) (Parser.consTo b o') := by
  cases h with
  | done value rest => exact .done (.cons hab value) rest
  | failed => exact .failed
  | aborted => exact .aborted

namespace Keeps

/-- A repetition reads as often on both sides. -/
theorem many [Consumes p] [Consumes q] (h : Keeps S S V p q) :
    Keeps S S (List.Forall₂ V) (Parser.many p) (Parser.many q) := by
  intro c d hcd
  induction hk : c.rest.length using Nat.strongRecOn generalizing c d with
  | ind k ih =>
    rw [Parser.many, Parser.many]
    have hpq := h c d hcd
    generalize hp : p c = o, hq : q d = o' at hpq
    cases hpq with
    | done hab hrest =>
      have hlt := length_lt_of_done hp
      simp only [if_pos hlt, if_pos (length_lt_of_done hq)]
      exact .consTo hab (ih _ (hk ▸ hlt) _ _ hrest rfl)
    | failed => exact .done .nil hcd
    | aborted => exact .aborted

/-- Operands that are joined from the left. -/
theorem chainTail [Consumes p₀] [Consumes q₀] [Consumes p] [Consumes q] {f : α → γ → α → α}
    {g : β → δ → β → β} (h₀ : Keeps S T W p₀ q₀) (h : Keeps T S V p q)
    (hjoin : ∀ a b, V a b → ∀ x y, W x y → ∀ a' b', V a' b' → V (f a x a') (g b y b')) {left : α}
    {left' : β} (hleft : V left left') :
    Keeps S S V (Parser.chainTail p p₀ f left) (Parser.chainTail q q₀ g left') := by
  intro c d hcd
  induction hk : c.rest.length using Nat.strongRecOn generalizing c d left left' with
  | ind k ih =>
    rw [Parser.chainTail, Parser.chainTail]
    have hop := h₀ c d hcd
    generalize hp₀ : p₀ c = o, hq₀ : q₀ d = o' at hop
    cases hop with
    | @done _ _ c' d' hxy hrest =>
      have hpq := h c' d' hrest
      simp only
      generalize hp : p c' = o, hq : q d' = o' at hpq
      cases hpq with
      | done hab hrest =>
        have hlt := (length_lt_of_done hp).trans (length_lt_of_done hp₀)
        simp only [if_pos hlt, if_pos ((length_lt_of_done hq).trans (length_lt_of_done hq₀))]
        exact ih _ (hk ▸ hlt) (hjoin _ _ hleft _ _ hxy _ _ hab) _ _ hrest rfl
      | failed => exact .failed
      | aborted => exact .aborted
    | failed => exact .done hleft hcd
    | aborted => exact .aborted

section
variable [Consumes p₀] [Consumes q₀] [Consumes p] [Consumes q]

/-- So do the items behind the first of a list. -/
theorem sepTail (h₀ : Keeps S T W p₀ q₀) (h : Keeps T S V p q) :
    Keeps S S (List.Forall₂ V) (Parser.sepTail p₀ p) (Parser.sepTail q₀ q) := by
  rw [Parser.sepTail_eq_many, Parser.sepTail_eq_many]
  exact many (h₀.seqRight h)

theorem many1 (h : Keeps S S V p q) :
    Keeps S S (List.Forall₂ V) (Parser.many1 p) (Parser.many1 q) :=
  h.bind fun _ _ hab => h.many.bind fun _ _ hrest => .pure (.cons hab hrest)

theorem sepBy1 (h₀ : Keeps S S W p₀ q₀) (h : Keeps S S V p q) :
    Keeps S S (List.Forall₂ V) (Parser.sepBy1 p₀ p) (Parser.sepBy1 q₀ q) :=
  h.bind fun _ _ hab => (h₀.sepTail h).bind fun _ _ hrest => .pure (.cons hab hrest)

theorem sepBy (h₀ : Keeps S S W p₀ q₀) (h : Keeps S S V p q) :
    Keeps S S (List.Forall₂ V) (Parser.sepBy p₀ p) (Parser.sepBy q₀ q) := by
  rw [Parser.sepBy_eq_maybe, Parser.sepBy_eq_maybe]
  refine h.maybe.bind fun _ _ ho => ?_
  cases ho with
  | some hab => exact (h₀.sepTail h).map fun _ _ hrest => .cons hab hrest
  | none => exact .pure .nil

theorem chainLeft {f : α → γ → α → α} {g : β → δ → β → β} (h₀ : Keeps S S W p₀ q₀)
    (h : Keeps S S V p q)
    (hjoin : ∀ a b, V a b → ∀ x y, W x y → ∀ a' b', V a' b' → V (f a x a') (g b y b')) :
    Keeps S S V (Parser.chainLeft p p₀ f) (Parser.chainLeft q q₀ g) :=
  h.bind fun _ _ hab => h₀.chainTail h hjoin hab

end

/-- **A rule is compared by comparing its body**, where the inner references may be taken to end
alike. -/
theorem nested {V : α → α → Prop} {s : Bool} {rule : Parser α → Parser α}
    (hrule : ∀ n p q, Orderly n s p q → Orderly (n + 1) s (rule p) (rule q))
    (h : ∀ p, (∀ n, Orderly n s p p) → Agrees S S p V → Agrees S S (rule p) V) :
    Agrees S S (Parser.nested rule) V := by
  intro c d hcd
  obtain ⟨p, hp, heq⟩ := exists_unfolding (motive := fun p => Agrees S S p V) hrule
    (fun _ _ _ => .failed) h (max c.rest.length d.rest.length)
  rw [heq c (Nat.le_max_left _ _), heq d (Nat.le_max_right _ _)]
  exact hp c d hcd

end Keeps

theorem Local.many {P : List Char → Prop} [Consumes p] (h : Local P p) : Local P (Parser.many p) :=
  fun u c d hcommon => ((h.agrees hcommon).many c d (.refl u c d)).mono (fun _ _ h => h)
    fun _ _ h => List.forall₂_eq_eq_eq ▸ h

end RobotSource.Parsing
