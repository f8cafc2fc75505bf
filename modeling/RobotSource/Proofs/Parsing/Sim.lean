import Mathlib.Data.List.Forall2
import RobotSource.Parsing.Token
/-!
# Parsers that end alike

Two runs of a parser, on two texts, are compared step by step. `Outcome.Rel` says that two outcomes
are of the same kind, and that what was read and where the cursors stand now are related. A pair of
parsers `Keeps` a relation between cursors if they end alike wherever it holds before.

Each way of putting parsers together has its lemma here, but for those that depend on the parsers
reading something: repetitions, and rules that refer to themselves.
-/

namespace RobotSource.Parsing

theorem Parser.id_map_eq {α : Type} (p : Parser α) : id <$> p = p := by
  funext c
  rw [Parser.map_apply]
  cases p c <;> rfl

theorem Parser.bind_bind_eq {α β γ : Type} (p : Parser α) (f : α → Parser β) (g : β → Parser γ) :
    p >>= f >>= g = p >>= fun a => f a >>= g := by
  funext c
  simp only [Parser.bind_apply]
  cases p c <;> rfl

instance : LawfulMonad Parser :=
  LawfulMonad.mk' Parser Parser.id_map_eq (fun _ _ => rfl) Parser.bind_bind_eq

variable {α β γ δ : Type} {S T U : Cursor → Cursor → Prop} {V : α → β → Prop} {W : γ → δ → Prop}
variable {T' S' : Cursor → Cursor → Prop} {V' : α → β → Prop} {f : α → Parser γ} {g : β → Parser δ}
    {P : Position → Position → Prop} {c d : Cursor}

/-- The outcomes are of one kind; values and cursors are related. -/
inductive Outcome.Rel (T : Cursor → Cursor → Prop) (V : α → β → Prop) :
    Outcome α → Outcome β → Prop
  | done {a b c d} (value : V a b) (rest : T c d) : Rel T V (.done a c) (.done b d)
  | failed {e e'} : Rel T V (.failed e) (.failed e')
  | aborted {e e'} : Rel T V (.aborted e) (.aborted e')

/-- The parsers end alike where `S` holds, and `T` holds afterwards. -/
def Keeps (S T : Cursor → Cursor → Prop) (V : α → β → Prop) (p : Parser α) (q : Parser β) : Prop :=
  ∀ c d, S c d → (p c).Rel T V (q d)

/-- The parser ends alike on both sides. -/
abbrev Agrees (S T : Cursor → Cursor → Prop) (p : Parser α) (V : α → α → Prop) : Prop :=
  Keeps S T V p p

/-- Wherever the parser ends, less is left than before. -/
class Consumes (p : Parser α) : Prop where
  length_lt : ∀ c a d, p c = .done a d → d.rest.length < c.rest.length

section
variable {p : Parser α} [h : Consumes p] {a : α}

theorem length_lt_of_done (hp : p c = .done a d) : d.rest.length < c.rest.length :=
  h.length_lt c a d hp

theorem ne_nil_of_done (hp : p c = .done a d) : c.rest ≠ [] :=
  List.ne_nil_of_length_pos (Nat.zero_lt_of_lt (length_lt_of_done hp))

end

/-! ## Outcomes -/

namespace Outcome.Rel

variable {o : Outcome α} {o' : Outcome β}

/-- Where both have come to an end, what is known of it may be changed. -/
theorem imp_done (h : o.Rel T V o') (hdone : ∀ a b c d, o = .done a c → o' = .done b d →
    V a b → T c d → V' a b ∧ T' c d) : o.Rel T' V' o' := by
  cases h with
  | done value rest =>
    obtain ⟨value', rest'⟩ := hdone _ _ _ _ rfl rfl value rest
    exact .done value' rest'
  | failed => exact .failed
  | aborted => exact .aborted

theorem mono (h : o.Rel T V o') (hT : ∀ c d, T c d → T' c d)
    (hV : ∀ a b, V a b → V' a b) : o.Rel T' V' o' :=
  h.imp_done fun _ _ _ _ _ _ value rest => ⟨hV _ _ value, hT _ _ rest⟩

theorem exists_done {a : α} (h : (Outcome.done a c).Rel T V o') :
    ∃ b d, o' = .done b d ∧ V a b ∧ T c d := by
  cases h with
  | done value rest => exact ⟨_, _, rfl, value, rest⟩

theorem exists_done_left {b : β} (h : o.Rel T V (.done b d)) :
    ∃ a c, o = .done a c ∧ V a b ∧ T c d := by
  cases h with
  | done value rest => exact ⟨_, _, rfl, value, rest⟩

section
variable {p p' : Parser α} {q q' : Parser β} (h : (p c).Rel T V (q d))
include h

theorem bind (hf : ∀ a b c' d', V a b → T c' d' → (f a c').Rel U W (g b d')) :
    ((p >>= f) c).Rel U W ((q >>= g) d) := by
  rw [Parser.bind_apply, Parser.bind_apply]
  generalize p c = o, q d = o' at h ⊢
  cases h with
  | done value rest => exact hf _ _ _ _ value rest
  | failed => exact .failed
  | aborted => exact .aborted

theorem orElse (h' : (p' c).Rel T V (q' d)) : ((p <|> p') c).Rel T V ((q <|> q') d) := by
  change (Parser.orElse p p' c).Rel T V (Parser.orElse q q' d)
  rw [Parser.orElse, Parser.orElse]
  generalize p c = o, q d = o' at h ⊢
  cases h with
  | done value rest => exact .done value rest
  | failed =>
    generalize p' c = o, q' d = o' at h' ⊢
    cases h' with
    | done value rest => exact .done value rest
    | failed => exact .failed
    | aborted => exact .aborted
  | aborted => exact .aborted

theorem noticingEnd : (p.noticingEnd c).Rel T V (q.noticingEnd d) := by
  rw [Parser.noticingEnd, Parser.noticingEnd]
  generalize p c = o, q d = o' at h ⊢
  cases h with
  | done value rest => exact .done value rest
  | failed => exact .failed
  | aborted => exact .aborted

theorem named {what : String} : (p.named what c).Rel T V (q.named what d) := by
  rw [Parser.named, Parser.named]
  generalize p c = o, q d = o' at h ⊢
  cases h with
  | done value rest => exact .done value rest
  | failed => exact .failed
  | aborted => exact .failed

theorem maybe (hcd : T c d) : (p.maybe c).Rel T (Option.Rel V) (q.maybe d) := by
  rw [Parser.maybe, Parser.maybe]
  generalize p c = o, q d = o' at h ⊢
  cases h with
  | done value rest => exact .done (.some value) rest
  | failed => exact .done .none hcd
  | aborted => exact .aborted

theorem attempt (hcd : T c d) : (p.attempt c).Rel T (Option.Rel V) (q.attempt d) := by
  rw [Parser.attempt, Parser.attempt]
  generalize p c = o, q d = o' at h ⊢
  cases h with
  | done value rest => exact .done (.some value) rest
  | failed => exact .done .none hcd
  | aborted => exact .done .none hcd

theorem lookahead (hcd : S c d) : (p.lookahead c).Rel S V (q.lookahead d) := by
  rw [Parser.lookahead, Parser.lookahead]
  generalize p c = o, q d = o' at h ⊢
  cases h with
  | done value _ => exact .done value hcd
  | failed => exact .failed
  | aborted => exact .aborted

/-- The texts that are read are related where the places behind them tell so. -/
theorem recognized {W : String → String → Prop} (hW : ∀ c' d', T c' d' →
    W (String.ofList (c.upTo c')) (String.ofList (d.upTo d'))) :
    (p.recognized c).Rel T W (q.recognized d) := by
  rw [Parser.recognized, Parser.recognized]
  generalize p c = o, q d = o' at h ⊢
  cases h with
  | done _ rest => exact .done (hW _ _ rest) rest
  | failed => exact .failed
  | aborted => exact .aborted

end

end Outcome.Rel

/-! ## Single steps and sequences -/

variable {p p' : Parser α} {q q' : Parser β}

namespace Keeps

theorem exists_right (h : Keeps S T V p q) {c' : Cursor} {a : α} (hcd : S c d)
    (hp : p c = .done a c') : ∃ b d', q d = .done b d' ∧ V a b ∧ T c' d' := by
  have hpq := h c d hcd
  rw [hp] at hpq
  exact hpq.exists_done

theorem exists_left (h : Keeps S T V p q) {d' : Cursor} {b : β} (hcd : S c d)
    (hq : q d = .done b d') : ∃ a c', p c = .done a c' ∧ V a b ∧ T c' d' := by
  have hpq := h c d hcd
  rw [hq] at hpq
  exact hpq.exists_done_left

theorem mono (h : Keeps S T V p q) (hS : ∀ c d, S' c d → S c d) (hT : ∀ c d, T c d → T' c d)
    (hV : ∀ a b, V a b → V' a b) : Keeps S' T' V' p q :=
  fun c d hcd => (h c d (hS c d hcd)).mono hT hV

/-- What holds afterwards may be weakened. -/
theorem imp (h : Keeps S T V p q) (hT : ∀ c d, T c d → T' c d) (hV : ∀ a b, V a b → V' a b) :
    Keeps S T' V' p q :=
  h.mono (fun _ _ h => h) hT hV

theorem of_imp (h : Keeps S T V p q) (hS : ∀ c d, S' c d → S c d) : Keeps S' T V p q :=
  fun c d hcd => h c d (hS c d hcd)

theorem pure {a : α} {b : β} (h : V a b) : Keeps S S V (pure a) (pure b) :=
  fun _ _ hcd => .done h hcd

theorem bind (h : Keeps S T V p q) (hf : ∀ a b, V a b → Keeps T U W (f a) (g b)) :
    Keeps S U W (p >>= f) (q >>= g) :=
  fun c d hcd => (h c d hcd).bind fun a b c' d' hab hT => hf a b hab c' d' hT

/-- A token that the rest takes no notice of. -/
theorem pass {p' : Parser γ} {q' : Parser δ} (h : Keeps S T V p q) (h' : Keeps T U W p' q') :
    Keeps S U W (p >>= fun _ => p') (q >>= fun _ => q') :=
  h.bind fun _ _ _ => h'

theorem seqRight {p' : Parser γ} {q' : Parser δ} (h : Keeps S T V p q) (h' : Keeps T U W p' q') :
    Keeps S U W (p *> p') (q *> q') :=
  h.bind fun _ _ _ => h'

/-- Reading something for the sake of a fixed value. -/
theorem seqRight_pure (h : Keeps S T V p q) (a : γ) :
    Keeps S T (· = ·) (p *> (Pure.pure a : Parser γ)) (q *> (Pure.pure a : Parser γ)) :=
  h.seqRight (.pure rfl)

theorem map {f : α → γ} {g : β → δ} (h : Keeps S T V p q) (hf : ∀ a b, V a b → W (f a) (g b)) :
    Keeps S T W (f <$> p) (g <$> q) :=
  h.bind fun a b hab => .pure (hf a b hab)

/-- A node of what is read. The views of the node are made of the views of what is read. -/
theorem map_view {k : α → γ} {f g : α → α} {f' g' : γ → γ} {q : Parser α}
    (h : Keeps S T (fun a b => f a = g b) p q)
    (hf : ∀ a, f' (k a) = k (f a) := by exact fun _ => rfl)
    (hg : ∀ a, g' (k a) = k (g a) := by exact fun _ => rfl) :
    Keeps S T (fun a b => f' a = g' b) (k <$> p) (k <$> q) :=
  h.map fun a b hab => by rw [hf, hg, hab]

/-! ## Alternatives -/

theorem orElse (h : Keeps S T V p q) (h' : Keeps S T V p' q') :
    Keeps S T V (p <|> p') (q <|> q') :=
  fun c d hcd => (h c d hcd).orElse (h' c d hcd)

/-- Something that may be missing, where nothing is read then. -/
theorem maybe (h : Keeps S S V p q) :
    Keeps S S (Option.Rel V) (Parser.maybe p) (Parser.maybe q) :=
  fun c d hcd => (h c d hcd).maybe hcd

theorem attempt (h : Keeps S T V p q) (hST : ∀ c d, S c d → T c d) :
    Keeps S T (Option.Rel V) (Parser.attempt p) (Parser.attempt q) :=
  fun c d hcd => (h c d hcd).attempt (hST c d hcd)

theorem lookahead (h : Keeps S T V p q) :
    Keeps S S V (Parser.lookahead p) (Parser.lookahead q) :=
  fun c d hcd => (h c d hcd).lookahead hcd

theorem named {what : String} (h : Keeps S T V p q) :
    Keeps S T V (Parser.named what p) (Parser.named what q) :=
  fun c d hcd => (h c d hcd).named

/-! ## Places -/

/-- What depends on the cursors themselves is compared at one pair of them. -/
theorem cursor_bind_at {f : Cursor → Parser α} {g : Cursor → Parser β}
    (h : ∀ c d, S c d → Keeps (fun c' d' => c' = c ∧ d' = d) T V (f c) (g d)) :
    Keeps S T V (Parser.cursor >>= f) (Parser.cursor >>= g) :=
  fun c d hcd => h c d hcd c d ⟨rfl, rfl⟩

theorem cursor_bind {f : Cursor → Parser α} {g : Cursor → Parser β}
    (h : ∀ c d, S c d → Keeps S T V (f c) (g d)) :
    Keeps S T V (Parser.cursor >>= f) (Parser.cursor >>= g) :=
  fun c d hcd => h c d hcd c d hcd

theorem position (h : ∀ c d, S c d → P c.position d.position) :
    Keeps S S P Parser.position Parser.position :=
  fun c d hcd => .done (h c d hcd) hcd

/-- Spans are related where the places before and behind are. -/
theorem spanned (h : Keeps S T V p q) (hS : ∀ c d, S c d → P c.position d.position)
    (hT : ∀ c d, T c d → P c.position d.position) : Keeps S T
      (fun x y => V x.1 y.1 ∧ P x.2.start y.2.start ∧ P x.2.stop y.2.stop) (Parser.spanned p)
      (Parser.spanned q) := by
  intro c d hcd
  refine Outcome.Rel.noticingEnd ((Keeps.position hS).bind (fun s s' hs => ?_) c d hcd)
  refine h.bind fun a b hab => (Keeps.position hT).bind fun t t' ht => ?_
  exact .pure ⟨hab, hs, ht⟩

/-! ## Whole texts -/

/-- **Texts that are read alike hold the same**, up to a function of what is made of them: both can
be read or neither. -/
theorem toOption_map_run {γ : Type} {f : α → β} {make : α → γ} {make' : β → γ} {g : γ → γ}
    {s t : String} (h : Keeps S T (fun a b => f a = b) p q) (hS : S (.ofText s) (.ofText t))
    (hg : ∀ a, g (make a) = make' (f a)) :
    (make' <$> q.run t).toOption = (make <$> p.run s).toOption.map g := by
  have hst := h _ _ hS
  rw [Parser.run, Parser.run]
  generalize p (.ofText s) = o, q (.ofText t) = o' at hst
  cases hst with
  | done value _ => exact congrArg some (value ▸ (hg _).symm)
  | failed => rfl
  | aborted => rfl

end Keeps

end RobotSource.Parsing
