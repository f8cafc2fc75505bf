import RobotSource.Proofs.Parsing.Reading
/-!
# What is read in front of more text

`Keeps` compares two parsers that end alike, whatever they meet. Here only what has been read is
taken over to the other side: where the first parser reads something and what follows is of a kind,
the second one reads the same (`Carries`). What follows has a part in this because a repetition or
an option stops there, and the other side must not go on (`Halts`).
-/

namespace RobotSource.Parsing

open Parsing.Parser

variable {α β γ δ : Type} {S T U : Cursor → Cursor → Prop} {V : α → β → Prop} {W : γ → δ → Prop}
variable {c d r : Cursor} {f : α → Parser γ} {g : β → Parser δ} {s o : Parser γ}
    {join : α → γ → α → α} {s' : Parser δ}
variable {F : α → Cursor → Prop} {G : γ → Cursor → Prop} {K : Cursor → Prop}
variable {p p' : Parser α} {q q' : Parser β}

/-- What the first parser reads where `S` holds, if `F` holds of it and the cursor behind it, the
second one reads as well, up to `V`, and `T` holds afterwards. -/
def Carries (S T : Cursor → Cursor → Prop) (F : α → Cursor → Prop) (V : α → β → Prop) (p : Parser α)
    (q : Parser β) : Prop :=
  ∀ c d a c', S c d → p c = .done a c' → F a c' → ∃ b d', q d = .done b d' ∧ V a b ∧ T c' d'

/-- Where the first parser fails, at a place of the kind, so does the second one. -/
def Halts (S : Cursor → Cursor → Prop) (K : Cursor → Prop) (p : Parser α) (q : Parser β) : Prop :=
  ∀ c d, S c d → K c → (∃ e, p c = .failed e) → ∃ e, q d = .failed e

/-! ## Parsers that end alike -/

theorem Carries.of_keeps (h : Keeps S T V p q) : Carries S T F V p q :=
  fun _ _ _ _ hcd hp _ => h.exists_right hcd hp

theorem Halts.of_keeps (h : Keeps S T V p q) : Halts S K p q := by
  rintro c d hcd - ⟨e, hp⟩
  have hpq := h c d hcd
  rw [hp] at hpq
  cases hq : q d <;> rw [hq] at hpq <;> cases hpq
  exact ⟨_, rfl⟩

/-- What begins with a step that is the same on both sides fails with it, if the step cannot be
taken at such a place. -/
theorem Halts.bind (h : Keeps S T V p q)
    (hK : ∀ c a r, K c → p c ≠ .done a r) : Halts S K (p >>= f) (q >>= g) := by
  rintro c d hcd hc ⟨e, he⟩
  rw [bind_apply] at he
  cases hp : p c with
  | done a r => exact absurd hp (hK c a r hc)
  | failed e =>
    obtain ⟨e', hq⟩ := Halts.of_keeps (K := K) h c d hcd hc ⟨e, hp⟩
    exact ⟨e', by rw [bind_apply, hq]⟩
  | aborted e =>
    rw [hp] at he
    cases he

/-! ## What stands where a list goes on -/

/-- Where a repetition goes on, an item stands, or it is at its end. -/
theorem of_many {F : Cursor → Prop} {as : List α} (hF : ∀ c a r, p c = .done a r → F c)
    (hK : ∀ c, K c → F c) (h : Parser.many p c = .done as r) (hr : K r) : F c := by
  cases many_eq_done.1 h with
  | nil => exact hK _ hr
  | cons hp _ _ => exact hF _ _ _ hp

/-- Where the items go on, a separator stands, or they are at their end. -/
theorem of_sepTail {F : Cursor → Prop} {as : List α} (hF : ∀ c x r, s c = .done x r → F c)
    (hK : ∀ c, K c → F c) (h : Parser.sepTail s p c = .done as r) (hr : K r) : F c := by
  refine of_many (fun c a r hdone => ?_) hK (sepTail_eq_many ▸ h) hr
  obtain ⟨x, _, hs, -⟩ := seqRight_eq_done.1 hdone
  exact hF c x _ hs

theorem of_chainTail {F : Cursor → Prop} {left a : α} (hF : ∀ c x r, o c = .done x r → F c)
    (h : Parser.chainTail p o join left c = .done a r) (hr : F r) : F c := by
  cases chainTail_eq_done.1 h with
  | nil => exact hr
  | cons ho _ _ _ => exact hF _ _ _ ho

/-! ## Sequences and alternatives -/

namespace Carries

theorem mono {F' : α → Cursor → Prop} {V' : α → β → Prop} {S' T' : Cursor → Cursor → Prop}
    (h : Carries S T F V p q) (hS : ∀ c d, S' c d → S c d) (hT : ∀ c d, T c d → T' c d)
    (hF : ∀ a c, F' a c → F a c) (hV : ∀ a b, V a b → V' a b) : Carries S' T' F' V' p q := by
  intro c d a c' hcd hp hc'
  obtain ⟨b, d', hq, hab, hcd'⟩ := h c d a c' (hS c d hcd) hp (hF a c' hc')
  exact ⟨b, d', hq, hV a b hab, hT c' d' hcd'⟩

theorem pure {a : α} {b : β} (h : V a b) : Carries S S F V (pure a) (pure b) := by
  rintro c d _ _ hcd ⟨⟩ -
  exact ⟨b, d, rfl, h, hcd⟩

/-- What follows the first part is of the kind it needs, because the second part goes on there. -/
theorem bind (h : Carries S T F V p q) (hf : ∀ a b, V a b → Carries T U G W (f a) (g b))
    (hF : ∀ a c x r, f a c = .done x r → G x r → F a c) : Carries S U G W (p >>= f) (q >>= g) := by
  intro c d x r hcd hdone hr
  obtain ⟨a, c', hp, hfa⟩ := bind_eq_done.1 hdone
  obtain ⟨b, d', hq, hab, hcd'⟩ := h c d a c' hcd hp (hF a c' x r hfa hr)
  obtain ⟨y, r', hgb, hxy, hr'⟩ := hf a b hab c' d' x r hcd' hfa hr
  exact ⟨y, r', bind_of_done hq hgb, hxy, hr'⟩

/-- Something is made of what has been read. -/
theorem map {f : α → γ} {g : β → δ} (h : Carries S T F V p q) (hF : ∀ a c, G (f a) c → F a c)
    (hW : ∀ a b, V a b → W (f a) (g b)) :
    Carries S T G W (p >>= fun a => Pure.pure (f a)) (q >>= fun b => Pure.pure (g b)) := by
  refine h.bind (fun a b hab => .pure (hW a b hab)) ?_
  rintro a c _ _ ⟨⟩ hr
  exact hF a c hr

/-- The first part goes by whatever follows. -/
theorem andThen (h : Carries S T (fun _ _ => True) V p q)
    (hf : ∀ a b, V a b → Carries T U G W (f a) (g b)) : Carries S U G W (p >>= f) (q >>= g) :=
  h.bind hf fun _ _ _ _ _ _ => trivial

/-- So does a step that is the same on both sides. -/
theorem pass (h : Keeps S T V p q) (h' : Carries T U G W s s') :
    Carries S U G W (p >>= fun _ => s) (q >>= fun _ => s') :=
  (Carries.of_keeps h).andThen fun _ _ _ => h'

theorem position_bind {f : Position → Parser α} {g : Position → Parser β}
    (h : ∀ s t, Carries S T F V (f s) (g t)) :
    Carries S T F V (Parser.position >>= f) (Parser.position >>= g) :=
  fun c d => h c.position d.position c d

/-- The second alternative is tried only where the first one fails. -/
theorem orElse_failed (h : Carries S T F V p q)
    (h' : Carries (fun c d => S c d ∧ ∃ e, p c = .failed e) T F V p' q')
    (hstop : Halts S (fun c => ∃ a r, p' c = .done a r ∧ F a r) p q) :
    Carries S T F V (p <|> p') (q <|> q') := by
  intro c d a c' hcd hdone hc'
  rcases orElse_cases hdone with hp | ⟨hfailed, hp'⟩
  · obtain ⟨b, d', hq, hab, hcd'⟩ := h c d a c' hcd hp hc'
    exact ⟨b, d', orElse_of_done hq, hab, hcd'⟩
  · obtain ⟨e, hq⟩ := hstop c d hcd ⟨a, c', hp', hc'⟩ hfailed
    obtain ⟨b, d', hq', hab, hcd'⟩ := h' c d a c' ⟨hcd, hfailed⟩ hp' hc'
    exact ⟨b, d', orElse_of_failed hq hq', hab, hcd'⟩

theorem orElse (h : Carries S T F V p q) (h' : Carries S T F V p' q')
    (hstop : Halts S (fun c => ∃ a r, p' c = .done a r ∧ F a r) p q) :
    Carries S T F V (p <|> p') (q <|> q') :=
  h.orElse_failed (fun c d a c' hcd => h' c d a c' hcd.1) hstop

theorem maybe {G : Option α → Cursor → Prop} (h : Carries S S F V p q)
    (hF : ∀ a c, G (some a) c → F a c) (hstop : Halts S (G none) p q) :
    Carries S S G (Option.Rel V) (maybe p) (maybe q) := by
  intro c d o c' hcd hdone hc'
  rcases maybe_cases hdone with ⟨a, rfl, hp⟩ | ⟨hfailed, rfl, rfl⟩
  · obtain ⟨b, d', hq, hab, hcd'⟩ := h c d a c' hcd hp (hF a c' hc')
    exact ⟨some b, d', by rw [Parser.maybe, hq], .some hab, hcd'⟩
  · obtain ⟨e', hq⟩ := hstop _ d hcd hc' hfailed
    exact ⟨none, d, by rw [Parser.maybe, hq], .none, hcd⟩

theorem spanned (h : Carries S T F V p q) :
    Carries S T (fun x => F x.1) (fun x y => V x.1 y.1) (spanned p) (spanned q) := by
  intro c d x c' hcd hdone hc'
  obtain ⟨a, hp, rfl⟩ := spanned_eq_done.1 hdone
  obtain ⟨b, d', hq, hab, hcd'⟩ := h c d a c' hcd hp hc'
  exact ⟨_, d', spanned_eq_done.2 ⟨b, hq, rfl⟩, hab, hcd'⟩

/-! ## Repetition -/

/-- A repetition stops at the same place, where each item allows for what follows it. -/
theorem many {G : List α → Cursor → Prop} [Consumes q] (h : Carries S S F V p q)
    (hF : ∀ a c as r, Parser.many p c = .done as r → G (a :: as) r → F a c)
    (hG : ∀ a as r, G (a :: as) r → G as r) (hstop : Halts S (G []) p q) :
    Carries S S G (List.Forall₂ V) (many p) (many q) := by
  intro c d as c' hcd hdone hc'
  induction many_eq_done.1 hdone generalizing d with
  | nil hp =>
    obtain ⟨e', hq⟩ := hstop _ d hcd hc' ⟨_, hp⟩
    exact ⟨[], d, many_eq_done.2 (.nil hq), .nil, hcd⟩
  | @cons c next c' a as hp hlt hrest ih =>
    have hread := many_eq_done.2 hrest
    obtain ⟨b, d', hq, hab, hnext⟩ := h c d a next hcd hp (hF a next as c' hread hc')
    obtain ⟨bs, r, hrest', hbs, hr⟩ := ih d' hnext hread (hG a as c' hc')
    exact ⟨b :: bs, r, many_eq_done.2 (.cons hq (length_lt_of_done hq)
      (many_eq_done.1 hrest')), .cons hab hbs, hr⟩

section
variable {F : Cursor → Prop} [Consumes q] (h : Carries S S (fun _ => F) V p q)
include h

section
variable [Consumes s'] (hs : Keeps S S W s s') (hF : ∀ c x r, s c = .done x r → F c)
  (hK : ∀ c, K c → F c) (hclose : ∀ c x r, K c → s c ≠ .done x r)
include hs hF hK hclose

/-- So does a list of items: behind it no separator stands. -/
theorem sepTail : Carries S S (fun _ => K) (List.Forall₂ V) (sepTail s p) (sepTail s' q) := by
  rw [sepTail_eq_many, sepTail_eq_many]
  exact many (.pass hs h) (fun _ _ _ _ hread hr => of_sepTail hF hK (sepTail_eq_many ▸ hread) hr)
    (fun _ _ _ hr => hr) (.bind hs hclose)

theorem sepBy1 : Carries S S (fun _ => K) (List.Forall₂ V) (sepBy1 s p) (sepBy1 s' q) := by
  refine h.bind (fun a b hab => (h.sepTail hs hF hK hclose).map (fun _ _ h => h)
    fun as bs habs => .cons hab habs) fun a c x r hdone hr => ?_
  obtain ⟨as, r', hrest, hpure⟩ := bind_eq_done.1 hdone
  cases hpure
  exact of_sepTail hF hK hrest hr

theorem sepBy (hstop : Halts S K p q) :
    Carries S S (fun _ => K) (List.Forall₂ V) (sepBy s p) (sepBy s' q) := by
  intro c d as c' hcd hdone hc'
  rcases sepBy_eq_done.1 hdone with ⟨hfailed, rfl, rfl⟩ | ⟨a, next, as, hp, hrest, rfl⟩
  · obtain ⟨e', hq⟩ := hstop _ d hcd hc' hfailed
    exact ⟨[], d, sepBy_eq_done.2 (.inl ⟨⟨e', hq⟩, rfl, rfl⟩), .nil, hcd⟩
  · obtain ⟨b, d', hq, hab, hnext⟩ := h c d a next hcd hp (of_sepTail hF hK hrest hc')
    obtain ⟨bs, r, hrest', hbs, hr⟩ := h.sepTail hs hF hK hclose next d' as c' hnext hrest hc'
    exact ⟨b :: bs, r, sepBy_eq_done.2 (.inr ⟨b, d', bs, hq, hrest', rfl⟩), .cons hab hbs, hr⟩

end

variable {o' : Parser δ} [Consumes o'] {join' : β → δ → β → β} (ho : Keeps S S W o o')
  (hF : ∀ c x r, o c = .done x r → F c)
  (hjoin : ∀ a a', V a a' → ∀ x x', W x x' → ∀ b b', V b b' → V (join a x b) (join' a' x' b'))
include ho hF hjoin

/-- Operands joined from the left: behind them no operator stands. -/
theorem chainTail {left : α} {left' : β} (hleft : V left left') :
    Carries S S (fun _ => F) V (chainTail p o join left) (chainTail q o' join' left') := by
  intro c d a c' hcd hdone hc'
  induction chainTail_eq_done.1 hdone generalizing d left' with
  | nil hop =>
    obtain ⟨e', hop'⟩ := Halts.of_keeps (K := F) ho _ d hcd hc' ⟨_, hop⟩
    exact ⟨left', d, chainTail_eq_done.2 (.nil hop'), hleft, hcd⟩
  | @cons left right a x c behind next c' hop hp hlt hrest ih =>
    have hread := chainTail_eq_done.2 hrest
    obtain ⟨x', d₁, hop', hx, hbehind⟩ := Keeps.exists_right ho hcd hop
    obtain ⟨right', d', hq, hright, hnext⟩ :=
      h behind d₁ right next hbehind hp (of_chainTail hF hread hc')
    obtain ⟨b, r, hrest', hab, hr⟩ := ih (hjoin _ _ hleft _ _ hx _ _ hright) d' hnext hread hc'
    have hlt := (length_lt_of_done hq).trans (length_lt_of_done hop')
    exact ⟨b, r, chainTail_eq_done.2 (.cons hop' hq hlt (chainTail_eq_done.1 hrest')), hab, hr⟩

theorem chainLeft : Carries S S (fun _ => F) V (chainLeft p o join) (chainLeft q o' join') :=
  h.bind (fun _ _ hab => h.chainTail ho hF hjoin hab) fun _ _ _ _ hdone hr =>
    of_chainTail hF hdone hr

end

end Carries

end RobotSource.Parsing
