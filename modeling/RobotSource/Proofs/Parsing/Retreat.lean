import RobotSource.Proofs.Parsing.Reading
/-!
# Parsers that leave a way back

A parser that aborts ends all reading. Most parsers never do (`Retreats`): whatever they do not read
they fail at, and another alternative has its turn.
-/

namespace RobotSource.Parsing

open Parsing.Parser

/-- The parser gets done or fails, so that something else may be tried. -/
class Retreats {α : Type} (p : Parser α) : Prop where
  ne_aborted (c : Cursor) (e : Failure) : p c ≠ .aborted e

namespace Retreats

variable {α β : Type} {p q : Parser α} [h : Retreats p]

theorem cases (p : Parser α) [h : Retreats p] (c : Cursor) :
    (∃ a r, p c = .done a r) ∨ ∃ e, p c = .failed e := by
  cases hp : p c with
  | done a r => exact .inl ⟨a, r, rfl⟩
  | failed e => exact .inr ⟨e, rfl⟩
  | aborted e => exact absurd hp (h.ne_aborted c e)

/-- What does not get done has failed. -/
theorem failed {c : Cursor} (hnot : ∀ a r, p c ≠ .done a r) : ∃ e, p c = .failed e := by
  rcases cases p c with ⟨a, r, hp⟩ | hp
  · exact absurd hp (hnot a r)
  · exact hp

instance (a : α) : Retreats (pure a : Parser α) := ⟨nofun⟩

/-- A parser that goes on from what another has done, and does not abort when that one fails. -/
theorem of_failed {q : Parser β} (hdone : ∀ {c a r}, p c = .done a r → ∀ e, q c ≠ .aborted e)
    (hfailed : ∀ {c e}, p c = .failed e → ∀ e, q c ≠ .aborted e) : Retreats q where
  ne_aborted c := by
    rcases cases p c with ⟨a, r, hp⟩ | ⟨e, hp⟩
    · exact hdone hp
    · exact hfailed hp

instance {f : α → Parser β} [hf : ∀ a, Retreats (f a)] : Retreats (p >>= f) :=
  of_failed (p := p) (fun {c a r} hp => by rw [bind_apply, hp]; exact (hf a).ne_aborted r)
    (fun hp => by rw [bind_apply, hp]; nofun)

instance {q : Parser β} [Retreats q] : Retreats (p >>= fun _ => q) := inferInstance

instance {q : Parser β} [Retreats q] : Retreats (p *> q) :=
  inferInstanceAs (Retreats (p >>= fun _ => q))

instance [hq : Retreats q] : Retreats (p <|> q) where
  ne_aborted c e hdone := by
    change Parser.orElse p q c = .aborted e at hdone
    rw [Parser.orElse] at hdone
    rcases cases p c with ⟨a, r, hp⟩ | ⟨e', hp⟩ <;> rw [hp] at hdone
    · cases hdone
    · rcases cases q c with ⟨a, r, hq⟩ | ⟨e', hq⟩ <;> rw [hq] at hdone <;> cases hdone

instance : Retreats (maybe p) :=
  of_failed (p := p) (fun hp => by rw [Parser.maybe, hp]; nofun)
    (fun hp => by rw [Parser.maybe, hp]; nofun)

/-- What follows an option retreats in both of its cases. -/
instance (priority := high) {f : Option α → Parser β} [hnone : Retreats (f none)]
    [hsome : ∀ a, Retreats (f (some a))] : Retreats (maybe p >>= f) := by
  have hf : ∀ o, Retreats (f o) := fun o => by
    cases o with
    | none => exact hnone
    | some a => exact hsome a
  infer_instance

instance : Retreats position := ⟨nofun⟩

instance : Retreats (recognized p) :=
  of_failed (p := p) (fun hp => by rw [Parser.recognized, hp]; nofun)
    (fun hp => by rw [Parser.recognized, hp]; nofun)

omit h in
instance {what : String} : Retreats (named what p) where
  ne_aborted c e := by
    rw [Parser.named]
    cases p c <;> nofun

instance : Retreats (noticingEnd p) :=
  of_failed (p := p) (fun hp => by rw [noticingEnd, hp]; nofun)
    (fun hp => by rw [noticingEnd, hp]; nofun)

instance : Retreats (spanned p) := by
  unfold spanned
  infer_instance

omit h in
theorem consTo_ne_aborted {a : α} {o : Outcome (List α)} {e : Failure} (h : ∀ e, o ≠ .aborted e) :
    consTo a o ≠ .aborted e := by
  cases o with
  | done as r => nofun
  | failed e => nofun
  | aborted e => exact absurd rfl (h e)

instance : Retreats (many p) where
  ne_aborted c := by
    fun_induction Parser.many p c with
    | case1 => nofun
    | case2 c e' hp => exact absurd hp (h.ne_aborted c e')
    | case3 c a next _ _ ih => exact fun e => consTo_ne_aborted ih
    | case4 => nofun

instance : Retreats (many1 p) := by
  unfold many1
  infer_instance

section
variable {s : Parser β} [hs : Retreats s]

instance : Retreats (sepTail s p) := by
  rw [sepTail_eq_many]
  infer_instance

instance : Retreats (sepBy1 s p) := by
  unfold sepBy1
  infer_instance

instance : Retreats (sepBy s p) :=
  of_failed (p := p)
    (fun {c a r} hp => by
      rw [sepBy, hp]
      exact fun e => consTo_ne_aborted (ne_aborted (p := sepTail s p) r))
    (fun hp => by rw [sepBy, hp]; nofun)

instance {join : α → β → α → α} {left : α} : Retreats (chainTail p s join left) where
  ne_aborted c := by
    fun_induction Parser.chainTail p s join left c with
    | case1 => nofun
    | case2 left c e' hop => exact absurd hop (hs.ne_aborted c e')
    | case3 => nofun
    | case4 left c x behind _ e' hp => exact absurd hp (h.ne_aborted behind e')
    | case5 left c x behind _ right next _ _ ih => exact ih
    | case6 => nofun

instance {join : α → β → α → α} : Retreats (chainLeft p s join) := by
  unfold chainLeft
  infer_instance

end

omit h in
/-- A rule retreats if its body does whenever the inner references do. -/
theorem nested {rule : Parser α → Parser α} (h : ∀ p, Retreats p → Retreats (rule p)) :
    Retreats (nested rule) where
  ne_aborted c := by
    induction hk : c.rest.length using Nat.strongRecOn generalizing c with
    | ind k ih =>
      rw [Parser.nested]
      refine (h _ ⟨fun inner e => ?_⟩).ne_aborted c
      split
      · rename_i hlt
        exact ih _ (hk ▸ hlt) inner rfl e
      · simp

/-! ## Tokens -/

instance {f : Char → Bool} : Retreats (takeWhile f) := ⟨nofun⟩

instance : Retreats spaces := by
  unfold spaces
  infer_instance

instance {x : Char} : Retreats (char x) where
  ne_aborted c e := by
    rw [Parsing.char]
    split <;> nofun

instance : Retreats identifier where
  ne_aborted c e := by
    rw [identifier_apply]
    split <;> nofun

instance {word : String} : Retreats (keyword word) where
  ne_aborted c e := by
    rw [Parsing.keyword]
    split
    · nofun
    · split <;> nofun

instance {sym : String} : Retreats (symbol sym) where
  ne_aborted c e := by
    rw [Parsing.symbol]
    split <;> nofun

end Retreats

end RobotSource.Parsing
