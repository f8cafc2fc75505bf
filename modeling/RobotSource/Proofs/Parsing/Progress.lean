import RobotSource.Proofs.Parsing.Cursor
/-!
# Progress and real failures

A parser is `Orderly` if it only moves forward in the text, and if a failure of it stands at some
place behind the one where it began, says that the text is over only where it is, and is never that of
a repetition that came round without reading anything. Every way of putting orderly parsers together
is orderly again, provided that what is repeated reads something each time. The instances below let
the rules of a grammar be followed by type class inference.

The property relates two parsers that do the same on texts shorter than a bound. For a rule that
refers to itself this tells that its guard is never felt (`nested_eq`).
-/

namespace RobotSource.Parsing

open Parsing.Parser Text

variable {what : String} {f : Char → Bool} {e : Failure}

/-- The failure stands somewhere behind the cursor, and it is honest about the end of the text. -/
structure Failure.Real (c : Cursor) (e : Failure) : Prop where
  along : Along c e.cursor
  ended : e.reason = .endOfInput → e.cursor.rest = []
  read : e.reason ≠ .stalled

/-- The outcome of a parser that began at the cursor: it has moved forward, and has read something if
that is asked for, or its failure is real. -/
def Outcome.Real {α : Type} (strict : Bool) (c : Cursor) : Outcome α → Prop
  | .done _ r => Along c r ∧ (strict = true → r.rest.length < c.rest.length)
  | .failed e => e.Real c
  | .aborted e => e.Real c

/-- On texts shorter than the bound both parsers do the same, and their outcome is real. -/
class Orderly {α : Type} (n : Nat) (strict : Bool) (p q : Parser α) : Prop where
  outcome : ∀ c, c.rest.length < n → p c = q c ∧ (p c).Real strict c

variable {α β γ : Type} {n : Nat} {s : Bool} {c d : Cursor} {p q : Parser α}

/-! ## Outcomes -/

theorem Failure.Real.of_along (h : e.Real d) (hcd : Along c d) : e.Real c :=
  ⟨hcd.trans h.along, h.ended, h.read⟩

theorem Failure.Real.expecting (c : Cursor) (what : String) : (Failure.expecting c what).Real c :=
  ⟨refl_of _ c, nofun, nofun⟩

theorem Failure.Real.noticeEnd (h : e.Real c) : e.noticeEnd.Real c := by
  rw [Failure.noticeEnd]
  split
  · rename_i hend
    exact ⟨h.along, fun _ => by simpa [Cursor.atEnd] using hend, nofun⟩
  · exact h

theorem Failure.Real.merge {e e' : Failure} (h : e.Real c) (h' : e'.Real c) :
    (e.merge e').Real c := by
  rw [Failure.merge]
  split
  · exact h'
  · split
    · exact h
    · refine ⟨h.along, ?_, ?_⟩
      · dsimp only
        split
        · exact h.ended
        · exact nofun
      · dsimp only
        split
        · exact h.read
        · exact nofun

theorem Along.length_le (h : Along c d) : d.rest.length ≤ c.rest.length := by
  obtain ⟨u, hu, -⟩ := h
  rw [hu.rest, List.length_append]
  omega

/-- What began further on in the text is real from further back, and then has read something if it
did so itself or the place is really further back. -/
theorem Outcome.Real.of_along {s' : Bool} {o : Outcome α} (h : o.Real s' d) (hcd : Along c d)
    (hs : s → d.rest.length < c.rest.length) : o.Real (s || s') c := by
  cases o with
  | done a r =>
    refine ⟨hcd.trans h.1, fun hor => ?_⟩
    have hdr := h.1.length_le
    have hlen := hcd.length_le
    rcases Bool.or_eq_true_iff.1 hor with hs' | hs'
    · have := hs hs'
      omega
    · have := h.2 hs'
      omega
  | failed e => exact Failure.Real.of_along h hcd
  | aborted e => exact Failure.Real.of_along h hcd

/-! ## Sequences -/

namespace Orderly

theorem weaken (h : Orderly n true p q) : Orderly n s p q where
  outcome c hc := by
    obtain ⟨heq, hreal⟩ := h.outcome c hc
    refine ⟨heq, ?_⟩
    cases hp : p c with
    | done a r =>
      rw [hp] at hreal
      exact ⟨hreal.1, fun _ => hreal.2 rfl⟩
    | failed e => rwa [hp] at hreal
    | aborted e => rwa [hp] at hreal

theorem shrink (h : Orderly (n + 1) s p q) : Orderly n s p q :=
  ⟨fun c hc => h.outcome c (Nat.lt_succ_of_lt hc)⟩

theorem bind_of {m : Nat} {t : Bool} {f g : α → Parser β} (h : Orderly n s p q)
    (hf : ∀ a, Orderly m t (f a) (g a)) (hm : n ≤ if s then m + 1 else m) :
    Orderly n (s || t) (p >>= f) (q >>= g) where
  outcome c hc := by
    obtain ⟨heq, hreal⟩ := h.outcome c hc
    rw [bind_apply, bind_apply, ← heq]
    cases hp : p c with
    | done a r =>
      rw [hp] at hreal
      have hr : r.rest.length < m := by
        have := hreal.1.length_le
        cases s with
        | false => exact Nat.lt_of_le_of_lt this (Nat.lt_of_lt_of_le hc hm)
        | true =>
          have := hreal.2 rfl
          simp only [if_true] at hm
          omega
      obtain ⟨heq', hreal'⟩ := (hf a).outcome r hr
      exact ⟨heq', hreal'.of_along hreal.1 hreal.2⟩
    | failed e => exact ⟨rfl, by rwa [hp] at hreal⟩
    | aborted e => exact ⟨rfl, by rwa [hp] at hreal⟩

end Orderly

theorem along_of_done [h : ∀ n, Orderly (n + 1) false p p] {a : α} (hp : p c = .done a d) :
    Along c d := by
  have hreal := ((h _).outcome c (Nat.lt_succ_self _)).2
  rw [hp] at hreal
  exact hreal.1

instance [h : ∀ n, Orderly (n + 1) true p p] : Consumes p where
  length_lt c a d hp := by
    have hreal := ((h _).outcome c (Nat.lt_succ_self _)).2
    rw [hp] at hreal
    exact hreal.2 rfl

theorem lt_of_done [h : ∀ n, Orderly (n + 1) true p p] {a : α} (hp : p c = .done a d) :
    c.position < d.position := by
  obtain ⟨u, hu, -⟩ := along_of_done (h := fun n => (h n).weaken) hp
  refine hu.lt ?_
  rintro rfl
  have hlength := length_lt_of_done hp
  rw [hu.rest, List.nil_append] at hlength
  exact Nat.lt_irrefl _ hlength

theorem real_of_failed [h : ∀ n, Orderly (n + 1) false p p]
    (he : p c = .failed e ∨ p c = .aborted e) : e.Real c := by
  have hreal := ((h _).outcome c (Nat.lt_succ_self _)).2
  rcases he with he | he <;> rwa [he] at hreal

instance (priority := low) [h : Orderly n true p q] : Orderly n false p q := h.weaken

instance {a : α} : Orderly n false (pure a : Parser α) (pure a) :=
  ⟨fun c _ => ⟨rfl, refl_of _ c, nofun⟩⟩

section
variable {f g : α → Parser β}

instance [h : Orderly n false p q] [hf : ∀ a, Orderly n false (f a) (g a)] :
    Orderly n false (p >>= f) (q >>= g) :=
  h.bind_of hf (Nat.le_refl n)

instance [h : Orderly n false p q] [hf : ∀ a, Orderly n true (f a) (g a)] :
    Orderly n true (p >>= f) (q >>= g) :=
  h.bind_of hf (Nat.le_refl n)

instance [h : Orderly n true p q] [hf : ∀ a, Orderly n false (f a) (g a)] :
    Orderly n true (p >>= f) (q >>= g) :=
  h.bind_of hf (Nat.le_succ n)

/-- Behind something that was read only shorter texts are left. -/
instance [h : Orderly (n + 1) true p q] [hf : ∀ a, Orderly n false (f a) (g a)] :
    Orderly (n + 1) true (p >>= f) (q >>= g) :=
  h.bind_of hf (Nat.le_refl _)

end

section
variable {p' q' : Parser β}

-- What does not depend on the step before it is looked for only once.
instance [Orderly n false p q] [Orderly n false p' q'] :
    Orderly n false (p >>= fun _ => p') (q >>= fun _ => q') := inferInstance

instance [Orderly n false p q] [Orderly n true p' q'] :
    Orderly n true (p >>= fun _ => p') (q >>= fun _ => q') := inferInstance

instance [Orderly n true p q] [Orderly n false p' q'] :
    Orderly n true (p >>= fun _ => p') (q >>= fun _ => q') := inferInstance

instance [Orderly (n + 1) true p q] [Orderly n false p' q'] :
    Orderly (n + 1) true (p >>= fun _ => p') (q >>= fun _ => q') := inferInstance

instance [h : Orderly n s (p >>= fun _ => p') (q >>= fun _ => q')] :
    Orderly n s (p *> p') (q *> q') := h

end

/-! ## One outcome after another -/

/-- What becomes of an outcome is real again. -/
theorem Orderly.lift {s' : Bool} (h : Orderly n s p q) (F : Cursor → Outcome α → Outcome β)
    (hF : ∀ c o, o.Real s c → (F c o).Real s' c) :
    Orderly n s' (fun c => F c (p c)) (fun c => F c (q c)) where
  outcome c hc := by
    obtain ⟨heq, hreal⟩ := h.outcome c hc
    rw [← heq]
    exact ⟨rfl, hF c _ hreal⟩

instance {f : α → β} [h : Orderly n s p q] : Orderly n s (f <$> p) (f <$> q) :=
  h.lift (fun _ => fun
    | .done a r => .done (f a) r
    | .failed e => .failed e
    | .aborted e => .aborted e) fun _ o h => by cases o <;> exact h

instance [h : Orderly n false p q] : Orderly n false (maybe p) (maybe q) :=
  h.lift (fun c => fun
    | .done a r => .done (some a) r
    | .failed _ => .done none c
    | .aborted e => .aborted e) fun c o h => by
      cases o with
      | failed e => exact ⟨refl_of _ c, nofun⟩
      | _ => exact h

instance [h : Orderly n false p q] : Orderly n false (attempt p) (attempt q) :=
  h.lift (fun c => fun
    | .done a r => .done (some a) r
    | _ => .done none c) fun c o h => by
      cases o with
      | done a r => exact h
      | _ => exact ⟨refl_of _ c, nofun⟩

instance [h : Orderly n s p q] : Orderly n s (recognized p) (recognized q) :=
  h.lift (fun c => fun
    | .done _ r => .done (String.ofList (c.upTo r)) r
    | .failed e => .failed e
    | .aborted e => .aborted e) fun _ o h => by cases o <;> exact h

instance [h : Orderly n false p q] : Orderly n false (lookahead p) (lookahead q) :=
  h.lift (fun c => fun
    | .done a _ => .done a c
    | o => o) fun c o h => by
      cases o with
      | done a r => exact ⟨refl_of _ c, nofun⟩
      | _ => exact h

instance [h : Orderly n s p q] : Orderly n s (named what p) (named what q) :=
  h.lift (fun c => fun
    | .done a r => .done a r
    | _ => .failed (.expecting c what)) fun c o h => by
      cases o with
      | done a r => exact h
      | _ => exact .expecting c what

instance [h : Orderly n s p q] : Orderly n s (noticingEnd p) (noticingEnd q) :=
  h.lift (fun _ => fun
    | .done a r => .done a r
    | .failed e => .failed e.noticeEnd
    | .aborted e => .aborted e.noticeEnd) fun _ o h => by
      cases o with
      | done a r => exact h
      | _ => exact Failure.Real.noticeEnd h

/-- What follows an option is followed for both of its cases. -/
theorem Orderly.option_bind {p q : Parser (Option α)} {f g : Option α → Parser β}
    (h : Orderly n false p q) (hnone : Orderly n s (f none) (g none))
    (hsome : ∀ a, Orderly n s (f (some a)) (g (some a))) : Orderly n s (p >>= f) (q >>= g) := by
  have hf : ∀ o, Orderly n s (f o) (g o) := fun o => by
    cases o with
    | none => exact hnone
    | some a => exact hsome a
  exact h.bind_of hf (Nat.le_refl n)

section
variable {f g : Option α → Parser β} [Orderly n false p q] [hnone : Orderly n s (f none) (g none)]
  [hsome : ∀ a, Orderly n s (f (some a)) (g (some a))]

instance (priority := low) : Orderly n s (maybe p >>= f) (maybe q >>= g) :=
  .option_bind inferInstance hnone hsome

instance (priority := low) : Orderly n s (attempt p >>= f) (attempt q >>= g) :=
  .option_bind inferInstance hnone hsome

end

/-! ## Places -/

instance : Orderly n false cursor cursor := ⟨fun c _ => ⟨rfl, refl_of _ c, nofun⟩⟩

instance : Orderly n false position position := ⟨fun c _ => ⟨rfl, refl_of _ c, nofun⟩⟩

instance : Orderly n s (expected what : Parser α) (expected what) :=
  ⟨fun c _ => ⟨rfl, .expecting c what⟩⟩

instance : Orderly n s (demanded what : Parser α) (demanded what) :=
  ⟨fun c _ => ⟨rfl, .expecting c what⟩⟩

instance {b : Prop} [Decidable b] {p' q' : Parser α} [h : Orderly n s p q] [h' : Orderly n s p' q'] :
    Orderly n s (if b then p else p') (if b then q else q') := by
  split
  · exact h
  · exact h'

instance [Orderly n false p q] : Orderly n false (spanned p) (spanned q) := by
  unfold spanned
  infer_instance

instance [Orderly n true p q] : Orderly n true (spanned p) (spanned q) := by
  unfold spanned
  infer_instance

/-! ## Alternatives -/

section
variable {p' q' : Parser α}

instance [h : Orderly n s p q] [h' : Orderly n s p' q'] : Orderly n s (p <|> p') (q <|> q') where
  outcome c hc := by
    obtain ⟨heq, hreal⟩ := h.outcome c hc
    obtain ⟨heq', hreal'⟩ := h'.outcome c hc
    change Parser.orElse p p' c = Parser.orElse q q' c ∧ (Parser.orElse p p' c).Real s c
    rw [Parser.orElse, Parser.orElse, ← heq, ← heq']
    refine ⟨rfl, ?_⟩
    cases hp : p c with
    | failed e =>
      cases hp' : p' c with
      | failed e' =>
        rw [hp] at hreal
        rw [hp'] at hreal'
        exact Failure.Real.merge hreal hreal'
      | _ => rwa [hp'] at hreal'
    | _ => rwa [hp] at hreal

end

/-! ## Repetition -/

theorem Outcome.Real.consTo {a : α} {o : Outcome (List α)} (h : o.Real s c) :
    (consTo a o).Real s c := by
  cases o <;> exact h

/-- A repetition comes round only where something was read. -/
instance [h : Orderly n true p q] : Orderly n false (many p) (many q) where
  outcome c hc := by
    induction hk : c.rest.length using Nat.strongRecOn generalizing c with
    | ind k ih =>
      obtain ⟨heq, hreal⟩ := h.outcome c hc
      rw [many, many, ← heq]
      cases hp : p c with
      | done a next =>
        rw [hp] at hreal
        have hlt := hreal.2 rfl
        obtain ⟨heq', hreal'⟩ := ih _ (hk ▸ hlt) next (hlt.trans hc) rfl
        simp only [if_pos hlt, ← heq', true_and]
        exact .consTo (hreal'.of_along (s := false) hreal.1 nofun)
      | failed e => exact ⟨rfl, refl_of _ c, nofun⟩
      | aborted e => exact ⟨rfl, by rwa [hp] at hreal⟩

instance [Orderly n true p q] : Orderly n true (many1 p) (many1 q) := by
  unfold many1
  infer_instance

section
variable {p₀ q₀ : Parser β}

instance [Orderly n true p₀ q₀] [Orderly n false p q] :
    Orderly n false (sepTail p₀ p) (sepTail q₀ q) := by
  rw [sepTail_eq_many, sepTail_eq_many]
  infer_instance

instance [Orderly n true p₀ q₀] [Orderly n true p q] :
    Orderly n true (sepBy1 p₀ p) (sepBy1 q₀ q) := by
  unfold sepBy1
  infer_instance

instance [Orderly n true p₀ q₀] [Orderly n false p q] :
    Orderly n false (sepBy p₀ p) (sepBy q₀ q) := by
  rw [sepBy_eq_maybe, sepBy_eq_maybe]
  refine .option_bind inferInstance (inferInstanceAs (Orderly n false (pure []) (pure []))) fun a => ?_
  exact inferInstanceAs (Orderly n false ((a :: ·) <$> sepTail p₀ p) ((a :: ·) <$> sepTail q₀ q))

instance {join : α → β → α → α} {l : α} [h₀ : Orderly n true p₀ q₀] [h : Orderly n false p q] :
    Orderly n false (chainTail p p₀ join l) (chainTail q q₀ join l) where
  outcome c hc := by
    induction hk : c.rest.length using Nat.strongRecOn generalizing c l with
    | ind k ih =>
      obtain ⟨heq₀, hreal₀⟩ := h₀.outcome c hc
      rw [chainTail, chainTail, ← heq₀]
      cases hp₀ : p₀ c with
      | done x behind =>
        rw [hp₀] at hreal₀
        have hbehind := hreal₀.2 rfl
        obtain ⟨heq, hreal⟩ := h.outcome behind (hbehind.trans hc)
        simp only [← heq]
        cases hp : p behind with
        | done a next =>
          rw [hp] at hreal
          have hnext := hreal₀.1.trans hreal.1
          have hlt := hreal.1.length_le.trans_lt hbehind
          obtain ⟨heq', hreal'⟩ := ih _ (hk ▸ hlt) (l := join l x a) next (hlt.trans hc) rfl
          simp only [if_pos hlt, ← heq', true_and]
          exact hreal'.of_along (s := false) hnext nofun
        | failed e =>
          rw [hp] at hreal
          exact ⟨rfl, Failure.Real.of_along hreal hreal₀.1⟩
        | aborted e =>
          rw [hp] at hreal
          exact ⟨rfl, Failure.Real.of_along hreal hreal₀.1⟩
      | failed e => exact ⟨rfl, refl_of _ c, nofun⟩
      | aborted e => exact ⟨rfl, by rwa [hp₀] at hreal₀⟩

instance {join : α → β → α → α} [Orderly n true p₀ q₀] [Orderly n true p q] :
    Orderly n true (chainLeft p p₀ join) (chainLeft q q₀ join) := by
  unfold chainLeft
  infer_instance

end

/-! ## Rules that refer to themselves -/

section
variable {rule : Parser α → Parser α}

/-- **The guard of a rule is never felt**, if its body asks for inner texts only behind something that
was read. -/
theorem nested_apply (h : ∀ n p q, Orderly n s p q → Orderly (n + 1) s (rule p) (rule q))
    (c : Cursor) : nested rule c = rule (nested rule) c ∧ (nested rule c).Real s c := by
  induction hk : c.rest.length using Nat.strongRecOn generalizing c with
  | ind k ih =>
    rw [nested]
    refine (h c.rest.length _ _ ⟨fun inner hinner => ?_⟩).outcome c (Nat.lt_succ_self _)
    simp only [if_pos hinner, true_and]
    exact (ih _ (hk ▸ hinner) inner rfl).2

theorem nested_eq (h : ∀ n p q, Orderly n s p q → Orderly (n + 1) s (rule p) (rule q)) :
    nested rule = rule (nested rule) :=
  funext fun c => (nested_apply h c).1

theorem Orderly.nested (h : ∀ n p q, Orderly n s p q → Orderly (n + 1) s (rule p) (rule q))
    (n : Nat) : Orderly n s (nested rule) (nested rule) :=
  ⟨fun c _ => ⟨rfl, (nested_apply h c).2⟩⟩

/-- Up to a given length of the texts, the rule is its body in its body, and so on, as many times as
needed. What holds of a failure and is kept by the body holds of a parser that does the same as the
rule there. -/
theorem exists_unfolding {motive : Parser α → Prop}
    (h : ∀ n p q, Orderly n s p q → Orderly (n + 1) s (rule p) (rule q))
    (hfail : motive (expected ""))
    (hstep : ∀ p, (∀ n, Orderly n s p p) → motive p → motive (rule p)) (k : Nat) :
    ∃ p, motive p ∧ ∀ c : Cursor, c.rest.length ≤ k → nested rule c = p c := by
  have hunfold : ∃ p, motive p ∧ (∀ n, Orderly n s p p) ∧ Orderly (k + 1) s p (nested rule) := by
    induction k with
    | zero =>
      have hone : Orderly 1 s (rule (expected "")) (rule (nested rule)) := h 0 _ _ ⟨nofun⟩
      refine ⟨_, hstep _ (fun n => inferInstance) hfail, fun n => (h n _ _ inferInstance).shrink, ?_⟩
      rwa [nested_eq h]
    | succ k ih =>
      obtain ⟨p, hp, hreal, hsame⟩ := ih
      refine ⟨rule p, hstep p hreal hp, fun n => (h n p p (hreal n)).shrink, ?_⟩
      rw [nested_eq h]
      exact h _ _ _ hsame
  obtain ⟨p, hp, -, hsame⟩ := hunfold
  exact ⟨p, hp, fun c hc => ((hsame.outcome c (Nat.lt_succ_of_le hc)).1).symm⟩

end

/-! ## Tokens -/

/-- A token takes characters from the text or fails where it stands. -/
theorem Orderly.of_drop {p : Parser α} (h : ∀ c, (∃ a k, p c = .done a (c.drop k) ∧
      (s = true → 0 < k ∧ c.rest ≠ [])) ∨ ∃ e, p c = .failed e ∧ e.Real c) : Orderly n s p p where
  outcome c _ := by
    refine ⟨rfl, ?_⟩
    rcases h c with ⟨a, k, hp, hk⟩ | ⟨e, hp, he⟩
    · rw [hp]
      refine ⟨.of_drop fun _ _ => trivial, fun hs => ?_⟩
      have hlen := List.length_pos_iff.2 (hk hs).2
      have := (hk hs).1
      rw [Cursor.rest_drop, List.length_drop]
      omega
    · rwa [hp]

instance : Orderly n false (takeWhile f) (takeWhile f) :=
  .of_drop fun _ => .inl ⟨_, _, rfl, nofun⟩

instance {x : Char} : Orderly n true (char x) (char x) := by
  refine .of_drop fun c => ?_
  rw [char]
  split
  · rename_i hx
    exact .inl ⟨x, 1, rfl, fun _ => ⟨Nat.one_pos, fun hnil => by simp [hnil] at hx⟩⟩
  · exact .inr ⟨_, rfl, .expecting c _⟩

instance :
    Orderly n true (takeWhile1 what f) (takeWhile1 what f) := by
  refine .of_drop fun c => ?_
  rw [takeWhile1]
  split
  · exact .inr ⟨_, rfl, .expecting c _⟩
  · rename_i hne
    refine .inl ⟨_, _, rfl, fun _ => ⟨List.length_pos_iff.2 hne, fun hnil => hne ?_⟩⟩
    rw [hnil, List.takeWhile_nil]

instance :
    Orderly n true (charThat what f) (charThat what f) := by
  refine .of_drop fun c => ?_
  rw [charThat]
  split
  · rename_i hrest
    split
    · exact .inl ⟨_, 1, rfl, fun _ => ⟨Nat.one_pos, by simp [hrest]⟩⟩
    · exact .inr ⟨_, rfl, .expecting c _⟩
  · exact .inr ⟨_, rfl, .expecting c _⟩

instance : Orderly n true identifier identifier := by
  refine .of_drop fun c => ?_
  rw [identifier]
  split
  · rename_i hrest
    split
    · exact .inl ⟨_, _, rfl, fun _ => ⟨Nat.succ_pos _, by simp [hrest]⟩⟩
    · exact .inr ⟨_, rfl, .expecting c _⟩
  · exact .inr ⟨_, rfl, .expecting c _⟩

/-- A word takes its own characters and the spaces behind them. -/
theorem Worded.exists_drop {word : String} {k : Nat} [h : Worded word] (a : α)
    (hk : matchLength? word.toList c.rest = some k) :
    ∃ b j, (do spaces; return a : Parser α) (c.drop k) = .done b (c.drop j) ∧
      (s = true → 0 < j ∧ c.rest ≠ []) := by
  obtain ⟨hpos, hle⟩ := matchLength?_pos h.fact.1 hk
  refine ⟨a, k + _, by rw [← Cursor.drop_drop]; rfl, fun _ => ⟨by omega, ?_⟩⟩
  exact List.ne_nil_of_length_pos (by omega)

instance {sym : String} [Worded sym] : Orderly n true (symbol sym) (symbol sym) := by
  refine .of_drop fun c => ?_
  rw [symbol]
  split
  · exact .inr ⟨_, rfl, .expecting c _⟩
  · rename_i k hk
    exact .inl (Worded.exists_drop _ hk)

instance {word : String} [Worded word] : Orderly n true (keyword word) (keyword word) := by
  refine .of_drop fun c => ?_
  rw [keyword]
  split
  · exact .inr ⟨_, rfl, .expecting c _⟩
  · rename_i k hk
    split
    · exact .inr ⟨_, rfl, .expecting c _⟩
    · exact .inl (Worded.exists_drop _ hk)

instance : Orderly n true lineBreak lineBreak := by
  refine .of_drop fun c => ?_
  rw [lineBreak]
  split
  · rename_i hrest
    exact .inl ⟨_, 1, rfl, fun _ => ⟨Nat.one_pos, by simp [hrest]⟩⟩
  · rename_i hrest
    exact .inl ⟨_, 2, rfl, fun _ => ⟨Nat.two_pos, by simp [hrest]⟩⟩
  · exact .inr ⟨_, rfl, refl_of _ c, nofun, nofun⟩

instance : Orderly n false endOfText endOfText := by
  refine .of_drop fun c => ?_
  rw [endOfText]
  split
  · exact .inl ⟨[], 0, by rw [Cursor.drop_zero], nofun⟩
  · exact .inr ⟨_, rfl, refl_of _ c, nofun, nofun⟩

instance : Orderly n false spaces spaces := by unfold spaces; infer_instance

instance : Orderly n true digits digits := by unfold digits; infer_instance

instance : Orderly n false restOfLine restOfLine := by unfold restOfLine; infer_instance

instance : Orderly n false lineEnd lineEnd := by unfold lineEnd; infer_instance

instance [Orderly n false p q] : Orderly n true (parens p) (parens q) := by
  unfold parens between; infer_instance

instance [Orderly n false p q] : Orderly n true (brackets p) (brackets q) := by
  unfold brackets between; infer_instance

end RobotSource.Parsing
