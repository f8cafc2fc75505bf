import RobotSource.Proofs.Parsing.Token
/-!
# What a parser has read

The outcome of a composed parser is taken apart into those of its pieces (`bind_eq_done` and its
like). `Yields` says what holds of the value and the cursor behind a parser if something holds of the
cursor before it; every way of putting parsers together has its rule. A special case is `Reads`: each
piece leads from one cursor to another along some relation, and so does the whole. In the other
direction, `FailsAt` says that a parser has no chance where a given character stands.
-/

namespace RobotSource.Parsing

namespace Parser

variable {α β : Type} {p q : Parser α} {c r : Cursor} {a : α} {b : β}
variable {e : Failure} {as : List α}
variable {f : α → Parser β} {s : Parser β}

/-! ## Outcomes taken apart -/

theorem bind_eq_done :
    (p >>= f) c = .done b r ↔ ∃ a c', p c = .done a c' ∧ f a c' = .done b r := by
  rw [bind_apply]
  cases p c <;> simp

section Sequences

variable {γ δ ε : Type} {f : α → Parser β} {g : α → β → Parser γ} {h : α → β → γ → Parser δ}
variable {k : α → β → γ → δ → Parser ε}

theorem bind₂_eq_done {z : γ} :
    (do let x ← p; let y ← f x; g x y) c = .done z r ↔
      ∃ x c₁, p c = .done x c₁ ∧ ∃ y c₂, f x c₁ = .done y c₂ ∧ g x y c₂ = .done z r := by
  simp only [bind_eq_done]

theorem bind₃_eq_done {w : δ} :
    (do let x ← p; let y ← f x; let z ← g x y; h x y z) c = .done w r ↔
      ∃ x c₁, p c = .done x c₁ ∧ ∃ y c₂, f x c₁ = .done y c₂ ∧
        ∃ z c₃, g x y c₂ = .done z c₃ ∧ h x y z c₃ = .done w r := by
  simp only [bind_eq_done]

theorem bind₄_eq_done {v : ε} :
    (do let x ← p; let y ← f x; let z ← g x y; let w ← h x y z; k x y z w) c = .done v r ↔
      ∃ x c₁, p c = .done x c₁ ∧ ∃ y c₂, f x c₁ = .done y c₂ ∧ ∃ z c₃, g x y c₂ = .done z c₃ ∧
        ∃ w c₄, h x y z c₃ = .done w c₄ ∧ k x y z w c₄ = .done v r := by
  simp only [bind_eq_done]

end Sequences

theorem bind_of_done {c' : Cursor} (hp : p c = .done a c')
    (hf : f a c' = .done b r) : (p >>= f) c = .done b r :=
  bind_eq_done.2 ⟨a, c', hp, hf⟩

theorem map_eq_done {f : α → β} : (f <$> p) c = .done b r ↔ ∃ a, p c = .done a r ∧ f a = b := by
  rw [map_apply]
  cases p c <;> simp
  tauto

theorem seqRight_eq_done {q : Parser β} :
    (p *> q) c = .done b r ↔ ∃ a c', p c = .done a c' ∧ q c' = .done b r := by
  rw [seqRight_apply]
  cases p c <;> simp

instance {q : Parser β} [Consumes p] [Consumes q] : Consumes (p *> q) where
  length_lt c b d hdone := by
    obtain ⟨_, _, hp, hq⟩ := seqRight_eq_done.1 hdone
    exact (length_lt_of_done hq).trans (length_lt_of_done hp)

/-- The second alternative has its turn only where the first one fails. -/
theorem orElse_cases (h : (p <|> q) c = .done a r) :
    p c = .done a r ∨ (∃ e, p c = .failed e) ∧ q c = .done a r := by
  change Parser.orElse p q c = .done a r at h
  rw [Parser.orElse] at h
  cases hp : p c <;> rw [hp] at h
  · exact .inl h
  · cases hq : q c <;> rw [hq] at h <;> cases h
    exact .inr ⟨⟨_, rfl⟩, rfl⟩
  · cases h

theorem orElse_eq_done (h : (p <|> q) c = .done a r) : p c = .done a r ∨ q c = .done a r :=
  (orElse_cases h).imp_right And.right

/-- Both alternatives fail where the choice does. -/
theorem orElse_eq_failed (h : (p <|> q) c = .failed e) :
    (∃ e, p c = .failed e) ∧ ∃ e, q c = .failed e := by
  change Parser.orElse p q c = .failed e at h
  rw [Parser.orElse] at h
  cases hp : p c <;> rw [hp] at h
  · cases h
  · cases hq : q c <;> rw [hq] at h <;> cases h
    exact ⟨⟨_, rfl⟩, _, rfl⟩
  · cases h

theorem map_eq_failed {f : α → β} : (f <$> p) c = .failed e ↔ p c = .failed e := by
  rw [map_apply]
  cases p c <;> simp

/-- Nothing is read only where the parser fails. -/
theorem maybe_cases {o : Option α} (h : maybe p c = .done o r) :
    (∃ a, o = some a ∧ p c = .done a r) ∨ (∃ e, p c = .failed e) ∧ o = none ∧ r = c := by
  rw [maybe] at h
  cases hp : p c <;> rw [hp] at h <;> cases h
  · exact .inl ⟨_, rfl, rfl⟩
  · exact .inr ⟨⟨_, rfl⟩, rfl, rfl⟩

theorem maybe_eq_done {o : Option α} (h : maybe p c = .done o r) :
    (∃ a, o = some a ∧ p c = .done a r) ∨ o = none ∧ r = c :=
  (maybe_cases h).imp_right And.right

theorem orElse_of_done (h : p c = .done a r) : (p <|> q) c = .done a r := by
  change Parser.orElse p q c = .done a r
  rw [Parser.orElse, h]

theorem orElse_failed (hp : ∃ e, p c = .failed e) (hq : ∃ e, q c = .failed e) :
    ∃ e, (p <|> q) c = .failed e := by
  obtain ⟨e, he⟩ := hp
  obtain ⟨e', he'⟩ := hq
  refine ⟨e.merge e', ?_⟩
  change Parser.orElse p q c = _
  rw [Parser.orElse, he, he']

theorem orElse_of_failed (hp : p c = .failed e) (h : q c = .done a r) :
    (p <|> q) c = .done a r := by
  change Parser.orElse p q c = .done a r
  rw [Parser.orElse, hp, h]

theorem recognized_eq_done {s : String} :
    recognized p c = .done s r ↔ ∃ a, p c = .done a r ∧ s = String.ofList (c.upTo r) := by
  rw [recognized]
  cases p c <;> simp
  rw [and_comm, and_congr_right_iff]
  rintro rfl
  exact eq_comm

theorem noticingEnd_eq_done : noticingEnd p c = .done a r ↔ p c = .done a r := by
  rw [noticingEnd]
  cases p c <;> simp

theorem spanned_eq_done {x : α × Span} :
    spanned p c = .done x r ↔ ∃ a, p c = .done a r ∧ x = (a, ⟨c.position, r.position⟩) := by
  rw [spanned, noticingEnd_eq_done]
  simp only [bind_eq_done, position, pure_apply, Outcome.done.injEq]
  constructor
  · rintro ⟨_, _, ⟨rfl, rfl⟩, a, c', hp, _, _, ⟨rfl, rfl⟩, rfl, rfl⟩
    exact ⟨a, hp, rfl⟩
  · rintro ⟨a, hp, rfl⟩
    exact ⟨_, _, ⟨rfl, rfl⟩, a, r, hp, _, _, ⟨rfl, rfl⟩, rfl, rfl⟩

/-- What is read from the beginning of a text. -/
theorem run_eq_ok {text : String} : p.run text = .ok a ↔ ∃ r, p (.ofText text) = .done a r := by
  rw [Parser.run]
  cases p (.ofText text) <;> simp

theorem consTo_eq_done {o : Outcome (List α)} :
    consTo a o = .done as r ↔ ∃ as', o = .done as' r ∧ as = a :: as' := by
  cases o <;> simp [consTo]
  tauto

/-! ## Repetitions taken apart -/

/-- How items are read one after the other, up to where one fails. -/
inductive Many (p : Parser α) : Cursor → List α → Cursor → Prop
  | nil {c : Cursor} {e : Failure} (h : p c = .failed e) : Many p c [] c
  | cons {c next r : Cursor} {a : α} {as : List α} (h : p c = .done a next)
      (hlt : next.rest.length < c.rest.length) (hrest : Many p next as r) : Many p c (a :: as) r

theorem many_eq_done : many p c = .done as r ↔ Many p c as r := by
  constructor
  · intro h
    fun_induction many p c generalizing as with
    | case1 c e hp =>
      cases h
      exact .nil hp
    | case2 => cases h
    | case3 c a next hp hlt ih =>
      obtain ⟨as, hrest, rfl⟩ := consTo_eq_done.1 h
      exact .cons hp hlt (ih hrest)
    | case4 => cases h
  · intro h
    induction h with
    | nil h => rw [many, h]
    | cons h hlt _ ih => simp only [many, h, if_pos hlt, ih, consTo]

/-- Items behind separators are separators with items, over and over. -/
theorem sepTail_eq_many : sepTail s p = many (s *> p) := by
  funext c
  fun_induction sepTail s p c <;> rw [many, seqRight_apply] <;> simp only [*, if_true, if_false]

theorem sepTail_eq_done : sepTail s p c = .done as r ↔ Many (s *> p) c as r := by
  rw [sepTail_eq_many, many_eq_done]

/-- A list may be missing. -/
theorem sepBy_eq_maybe :
    sepBy s p = maybe p >>= fun o => o.elim (pure []) fun a => (a :: ·) <$> sepTail s p := by
  funext c
  rw [sepBy, bind_apply, maybe]
  cases p c with
  | done a next =>
    simp only [Option.elim, map_apply]
    cases sepTail s p next <;> rfl
  | failed e => rfl
  | aborted e => rfl

theorem sepBy_eq_done :
    sepBy s p c = .done as r ↔ (∃ e, p c = .failed e) ∧ as = [] ∧ r = c ∨
      ∃ a next as', p c = .done a next ∧ sepTail s p next = .done as' r ∧ as = a :: as' := by
  rw [sepBy]
  cases p c with
  | failed e => simp [eq_comm]
  | aborted e => simp
  | done a next => simp [consTo_eq_done]

/-- How operands are joined from the left. -/
inductive ChainTail (p : Parser α) (o : Parser β) (join : α → β → α → α) :
    α → Cursor → α → Cursor → Prop
  | nil {left : α} {c : Cursor} {e : Failure} (h : o c = .failed e) :
      ChainTail p o join left c left c
  | cons {left right a : α} {x : β} {c behind next r : Cursor} (ho : o c = .done x behind)
      (h : p behind = .done right next) (hlt : next.rest.length < c.rest.length)
      (hrest : ChainTail p o join (join left x right) next a r) : ChainTail p o join left c a r

theorem chainTail_eq_done {o : Parser β} {join : α → β → α → α} {left : α} :
    chainTail p o join left c = .done a r ↔ ChainTail p o join left c a r := by
  constructor
  · intro h
    fun_induction chainTail p o join left c with
    | case1 left c e ho =>
      cases h
      exact .nil ho
    | case2 => cases h
    | case3 => cases h
    | case4 => cases h
    | case5 left c x behind ho right next hp hlt ih => exact .cons ho hp hlt (ih h)
    | case6 => cases h
  · intro h
    induction h with
    | nil h => rw [chainTail, h]
    | cons ho h hlt _ ih => simp only [chainTail, ho, h, if_pos hlt, ih]

end Parser

open Parsing.Parser Text List

/-! ## What holds behind a parser -/

/-- Where `A` holds, and whatever the parser reads, `B` holds of the value and the cursor behind. -/
def Yields {α : Type} (A : Cursor → Prop) (p : Parser α) (B : α → Cursor → Prop) : Prop :=
  ∀ c a r, A c → p c = .done a r → B a r

namespace Yields

variable {α β γ : Type} {A A' : Cursor → Prop} {B B' : α → Cursor → Prop} {C : β → Cursor → Prop}
variable {p q : Parser α}

theorem imp (h : Yields A p B) (hA : ∀ c, A' c → A c) (hB : ∀ a r, B a r → B' a r) :
    Yields A' p B' :=
  fun c a r hc hdone => hB a r (h c a r (hA c hc) hdone)

theorem pure {a : α} (h : ∀ c, A c → B a c) : Yields A (pure a : Parser α) B := by
  intro c b r hc hdone
  cases hdone
  exact h c hc

theorem bind (h : Yields A p B) (hf : ∀ a, Yields (B a) (f a) C) :
    Yields A (p >>= f) C := by
  intro c b r hc hdone
  obtain ⟨a, c', hp, hfa⟩ := bind_eq_done.1 hdone
  exact hf a c' b r (h c a c' hc hp) hfa

theorem map {f : α → β} (h : Yields A p fun a => C (f a)) : Yields A (f <$> p) C :=
  h.bind fun _ => .pure fun _ hc => hc

theorem seqRight {q : Parser β} (h : Yields A p fun _ => A') (h' : Yields A' q C) :
    Yields A (p *> q) C :=
  h.bind fun _ => h'

theorem orElse (h : Yields A p B) (h' : Yields A q B) : Yields A (p <|> q) B := by
  intro c a r hc hdone
  rcases orElse_eq_done hdone with hp | hq
  · exact h c a r hc hp
  · exact h' c a r hc hq

theorem maybe {B : Option α → Cursor → Prop} (h : Yields A p fun a => B (some a))
    (hnone : ∀ c, A c → B none c) : Yields A (maybe p) B := by
  intro c o r hc hdone
  rcases maybe_eq_done hdone with ⟨a, rfl, hp⟩ | ⟨rfl, rfl⟩
  · exact h c a r hc hp
  · exact hnone _ hc

theorem attempt {B : Option α → Cursor → Prop} (h : Yields A p fun a => B (some a))
    (hnone : ∀ c, A c → B none c) : Yields A (attempt p) B := by
  intro c o r hc hdone
  rw [Parser.attempt] at hdone
  cases hp : p c with
  | done a next =>
    rw [hp] at hdone
    cases hdone
    exact h c a r hc hp
  | failed e =>
    rw [hp] at hdone
    cases hdone
    exact hnone _ hc
  | aborted e =>
    rw [hp] at hdone
    cases hdone
    exact hnone _ hc

theorem lookahead (h : ∀ a c, A c → B a c) : Yields A (lookahead p) B := by
  intro c a r hc hdone
  rw [Parser.lookahead] at hdone
  cases hp : p c <;> rw [hp] at hdone <;> cases hdone
  exact h a c hc

theorem position {B : Position → Cursor → Prop} (h : ∀ c, A c → B c.position c) :
    Yields A position B := by
  intro c a r hc hdone
  cases hdone
  exact h c hc

/-- What one more value keeps holds behind all of them. -/
theorem many {I : List α → Cursor → Prop} (h : ∀ as, Yields (I as) p fun a => I (as ++ [a]))
    (as : List α) : Yields (I as) (many p) fun bs => I (as ++ bs) := by
  intro c bs r hc hdone
  induction many_eq_done.1 hdone generalizing as with
  | nil => rwa [append_nil]
  | cons hp _ hrest ih =>
    have hnext := ih (as ++ [_]) (h as _ _ _ hc hp) (many_eq_done.2 hrest)
    rwa [append_assoc, singleton_append] at hnext

/-- So does what a separator and one more item keep. -/
theorem sepTail {I J : List α → Cursor → Prop}
    (hs : ∀ as, Yields (I as) s fun _ => J as) (h : ∀ as, Yields (J as) p fun a => I (as ++ [a]))
    (as : List α) : Yields (I as) (sepTail s p) fun bs => I (as ++ bs) := by
  rw [sepTail_eq_many]
  exact many (fun as => (hs as).seqRight (h as)) as

theorem sepBy1 {I J : List α → Cursor → Prop}
    (hs : ∀ as, Yields (I as) s fun _ => J as) (h : ∀ as, Yields (J as) p fun a => I (as ++ [a]))
    (hfirst : ∀ c, A c → J [] c) : Yields A (sepBy1 s p) I :=
  ((h []).imp hfirst fun _ _ hc => hc).bind fun a => (sepTail hs h [a]).bind fun _ =>
    .pure fun _ hc => hc

theorem sepBy {I J : List α → Cursor → Prop}
    (hs : ∀ as, Yields (I as) s fun _ => J as) (h : ∀ as, Yields (J as) p fun a => I (as ++ [a]))
    (hfirst : ∀ c, I [] c → J [] c) : Yields (I []) (sepBy s p) I := by
  intro c as r hc hdone
  rcases sepBy_eq_done.1 hdone with ⟨-, rfl, rfl⟩ | ⟨a, next, as, hp, hrest, rfl⟩
  · exact hc
  · exact sepTail hs h [a] next as r (h [] c a next (hfirst c hc) hp) hrest

/-- Operands joined from the left keep what joining two of them keeps. -/
theorem chainTail {o : Parser β} {join : α → β → α → α} {J : α → β → Cursor → Prop}
    (ho : ∀ a, Yields (B a) o (J a)) (h : ∀ a x, Yields (J a x) p fun b => B (join a x b))
    (left : α) : Yields (B left) (chainTail p o join left) B := by
  intro c a r hc hdone
  induction chainTail_eq_done.1 hdone with
  | nil => exact hc
  | cons hop hp _ hrest ih =>
    exact ih (h _ _ _ _ _ (ho _ _ _ _ hc hop) hp) (chainTail_eq_done.2 hrest)

theorem chainLeft {o : Parser β} {join : α → β → α → α} {J : α → β → Cursor → Prop}
    (hfirst : Yields A p B) (ho : ∀ a, Yields (B a) o (J a))
    (h : ∀ a x, Yields (J a x) p fun b => B (join a x b)) : Yields A (chainLeft p o join) B :=
  hfirst.bind fun left => chainTail ho h left

/-- **A rule yields what its body yields**, where the inner references may be taken to yield it. -/
theorem nested {ι : Type} {A : ι → Cursor → Prop} {B : ι → α → Cursor → Prop}
    {rule : Parser α → Parser α}
    (h : ∀ p, (∀ i, Yields (A i) p (B i)) → ∀ i, Yields (A i) (rule p) (B i)) (i : ι) :
    Yields (A i) (nested rule) (B i) := by
  intro c a r hc hdone
  induction hlen : c.rest.length using Nat.strongRecOn generalizing c a r i with
  | ind n ih =>
    rw [Parser.nested] at hdone
    refine h _ ?_ i c a r hc hdone
    intro j inner b s hinner hread
    simp only at hread
    split at hread
    · rename_i hlt
      exact ih _ (hlen ▸ hlt) j inner b s hinner hread rfl
    · cases hread

end Yields

/-! ## Reading along a relation -/

/-- Whatever the parser reads, it leads from one cursor to another along the relation. -/
class Reads {α : Type} (L : Cursor → Cursor → Prop) (p : Parser α) : Prop where
  of_done {c r : Cursor} {a : α} : p c = .done a r → L c r

/-- The texts at two cursors are related. -/
def Rests (L : List Char → List Char → Prop) (c r : Cursor) : Prop := L c.rest r.rest

instance {L : List Char → List Char → Prop} [IsPreorder (List Char) L] :
    IsPreorder Cursor (Rests L) where
  refl c := refl_of L c.rest
  trans _ _ _ h h' := trans_of L h h'

namespace Reads

variable {α β : Type} {L : Cursor → Cursor → Prop} {p q : Parser α}

instance [h : Reads L p] : Reads L (recognized p) where
  of_done hdone := by
    obtain ⟨a, hp, -⟩ := recognized_eq_done.1 hdone
    exact h.of_done hp

instance [h : Reads L p] : Reads L (spanned p) where
  of_done hdone := by
    obtain ⟨a, hp, -⟩ := spanned_eq_done.1 hdone
    exact h.of_done hp

/-- A rule reads along the relation if its body does whenever the inner references do. -/
theorem nested {rule : Parser α → Parser α} (h : ∀ p, Reads L p → Reads L (rule p)) :
    Reads L (nested rule) where
  of_done {c r a} hdone := by
    refine Yields.nested (A := fun c => (· = c)) (B := fun c _ => L c) (fun p hp i => ?_) c c a r rfl
      hdone
    rintro _ b s rfl hread
    exact (h p ⟨fun {c r a} => hp c c a r rfl⟩).of_done hread

variable [IsPreorder Cursor L]

/-- Reading along a preorder is to keep being behind each cursor. -/
theorem yields [h : Reads L p] (c : Cursor) : Yields (L c) p fun _ => L c :=
  fun _ _ _ hc hdone => trans_of L hc (h.of_done hdone)

theorem of_yields (h : ∀ c, Yields (L c) p fun _ => L c) : Reads L p :=
  ⟨fun {c r a} hdone => h c c a r (refl_of L c) hdone⟩

instance {a : α} : Reads L (pure a : Parser α) := of_yields fun _ => .pure fun _ hc => hc

instance [Reads L p] [∀ a, Reads L (f a)] : Reads L (p >>= f) :=
  of_yields fun c => (yields c).bind fun _ => yields c

instance {f : α → β} [Reads L p] : Reads L (f <$> p) :=
  inferInstanceAs (Reads L (p >>= fun a => pure (f a)))

-- What does not depend on the step before it is looked for only once.
instance {q : Parser β} [Reads L p] [Reads L q] : Reads L (p >>= fun _ => q) := inferInstance

instance {q : Parser β} [Reads L p] [Reads L q] : Reads L (p *> q) :=
  inferInstanceAs (Reads L (p >>= fun _ => q))

instance [Reads L p] [Reads L q] : Reads L (p <|> q) :=
  of_yields fun c => (yields c).orElse (yields c)

instance [Reads L p] : Reads L (maybe p) := of_yields fun c => (yields c).maybe fun _ hc => hc

instance : Reads L (lookahead p) := of_yields fun _ => .lookahead fun _ _ hc => hc

instance : Reads L position := of_yields fun _ => .position fun _ hc => hc

instance [Reads L p] : Reads L (many p) := 
  of_yields fun c => .many (I := fun _ => L c) (fun _ => yields c) []

instance [Reads L s] [Reads L p] : Reads L (sepBy s p) :=
  of_yields fun c => .sepBy (fun _ => yields c) (fun _ => yields c) fun _ hc => hc

instance {o : Parser β} {join : α → β → α → α} [Reads L o] [Reads L p] :
    Reads L (chainLeft p o join) :=
  of_yields fun c => .chainLeft (yields c) (fun _ => yields c) fun _ _ => yields c

end Reads

/-! ## The texts of characters and words -/

/-- A word takes nothing that is apart from it. -/
theorem notMem_of_matchLength? {stop : Char → Bool} (hstop : Delimiter stop) {word t : List Char}
    {k : Nat} (hword : isApart stop word) (h : matchLength? word t = some k) :
    ∀ x ∈ t.take k, stop x = false := by
  intro x hx
  rw [matchLength?, utf8Length_of_isApart hword] at h
  split at h
  · rename_i hall
    have hle : k ≤ word.length := (charsInBytes_bounds h).1
    obtain ⟨i, hi, hget⟩ := mem_iff_getElem.1 hx
    rw [length_take] at hi
    have hpair : (x, word[i]) ∈ t.zip word := by
      rw [← hget, getElem_take, ← getElem_zip (h := by rw [length_zip]; omega)]
      exact getElem_mem _
    have hcase : lowerCase x = lowerCase word[i] := by
      simpa using all_eq_true.1 hall _ hpair
    cases hx : stop x with
    | false => rfl
    | true => exact absurd hcase (lowerCase_ne_of_isApart hstop hword hx (getElem_mem _))
  · cases h

theorem char_eq_done {x a : Char} {c r : Cursor} :
    char x c = .done a r ↔ a = x ∧ r = c.drop 1 ∧ ∃ t, c.rest = x :: t := by
  rw [char]
  cases hrest : c.rest with
  | nil => simp
  | cons y t =>
    by_cases hy : y = x
    · simp [hy, eq_comm]
    · simp [hy]

theorem takeWhile1_eq_done {what : String} {q : Char → Bool} {as : List Char} {c r : Cursor} :
    takeWhile1 what q c = .done as r ↔ c.rest.takeWhile q ≠ [] ∧ as = c.rest.takeWhile q ∧
      r = c.drop (c.rest.takeWhile q).length := by
  rw [takeWhile1]
  cases c.rest.takeWhile q <;> simp [eq_comm]

theorem identifier_eq_done {s : String} {c r : Cursor} :
    identifier c = .done s r ↔ c.rest.head?.any isNameStart ∧
      s = String.ofList (c.rest.takeWhile isNameChar) ∧
      r = c.drop (c.rest.takeWhile isNameChar).length := by
  rw [identifier_apply]
  split <;> rename_i h <;> simp [h, eq_comm]

/-- A symbol is its word and the spaces and tabs behind it. -/
theorem symbol_eq_done {sym a : String} {c r : Cursor} (h : symbol sym c = .done a r) :
    ∃ k, matchLength? sym.toList c.rest = some k ∧ spaces (c.drop k) = .done () r ∧
      r.rest = (c.rest.drop k).dropWhile isSpaceOrTab := by
  rw [symbol] at h
  split at h
  · cases h
  · cases h
    exact ⟨_, ‹_›, rfl, drop_length_takeWhile _ _⟩

theorem symbol_marks_eq_done {sym a : String} {c r : Cursor} (hmarks : sym.toList.all isMark)
    (h : symbol sym c = .done a r) : ∃ t, c.rest = sym.toList ++ t ∧
      spaces (c.drop sym.toList.length) = .done () r ∧ r.rest = t.dropWhile isSpaceOrTab := by
  obtain ⟨k, hk, hspaces, hrest⟩ := symbol_eq_done h
  rw [matchLength?_marks (all_eq_true.1 hmarks), Option.ite_none_right_eq_some] at hk
  obtain ⟨⟨t, ht⟩, hk⟩ := hk
  cases hk
  rw [← ht, drop_left] at hrest
  exact ⟨t, ht.symm, hspaces, hrest⟩

theorem keyword_eq_done {word a : String} {c r : Cursor} (h : keyword word c = .done a r) :
    ∃ k, matchLength? word.toList c.rest = some k ∧ ¬ runsOn word.toList (c.rest.drop k) = true ∧
      spaces (c.drop k) = .done () r ∧ r.rest = (c.rest.drop k).dropWhile isSpaceOrTab := by
  rw [keyword] at h
  split at h
  · cases h
  · split at h
    · cases h
    · cases h
      exact ⟨_, ‹_›, ‹_›, rfl, drop_length_takeWhile _ _⟩

/-! ## No chance at a character -/

/-- The parser fails where the character stands, or at the end of the text. -/
def FailsAt {α : Type} (x : Option Char) (p : Parser α) : Prop :=
  ∀ c, c.rest.head? = x → ∃ e, p c = .failed e

namespace FailsAt

variable {α β : Type} {x : Option Char} {p q : Parser α}

theorem bind (h : FailsAt x p) : FailsAt x (p >>= f) := by
  intro c hc
  obtain ⟨e, he⟩ := h c hc
  exact ⟨e, by rw [bind_apply, he]⟩

theorem map {f : α → β} (h : FailsAt x p) : FailsAt x (f <$> p) := h.bind

theorem seqRight {q : Parser β} (h : FailsAt x p) : FailsAt x (p *> q) := h.bind

theorem orElse (h : FailsAt x p) (h' : FailsAt x q) : FailsAt x (p <|> q) :=
  fun c hc => orElse_failed (h c hc) (h' c hc)

/-- An alternative that fails may be left out. -/
theorem orElse_right_iff {c r : Cursor} {a : α} (h : FailsAt x p) (hc : c.rest.head? = x) :
    (p <|> q) c = .done a r ↔ q c = .done a r := by
  obtain ⟨e, he⟩ := h c hc
  refine ⟨fun hdone => ?_, orElse_of_failed he⟩
  rcases orElse_eq_done hdone with hp | hq
  · rw [he] at hp
    cases hp
  · exact hq

theorem orElse_left_iff {c r : Cursor} {a : α} (h : FailsAt x q) (hc : c.rest.head? = x) :
    (p <|> q) c = .done a r ↔ p c = .done a r := by
  obtain ⟨e, he⟩ := h c hc
  refine ⟨fun hdone => ?_, orElse_of_done⟩
  rcases orElse_eq_done hdone with hp | hq
  · exact hp
  · rw [he] at hq
    cases hq

/-- Where a parser fails it does not get done. -/
theorem ne_done {c r : Cursor} {a : α} (h : FailsAt x p) (hc : c.rest.head? = x) :
    p c ≠ .done a r := by
  obtain ⟨e, he⟩ := h c hc
  rw [he]
  simp

theorem noticingEnd (h : FailsAt x p) : FailsAt x (noticingEnd p) := by
  intro c hc
  obtain ⟨e, he⟩ := h c hc
  exact ⟨e.noticeEnd, by rw [Parser.noticingEnd, he]⟩

/-- Looking at the position first changes nothing. -/
theorem position_bind {f : Position → Parser α} (h : ∀ s, FailsAt x (f s)) :
    FailsAt x (position >>= f) := by
  intro c hc
  obtain ⟨e, he⟩ := h c.position c hc
  exact ⟨e, he⟩

theorem spanned (h : FailsAt x p) : FailsAt x (spanned p) :=
  FailsAt.noticingEnd (position_bind fun _ => h.bind)

theorem recognized (h : FailsAt x p) : FailsAt x (recognized p) := by
  intro c hc
  obtain ⟨e, he⟩ := h c hc
  exact ⟨e, by rw [Parser.recognized, he]⟩

theorem named {what : String} (h : FailsAt x p) : FailsAt x (named what p) := by
  intro c hc
  obtain ⟨e, he⟩ := h c hc
  exact ⟨_, by rw [Parser.named, he]⟩

/-- Before a parser that fails, nothing is gained by an option that fails as well. -/
theorem maybe_bind {f : Option α → Parser β} (h : FailsAt x p) (hf : FailsAt x (f none)) :
    FailsAt x (maybe p >>= f) := by
  intro c hc
  obtain ⟨e, he⟩ := h c hc
  obtain ⟨e', he'⟩ := hf c hc
  exact ⟨e', by rw [bind_apply, Parser.maybe, he]; exact he'⟩

/-- Nor by a repetition. -/
theorem many_bind {f : List α → Parser β} (h : FailsAt x p) (hf : FailsAt x (f [])) :
    FailsAt x (many p >>= f) := by
  intro c hc
  obtain ⟨e, he⟩ := h c hc
  obtain ⟨e', he'⟩ := hf c hc
  exact ⟨e', by rw [bind_apply, Parser.many, he]; exact he'⟩

theorem char {y : Char} (h : x ≠ some y) : FailsAt x (char y) := by
  intro c hc
  exact ⟨_, by rw [Parsing.char, hc, if_neg h]⟩

theorem takeWhile1 {what : String} {q : Char → Bool} (h : x.any q = false) :
    FailsAt x (takeWhile1 what q) := by
  intro c hc
  have hnil : c.rest.takeWhile q = [] := by
    cases hrest : c.rest with
    | nil => rfl
    | cons y t =>
      rw [hrest, head?_cons] at hc
      rw [← hc, Option.any_some] at h
      rw [takeWhile_cons_of_neg (by simp [h])]
  exact ⟨_, by rw [Parsing.takeWhile1, hnil]⟩

theorem identifier (h : x.any isNameStart = false) : FailsAt x identifier := by
  intro c hc
  rw [identifier_apply, hc, h]
  exact ⟨_, rfl⟩

theorem matchLength? {word : List Char} {b : Char} {t : List Char} {c : Cursor}
    (hword : word = b :: t) (h : x.map Text.lowerCase ≠ some (Text.lowerCase b))
    (hc : c.rest.head? = x) : Parsing.matchLength? word c.rest = none := by
  cases hrest : c.rest with
  | nil =>
    have hbytes : utf8Length (b :: t) = utf8Length t + b.utf8Size - 1 + 1 := by
      have := Char.utf8Size_pos b
      rw [utf8Length]
      omega
    rw [Parsing.matchLength?, hword, hbytes, charsInBytes, ite_self]
  | cons y s =>
    rw [hrest, head?_cons] at hc
    have hy : lowerCase y ≠ lowerCase b := fun heq => h (by rw [← hc, Option.map_some, heq])
    simp [Parsing.matchLength?, hword, hy]

theorem keyword {word : String} {b : Char} {t : List Char} (hword : word.toList = b :: t)
    (h : x.map Text.lowerCase ≠ some (Text.lowerCase b)) : FailsAt x (keyword word) :=
  fun c hc => ⟨_, by rw [Parsing.keyword, matchLength? hword h hc]⟩

theorem symbol {sym : String} {b : Char} {t : List Char} (hword : sym.toList = b :: t)
    (h : x.map Text.lowerCase ≠ some (Text.lowerCase b)) : FailsAt x (symbol sym) :=
  fun c hc => ⟨_, by rw [Parsing.symbol, matchLength? hword h hc]⟩

/-- Another character stands there than the one that the word begins with. -/
def beginsApart (x : Option Char) (word : List Char) : Bool :=
  word.head?.any fun b => x.map Text.lowerCase != some (Text.lowerCase b)

theorem keyword_apart {word : String} (h : beginsApart x word.toList) :
    FailsAt x (Parsing.keyword word) := by
  cases hword : word.toList with
  | nil => simp [beginsApart, hword] at h
  | cons b t => exact .keyword hword (by simpa [beginsApart, hword] using h)

theorem symbol_apart {sym : String} (h : beginsApart x sym.toList) :
    FailsAt x (Parsing.symbol sym) := by
  cases hword : sym.toList with
  | nil => simp [beginsApart, hword] at h
  | cons b t => exact .symbol hword (by simpa [beginsApart, hword] using h)

end FailsAt

end RobotSource.Parsing
