import RobotSource.Proofs.Parsing.Sim
import RobotSource.Proofs.Text.Ascii
import RobotSource.Proofs.Text.Trimming
/-!
# Tokens on two texts

Two texts have a stretch in common, and behind it each goes on with a character that no token
contains, a delimiter. A token is then read alike on both, and the reading stays within the stretch
(`Common`, `Local`). If every two places within the stretch are related, the token leads from related
places to related places (`Moves`, `Keeps.of_local`).

Words are the delicate tokens: a word is compared with as much text as there is, and then takes as
many bytes as it has. Behind a delimiter it must not look at all (`matchLength?_append`).
-/

namespace RobotSource.Parsing

open Text List

variable {u : List Char}

/-! ## Cursors -/

@[simp] theorem Cursor.rest_drop (c : Cursor) (n : Nat) : (c.drop n).rest = c.rest.drop n := rfl

@[simp] theorem Cursor.drop_zero (c : Cursor) : c.drop 0 = c := by
  simp [Cursor.drop]

@[simp] theorem Cursor.drop_drop (c : Cursor) (j k : Nat) :
    (c.drop j).drop k = c.drop (j + k) := by
  simp only [Cursor.drop, List.drop_drop, List.take_add, Position.afterAll_append]

theorem Cursor.upTo_drop {c : Cursor} {k : Nat} (h : k ≤ c.rest.length) :
    c.upTo (c.drop k) = c.rest.take k := by
  rw [Cursor.upTo, Cursor.rest_drop, length_drop, Nat.sub_sub_self h]

/-! ## Delimiters -/

/-- The characters are outside every token: they have no other case and continue no word. -/
structure Delimiter (stop : Char → Bool) : Prop where
  lower : ∀ x, stop x = true → lowerCase x = [x]
  word : ∀ x, stop x = true → isWord x = false
  name : ∀ x, stop x = true → isNameChar x = false

variable {stop : Char → Bool} {P : List Char → Prop}
variable {x : Char} {n k : Nat} {s t word : List Char}

/-- Every text of the kind `P` begins with a delimiter, unless it is empty. -/
structure Delimits (stop : Char → Bool) (P : List Char → Prop) : Prop extends Delimiter stop where
  begins : ∀ x s, P (x :: s) → stop x = true

theorem Delimiter.digit (h : Delimiter stop) (hx : stop x) : x.isDigit = false := by
  have hname := h.name x hx
  simp only [isNameChar, Char.isAlphanum, Bool.or_eq_false_iff] at hname
  exact hname.1.2

theorem Delimiter.nameStart (h : Delimiter stop) (hx : stop x) : isNameStart x = false := by
  have hname := h.name x hx
  simp only [isNameChar, Char.isAlphanum, Bool.or_eq_false_iff] at hname
  simp [isNameStart, hname.1.1, hname.2]

/-- A word that the delimiters cannot be part of. -/
def isApart (stop : Char → Bool) (word : List Char) : Bool :=
  !word.isEmpty && word.all fun b => b.toNat < 128 && !stop b.toLower

theorem takeWhile_append_cons {p : Char → Bool} (hx : p x = false) (u s : List Char) :
    (u ++ x :: s).takeWhile p = u.takeWhile p := by
  rw [takeWhile_append]
  split
  · rename_i hall
    rw [takeWhile_cons_of_neg (by simp [hx]), append_nil]
    exact ((List.takeWhile_prefix p).eq_of_length hall).symm
  · rfl

theorem take_length_takeWhile (p : Char → Bool) (l : List Char) :
    l.take (l.takeWhile p).length = l.takeWhile p :=
  (prefix_iff_eq_take.1 (List.takeWhile_prefix p)).symm

theorem drop_length_takeWhile (p : Char → Bool) (l : List Char) :
    l.drop (l.takeWhile p).length = l.dropWhile p := by
  have hsplit := takeWhile_append_dropWhile (p := p) (l := l)
  exact (congrArg (List.drop _) hsplit).symm.trans drop_left

theorem takeWhile_append_of_head? {l s : List Char} {q : Char → Bool} (hl : ∀ x ∈ l, q x)
    (hs : s.head?.any q = false) : (l ++ s).takeWhile q = l := by
  rw [takeWhile_append_of_pos hl]
  cases s with
  | nil => rw [takeWhile_nil, append_nil]
  | cons x s => rw [takeWhile_cons_of_neg (by simpa using hs), append_nil]

theorem dropWhile_append_of_head? {l s : List Char} {q : Char → Bool} (hl : ∀ x ∈ l, q x)
    (hs : s.head?.any q = false) : (l ++ s).dropWhile q = s := by
  rw [← drop_length_takeWhile, takeWhile_append_of_head? hl hs, drop_left]

theorem head?_dropWhile_any (q : Char → Bool) (s : List Char) :
    (s.dropWhile q).head?.any q = false := by
  have hnot := head?_dropWhile_not q s
  cases hx : (s.dropWhile q).head? with
  | none => rfl
  | some x => simpa [hx] using hnot

theorem any_eq_false_of_imp {q q' : Char → Bool} {o : Option Char} (hq : ∀ x, q' x → q x)
    (h : ¬ o.any q = true) : o.any q' = false := by
  cases o with
  | none => rfl
  | some x => exact Bool.eq_false_iff.2 (mt (hq x) h)

theorem exists_cons_of_any {q : Char → Bool} (h : t.head?.any q) :
    ∃ y s, t = y :: s ∧ q y := by
  cases t with
  | nil => cases h
  | cons y s => exact ⟨y, s, rfl, h⟩

/-- Either the test stops inside the text, or it takes all of it. -/
theorem exists_split_or_all (p : Char → Bool) (l : List Char) :
    (∃ a x b, l = a ++ x :: b ∧ (∀ y ∈ a, p y) ∧ p x = false) ∨ ∀ y ∈ l, p y := by
  have hsplit := takeWhile_append_dropWhile (p := p) (l := l)
  have hall : ∀ y ∈ l.takeWhile p, p y := fun y hy => all_eq_true.1 all_takeWhile y hy
  cases hdrop : l.dropWhile p with
  | nil =>
    rw [hdrop, append_nil] at hsplit
    exact .inr (hsplit ▸ hall)
  | cons x b =>
    have hx := head?_dropWhile_not p l
    rw [hdrop] at hsplit hx
    exact .inl ⟨_, x, b, hsplit.symm, hall, by simpa using hx⟩

/-! ## Words -/

theorem charsInBytes_append (h : n ≤ u.length) :
    charsInBytes n (u ++ s) = charsInBytes n u := by
  induction u generalizing n with
  | nil =>
    obtain rfl : n = 0 := by simpa using h
    rw [charsInBytes, charsInBytes]
  | cons x u ih =>
    cases n with
    | zero => rw [charsInBytes, charsInBytes]
    | succ n =>
      have hsize : 0 < x.utf8Size := Char.utf8Size_pos x
      have hle : n + 1 - x.utf8Size ≤ u.length := by
        simp only [length_cons] at h
        omega
      rw [cons_append, charsInBytes, charsInBytes, ih hle]

/-- Every character takes a byte at least. -/
theorem charsInBytes_bounds (h : charsInBytes n t = some k) :
    k ≤ n ∧ k ≤ t.length ∧ (0 < n → 0 < k) := by
  induction t generalizing n k with
  | nil =>
    cases n with
    | zero => simp_all [charsInBytes]
    | succ n => simp [charsInBytes] at h
  | cons x t ih =>
    cases n with
    | zero =>
      cases h
      exact ⟨Nat.le_refl 0, Nat.zero_le _, fun h => h⟩
    | succ n =>
      have hsize : 0 < x.utf8Size := Char.utf8Size_pos x
      rw [charsInBytes] at h
      split at h
      · obtain ⟨j, hj, rfl⟩ := Option.map_eq_some_iff.1 h
        obtain ⟨hle, hlength, -⟩ := ih hj
        exact ⟨by omega, Nat.succ_le_succ hlength, fun _ => Nat.succ_pos j⟩
      · cases h

theorem matchLength?_pos (hword : word ≠ [])
    (h : matchLength? word t = some k) : 0 < k ∧ k ≤ t.length := by
  rw [matchLength?] at h
  split at h
  · obtain ⟨-, hlength, hpos⟩ := charsInBytes_bounds h
    obtain ⟨x, word, rfl⟩ := exists_cons_of_ne_nil hword
    exact ⟨hpos (Nat.add_pos_left (Char.utf8Size_pos x) _), hlength⟩
  · cases h

theorem utf8Size_of_lt {b : Char} (h : b.toNat < 128) : b.utf8Size = 1 := by
  rw [Char.utf8Size, if_pos]
  exact UInt32.le_iff_toNat_le.2 (Nat.le_of_lt_succ h)

theorem utf8Length_of_isApart (h : isApart stop word) : utf8Length word = word.length := by
  have hall : ∀ b ∈ word, b.toNat < 128 := by
    simp only [isApart, Bool.and_eq_true, all_eq_true, decide_eq_true_eq] at h
    exact fun b hb => (h.2 b hb).1
  clear h
  induction word with
  | nil => rfl
  | cons b word ih =>
    rw [utf8Length, utf8Size_of_lt (hall b mem_cons_self),
      ih fun x hx => hall x (mem_cons_of_mem _ hx), length_cons]
    omega

theorem zip_append_of_le (h : word.length ≤ u.length) :
    (u ++ s).zip word = u.zip word := by
  induction u generalizing word with
  | nil =>
    obtain rfl : word = [] := length_eq_zero_iff.1 (Nat.le_zero.1 h)
    simp
  | cons x u ih =>
    cases word with
    | nil => simp
    | cons b word => simp [ih (Nat.le_of_succ_le_succ h)]

/-- A delimiter does not match the letter of a word. -/
theorem lowerCase_ne_of_isApart (hstop : Delimiter stop) (hword : isApart stop word)
    {b : Char} (hx : stop x) (hb : b ∈ word) : lowerCase x ≠ lowerCase b := by
  simp only [isApart, Bool.and_eq_true, all_eq_true, decide_eq_true_eq] at hword
  obtain ⟨hascii, hapart⟩ := hword.2 b hb
  rw [hstop.lower x hx, lowerCase, if_pos hascii]
  intro heq
  rw [singleton_inj.1 heq] at hx
  simp [hx] at hapart

theorem all_zip_of_stops (hx : ∀ b ∈ word, lowerCase x ≠ lowerCase b)
    (h : u.length < word.length) :
    (((u ++ x :: s).zip word).all fun (a, b) => lowerCase a == lowerCase b) = false := by
  induction u generalizing word with
  | nil =>
    cases word with
    | nil => simp at h
    | cons b word => simp [hx b]
  | cons y u ih =>
    cases word with
    | nil => simp at h
    | cons b word =>
      have hrest := ih (fun b hb => hx b (mem_cons_of_mem _ hb)) (Nat.lt_of_succ_lt_succ h)
      rw [cons_append, zip_cons_cons, all_cons, hrest, Bool.and_false]

/-- A word is looked for only before a delimiter. -/
theorem matchLength?_append (hstop : Delimiter stop)
    (hword : isApart stop word) (hx : stop x) : matchLength? word (u ++ x :: s) =
      if word.length ≤ u.length then matchLength? word u else none := by
  split
  · rename_i hle
    rw [matchLength?, matchLength?, zip_append_of_le hle, charsInBytes_append]
    rwa [utf8Length_of_isApart hword]
  · rename_i hlt
    have hfalse := all_zip_of_stops (u := u) (s := s)
      (fun b hb => lowerCase_ne_of_isApart hstop hword hx hb) (Nat.lt_of_not_le hlt)
    rw [matchLength?, hfalse, if_neg Bool.false_ne_true]

/-- A mark is an ASCII character that has no case and continues no word. -/
def isMark (x : Char) : Bool := x.toNat < 128 && !x.isAlpha && !isWord x

/-- The small letters of the runs are outside ASCII, but for that of the Kelvin sign. -/
theorem lowerCaseRuns_outside {r : CaseRun} (hr : r ∈ lowerCaseRuns)
    (hn : r.covers n) : ∃ m : Nat, (n + r.offset).toNat = m ∧ m.isValidChar ∧
      (128 ≤ m ∨ m = 107) := by
  have hruns : ∀ r ∈ lowerCaseRuns,
      ((r.last + r.offset < 0xd800 ∨ 0xdfff < r.first + r.offset ∧ r.last + r.offset < 0x110000) ∧
        128 ≤ r.first + r.offset) ∨ r.first = 0x212a ∧ r.last = 0x212a ∧ r.offset = -8383 := by
    decide +kernel
  simp only [CaseRun.covers, Bool.and_eq_true, decide_eq_true_eq] at hn
  obtain ⟨⟨hfirst, hlast⟩, -⟩ := hn
  refine ⟨_, rfl, ?_⟩
  simp only [Nat.isValidChar]
  rcases hruns r hr with ⟨hvalid, hge⟩ | ⟨h1, h2, h3⟩ <;> omega

/-- No character beyond ASCII has a small form in ASCII but K. -/
theorem lowerCase_ne_singleton {a : Char} (ha : 128 ≤ a.toNat) (hx : x.toNat < 128) (hk : x ≠ 'k') :
    lowerCase a ≠ [x] := by
  rw [lowerCase, if_neg (by omega)]
  intro h
  split at h
  · cases h
  · split at h
    · rename_i run hfind
      obtain ⟨m, hm, hvalid, hge⟩ := lowerCaseRuns_outside (mem_of_find?_eq_some hfind)
        (by simpa using find?_some hfind)
      rw [hm, singleton_inj, Char.ofNat, dif_pos hvalid] at h
      have hcode : x.toNat = m := by
        rw [← h]
        rfl
      rcases hge with hge | rfl
      · omega
      · exact hk (by rw [← Char.ofNat_toNat x, hcode])
    · rw [← singleton_inj.1 h] at hx
      omega

theorem lowerCase_mark (hx : isMark x) : lowerCase x = [x] := by
  simp only [isMark, Bool.and_eq_true, decide_eq_true_eq, Bool.not_eq_true'] at hx
  rw [lowerCase, if_pos hx.1.1, toLower_of_not_isUpper (Bool.or_eq_false_iff.1 hx.1.2).1]

/-- No other character has a mark for its small form. -/
theorem eq_of_lowerCase_eq_mark {a : Char} (hx : isMark x)
    (h : lowerCase a = lowerCase x) : a = x := by
  rw [lowerCase_mark hx] at h
  simp only [isMark, Bool.and_eq_true, decide_eq_true_eq, Bool.not_eq_true'] at hx
  obtain ⟨⟨hascii, halpha⟩, -⟩ := hx
  have hlower := (Bool.or_eq_false_iff.1 halpha).2
  by_cases ha : a.toNat < 128
  · rw [lowerCase, if_pos ha, singleton_inj] at h
    exact eq_of_toLower_eq hlower h
  · have hk : x ≠ 'k' := by
      rintro rfl
      cases hlower
    exact absurd h (lowerCase_ne_singleton (Nat.le_of_not_lt ha) hascii hk)

/-- A word of marks matches itself alone. -/
theorem matchLength?_marks (hword : ∀ x ∈ word, isMark x) (t : List Char) :
    matchLength? word t = if word <+: t then some word.length else none := by
  induction word generalizing t with
  | nil => simp [matchLength?, utf8Length, charsInBytes]
  | cons x word ih =>
    have hx := hword x mem_cons_self
    have hsize : x.utf8Size = 1 := by
      simp only [isMark, Bool.and_eq_true, decide_eq_true_eq] at hx
      exact utf8Size_of_lt hx.1.1
    have hrest := ih fun y hy => hword y (mem_cons_of_mem _ hy)
    cases t with
    | nil =>
      simp only [prefix_nil, reduceCtorEq, if_false, matchLength?, zip_nil_left,
        all_nil, if_true, utf8Length, hsize]
      rw [Nat.add_comm, charsInBytes]
    | cons a t =>
      simp only [cons_prefix_cons]
      by_cases hax : a = x
      · have hcons : matchLength? (x :: word) (a :: t) = (matchLength? word t).map (· + 1) := by
          simp only [matchLength?, zip_cons_cons, all_cons, hax, beq_self_eq_true,
            Bool.true_and, utf8Length, hsize, Nat.add_comm 1, charsInBytes]
          split <;> simp
        rw [hcons, hrest t]
        by_cases hpre : word <+: t <;> simp [hax, hpre]
      · have hne : (lowerCase a == lowerCase x) = false :=
          beq_eq_false_iff_ne.2 fun h => hax (eq_of_lowerCase_eq_mark hx h)
        simp [matchLength?, hne, Ne.symm hax]

theorem matchLength?_mark (hx : isMark x) (t : List Char) :
    matchLength? [x] t = if t.head? = some x then some 1 else none := by
  rw [matchLength?_marks (by simpa using hx)]
  cases t <;> simp [eq_comm]

theorem isNameChar_of_isNameStart (h : isNameStart x) : isNameChar x := by
  simp only [isNameStart, Bool.or_eq_true] at h
  simp only [isNameChar, Char.isAlphanum, Bool.or_eq_true]
  tauto

/-- A name is a run of name characters that begins as a name may. -/
theorem identifier_apply (c : Cursor) : identifier c =
    if c.rest.head?.any isNameStart then
      .done (String.ofList (c.rest.takeWhile isNameChar))
        (c.drop (c.rest.takeWhile isNameChar).length)
    else .failed (.expecting c "identifier") := by
  rw [identifier]
  cases hrest : c.rest with
  | nil => rfl
  | cons x t =>
    by_cases hx : isNameStart x
    · simp [hx, takeWhile_cons_of_pos (isNameChar_of_isNameStart hx)]
    · simp [hx]

/-! ## Common stretches -/

/-- The text at the cursor begins with the stretch, and what follows is of the kind `P`. -/
def Leads (P : List Char → Prop) (u : List Char) (c : Cursor) : Prop :=
  ∃ s, c.rest = u ++ s ∧ P s

/-- The texts at the two cursors have the stretch in common. -/
structure Common (P : List Char → Prop) (u : List Char) (c d : Cursor) : Prop where
  left : Leads P u c
  right : Leads P u d

/-- Both cursors have moved by as many characters, within the stretch. -/
def Within (u : List Char) (c d c' d' : Cursor) : Prop :=
  ∃ k ≤ u.length, c' = c.drop k ∧ d' = d.drop k

/-- What the parser reads depends on the common stretch alone, and it stays within it. -/
def Local (P : List Char → Prop) (p : Parser α) : Prop :=
  ∀ u c d, Common P u c d → (p c).Rel (Within u c d) (· = ·) (p d)

variable {u : List Char} {c d c' d' : Cursor}

theorem Leads.drop (h : Leads P u c) (hk : k ≤ u.length) : Leads P (u.drop k) (c.drop k) := by
  obtain ⟨s, hs, hP⟩ := h
  exact ⟨s, by rw [Cursor.rest_drop, hs, drop_append_of_le_length hk], hP⟩

theorem Leads.of_imp {Q : List Char → Prop} (h : Leads Q u c) (hQ : ∀ s, Q s → P s) :
    Leads P u c := by
  obtain ⟨s, hs, hQs⟩ := h
  exact ⟨s, hs, hQ s hQs⟩

theorem Leads.length_le (h : Leads P u c) : u.length ≤ c.rest.length := by
  obtain ⟨s, hs, -⟩ := h
  rw [hs, length_append]
  omega

theorem Leads.take (h : Leads P u c) (hk : k ≤ u.length) : c.rest.take k = u.take k := by
  obtain ⟨s, hs, -⟩ := h
  rw [hs, take_append_of_le_length hk]

theorem Leads.takeWhile (hstop : Delimits stop P) (h : Leads P u c) {p : Char → Bool}
    (hp : ∀ x, stop x → p x = false) : c.rest.takeWhile p = u.takeWhile p := by
  obtain ⟨s, hs, hP⟩ := h
  cases s with
  | nil => rw [hs, append_nil]
  | cons x s => rw [hs, takeWhile_append_cons (hp x (hstop.begins x s hP))]

theorem Leads.head? (hstop : Delimits stop P) (h : Leads P u c)
    (hx : stop x = false) : c.rest.head? = some x ↔ u.head? = some x := by
  obtain ⟨s, hs, hP⟩ := h
  rw [hs]
  cases u with
  | nil =>
    cases s with
    | nil => rfl
    | cons y s =>
      simp only [nil_append, head?_cons, Option.some.injEq, head?_nil, reduceCtorEq,
        iff_false]
      rintro rfl
      rw [hstop.begins y s hP] at hx
      cases hx
  | cons z u => simp

theorem Common.drop (h : Common P u c d) (hk : k ≤ u.length) :
    Common P (u.drop k) (c.drop k) (d.drop k) :=
  ⟨h.left.drop hk, h.right.drop hk⟩

theorem Within.refl (u : List Char) (c d : Cursor) : Within u c d c d :=
  ⟨0, Nat.zero_le _, by simp, by simp⟩

theorem Within.trans {c'' d'' : Cursor} (hk : k ≤ u.length)
    (h : Within (u.drop k) (c.drop k) (d.drop k) c'' d'') : Within u c d c'' d'' := by
  obtain ⟨j, hlen, rfl, rfl⟩ := h
  rw [length_drop] at hlen
  exact ⟨k + j, by omega, by simp, by simp⟩

/-! ## Parsers that stay within a stretch -/

namespace Local

variable {p q : Parser α}

theorem of_imp {Q : List Char → Prop} (h : Local P p) (hQ : ∀ s, Q s → P s) : Local Q p := by
  intro u c d hcommon
  exact h u c d ⟨hcommon.left.of_imp hQ, hcommon.right.of_imp hQ⟩

theorem pure (a : α) : Local P (pure a : Parser α) :=
  fun u c d _ => .done rfl (.refl u c d)

theorem orElse (h : Local P p) (h' : Local P q) : Local P (p <|> q) :=
  fun u c d hcommon => (h u c d hcommon).orElse (h' u c d hcommon)

theorem maybe (h : Local P p) : Local P (Parser.maybe p) := by
  intro u c d hcommon
  refine ((h u c d hcommon).maybe (.refl u c d)).mono (fun _ _ h => h) ?_
  rintro _ _ (heq | _)
  · rw [heq]
  · rfl

theorem named (what : String) (h : Local P p) : Local P (Parser.named what p) :=
  fun u c d hcommon => (h u c d hcommon).named

theorem recognized (h : Local P p) : Local P (Parser.recognized p) := by
  intro u c d hcommon
  refine (h u c d hcommon).recognized ?_
  rintro _ _ ⟨k, hk, rfl, rfl⟩
  rw [Cursor.upTo_drop (Nat.le_trans hk hcommon.left.length_le),
    Cursor.upTo_drop (Nat.le_trans hk hcommon.right.length_le), hcommon.left.take hk,
    hcommon.right.take hk]

/-- Further on in the stretch it stays within what is left of it. -/
theorem agrees (h : Local P p) (hcommon : Common P u c d) :
    Agrees (Within u c d) (Within u c d) p (· = ·) := by
  rintro _ _ ⟨k, hk, rfl, rfl⟩
  exact (h _ _ _ (hcommon.drop hk)).mono (fun _ _ h => .trans hk h) fun _ _ h => h

theorem bind {f : α → Parser γ} (h : Local P p) (hf : ∀ a, Local P (f a)) :
    Local P (p >>= f) := by
  intro u c d hcommon
  refine (h u c d hcommon).bind fun a _ c' d' heq hwithin => ?_
  exact heq ▸ (hf a).agrees hcommon c' d' hwithin

theorem takeWhile (hstop : Delimits stop P) {p : Char → Bool}
    (hp : ∀ x, stop x → p x = false) : Local P (takeWhile p) := by
  intro u c d hcommon
  have hle : (u.takeWhile p).length ≤ u.length := (List.takeWhile_prefix p).length_le
  simp only [Parsing.takeWhile, hcommon.left.takeWhile hstop hp,
    hcommon.right.takeWhile hstop hp]
  exact .done rfl ⟨_, hle, rfl, rfl⟩

theorem takeWhile1 (hstop : Delimits stop P) {what : String} {p : Char → Bool}
    (hp : ∀ x, stop x → p x = false) : Local P (takeWhile1 what p) := by
  intro u c d hcommon
  have hle : (u.takeWhile p).length ≤ u.length := (List.takeWhile_prefix p).length_le
  simp only [Parsing.takeWhile1, hcommon.left.takeWhile hstop hp,
    hcommon.right.takeWhile hstop hp]
  split
  · exact .failed
  · exact .done rfl ⟨_, hle, rfl, rfl⟩

theorem char (hstop : Delimits stop P) (hx : stop x = false) : Local P (char x) := by
  intro u c d hcommon
  simp only [Parsing.char, hcommon.left.head? hstop hx, hcommon.right.head? hstop hx]
  split
  · rename_i hhead
    have hlen : 1 ≤ u.length := length_pos_of_ne_nil fun hnil => by simp [hnil] at hhead
    exact .done rfl ⟨1, hlen, rfl, rfl⟩
  · exact .failed

theorem digits (hstop : Delimits stop P) : Local P digits :=
  takeWhile1 hstop fun _ hx => hstop.digit hx

theorem identifier (hstop : Delimits stop P) : Local P identifier := by
  intro u c d hcommon
  have hhead {c : Cursor} (hc : Leads P u c) :
      c.rest.head?.any isNameStart = u.head?.any isNameStart := by
    obtain ⟨s, hs, hP⟩ := hc
    cases u with
    | cons y u => simp [hs]
    | nil =>
      cases s with
      | nil => simp [hs]
      | cons x s => simp [hs, hstop.nameStart (hstop.begins x s hP)]
  simp only [identifier_apply, hhead hcommon.left, hhead hcommon.right,
    hcommon.left.takeWhile hstop hstop.name, hcommon.right.takeWhile hstop hstop.name]
  split
  · exact .done rfl ⟨_, (List.takeWhile_prefix _).length_le, rfl, rfl⟩
  · exact .failed

end Local

/-! ## From related places to related places -/

/-- The texts have a stretch in common in which all places are related. -/
def Moves (P : List Char → Prop) (R : Cursor → Cursor → Prop) (c d : Cursor) : Prop :=
  ∃ u, Common P u c d ∧ ∀ c' d', Within u c d c' d' → R c' d'

variable {R : Cursor → Cursor → Prop}

/-- A token that stays within the stretch leads from one related place to another. -/
theorem Keeps.of_local {p : Parser α} (hS : ∀ c d, S c d → Moves P R c d) (hp : Local P p) :
    Agrees S R p (· = ·) := by
  intro c d hcd
  obtain ⟨u, hcommon, hR⟩ := hS c d hcd
  exact (hp u c d hcommon).mono hR fun _ _ h => h

/-- The word stands at both places or at neither; the places behind it are related. -/
inductive Matches (R : Cursor → Cursor → Prop) (word : List Char) (c d : Cursor) : Prop
  | none (left : matchLength? word c.rest = none) (right : matchLength? word d.rest = none)
  | some (k : Nat) (left : matchLength? word c.rest = some k)
      (right : matchLength? word d.rest = some k)
      (runsOn_eq : runsOn word (c.rest.drop k) = runsOn word (d.rest.drop k))
      (written : c.rest.take k = d.rest.take k) (behind : R (c.drop k) (d.drop k))

theorem Matches.mono {R' : Cursor → Cursor → Prop} (h : Matches R word c d)
    (hR : ∀ c d, R c d → R' c d) : Matches R' word c d := by
  cases h with
  | none left right => exact .none left right
  | some k left right hrunsOn written behind =>
    exact .some k left right hrunsOn written (hR _ _ behind)

/-- On the same text a word is found or not, wherever the text stands. -/
theorem matches_of_rest_eq (hrest : c.rest = d.rest) (hR : ∀ k, R (c.drop k) (d.drop k)) :
    Matches R word c d := by
  cases hk : matchLength? word d.rest with
  | none => exact .none (hrest ▸ hk) hk
  | some k => exact .some k (hrest ▸ hk) hk (by rw [hrest]) (by rw [hrest]) (hR k)

theorem runsOn_of_leads (hstop : Delimits stop P) (h : Leads P u c) :
    runsOn word c.rest = runsOn word u := by
  obtain ⟨s, hs, hP⟩ := h
  rw [hs]
  cases u with
  | nil =>
    cases s with
    | nil => rfl
    | cons x s => simp [runsOn, hstop.word x (hstop.begins x s hP)]
  | cons y u => rfl

theorem matchLength?_bounds (hword : isApart stop word)
    (h : matchLength? word t = some k) : 0 < k ∧ k ≤ word.length := by
  rw [matchLength?, utf8Length_of_isApart hword] at h
  split at h
  · obtain ⟨hle, -, hpos⟩ := charsInBytes_bounds h
    refine ⟨hpos (length_pos_iff.2 ?_), hle⟩
    rintro rfl
    cases hword
  · cases h

/-- A word that is apart from the delimiters is found in the stretch. Where the text ends with the
stretch, this takes a word that matches nothing shorter than itself. -/
theorem Leads.matchLength? (hstop : Delimits stop P)
    (hend : P [] → ∀ k, Parsing.matchLength? word u = some k → word.length ≤ u.length)
    (hword : isApart stop word) (h : Leads P u c) : matchLength? word c.rest =
      if word.length ≤ u.length then Parsing.matchLength? word u else none := by
  obtain ⟨s, hs, hP⟩ := h
  cases s with
  | nil =>
    rw [hs, append_nil]
    split
    · rfl
    · rename_i hlong
      exact Option.eq_none_iff_forall_not_mem.2 fun k hk => hlong (hend hP k hk)
  | cons x s => rw [hs, matchLength?_append hstop.toDelimiter hword (hstop.begins x s hP)]

/-- It then lies in the stretch. -/
theorem Leads.matchLength?_le (hstop : Delimits stop P)
    (hend : P [] → ∀ k, Parsing.matchLength? word u = some k → word.length ≤ u.length)
    (hword : isApart stop word) (h : Leads P u c)
    (hk : Parsing.matchLength? word c.rest = some k) : k ≤ u.length := by
  rw [h.matchLength? hstop hend hword] at hk
  split at hk
  · rename_i hle
    exact Nat.le_trans (matchLength?_bounds hword hk).2 hle
  · cases hk

/-- A word is found on both sides or on neither. -/
theorem Common.matches (hstop : Delimits stop P)
    (hend : P [] → ∀ k, Parsing.matchLength? word u = some k → word.length ≤ u.length)
    (hword : isApart stop word) (h : Common P u c d)
    (hR : ∀ k, matchLength? word c.rest = some k → k ≤ u.length → R (c.drop k) (d.drop k)) :
    Matches R word c d := by
  have hsame : matchLength? word c.rest = matchLength? word d.rest := by
    rw [h.left.matchLength? hstop hend hword, h.right.matchLength? hstop hend hword]
  cases hk : matchLength? word d.rest with
  | none => exact .none (hsame.trans hk) hk
  | some k =>
    have hbound : k ≤ u.length := h.right.matchLength?_le hstop hend hword hk
    refine .some k (hsame.trans hk) hk ?_ ?_ ?_
    · rw [← Cursor.rest_drop, ← Cursor.rest_drop, runsOn_of_leads hstop (h.left.drop hbound),
        runsOn_of_leads hstop (h.right.drop hbound)]
    · rw [h.left.take hbound, h.right.take hbound]
    · exact hR k (hsame.trans hk) hbound

theorem Moves.matches (hstop : Delimits stop P) (hne : ¬ P []) (hword : isApart stop word)
    (h : Moves P R c d) : Matches R word c d := by
  obtain ⟨u, hcommon, hR⟩ := h
  exact hcommon.matches hstop (fun hnil => absurd hnil hne) hword fun k _ hk =>
    hR _ _ ⟨k, hk, rfl, rfl⟩

theorem Keeps.symbol {sym : String} (hmatch : ∀ c d, S c d → Matches R sym.toList c d)
    (hspaces : Keeps R T (fun _ _ => True) spaces spaces) :
    Agrees S T (symbol sym) fun _ _ => True := by
  intro c d hcd
  rw [Parsing.symbol, Parsing.symbol]
  cases hmatch c d hcd with
  | none left right =>
    rw [left, right]
    exact .failed
  | some k left right _ _ behind =>
    rw [left, right]
    exact hspaces.pass (.pure trivial) _ _ behind

/-- A mark is found on both sides or on neither where the next characters are the same, or where
neither is the mark. -/
theorem matches_mark (hx : isMark x) (hhead : c.rest.head? = some x ↔ d.rest.head? = some x)
    (hR : c.rest.head? = some x → R (c.drop 1) (d.drop 1)) : Matches R [x] c d := by
  by_cases hc : c.rest.head? = some x
  · have hd := hhead.1 hc
    refine .some 1 (by rw [matchLength?_mark hx, if_pos hc]) (by rw [matchLength?_mark hx, if_pos hd])
      ?_ (by rw [take_one, take_one, hc, hd]) (hR hc)
    have hword : isWord x = false := by
      simp only [isMark, Bool.and_eq_true, Bool.not_eq_true'] at hx
      exact hx.2
    simp [runsOn, hword]
  · exact .none (by rw [matchLength?_mark hx, if_neg hc])
      (by rw [matchLength?_mark hx, if_neg (mt hhead.2 hc)])

theorem Keeps.keyword {V : String → String → Prop} {word : String}
    (hmatch : ∀ c d, S c d → Matches R word.toList c d)
    (hspaces : Keeps R T (fun _ _ => True) spaces spaces) (hV : ∀ a, V a a) :
    Agrees S T (keyword word) V := by
  intro c d hcd
  rw [Parsing.keyword, Parsing.keyword]
  cases hmatch c d hcd with
  | none left right =>
    rw [left, right]
    exact .failed
  | some k left right runsOn_eq written behind =>
    rw [left, right]
    simp only [runsOn_eq]
    split
    · exact .failed
    · rw [written]
      exact hspaces.pass (.pure (hV _)) _ _ behind

theorem Local.keyword (hstop : Delimits stop P) (hne : ¬ P []) {word : String}
    (hword : isApart stop word.toList) (hspace : ∀ x, stop x → isSpaceOrTab x = false) :
    Local P (keyword word) := by
  intro u c d hcommon
  have hspaces : Local P spaces := (Local.takeWhile hstop hspace).bind fun _ => .pure ()
  refine Keeps.keyword (S := fun c' d' => c' = c ∧ d' = d) ?_
    ((hspaces.agrees hcommon).imp (fun _ _ h => h) fun _ _ _ => trivial) (fun _ => rfl) c d ⟨rfl, rfl⟩
  rintro _ _ ⟨rfl, rfl⟩
  exact hcommon.matches hstop (fun hnil => absurd hnil hne) hword fun k _ hk => ⟨k, hk, rfl, rfl⟩

end RobotSource.Parsing
