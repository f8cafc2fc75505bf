import RobotSource.Proofs.Parsing.Token
/-!
# Texts in capitals

A text and the same text with its ASCII letters as capitals are read alike. No test of a token tells
a small letter from its capital, so the tokens end at the same places (`InCapitals`), and what they
yield differs in capitals only.
-/

namespace RobotSource

open Text List

/-! ## Characters and texts -/

namespace Text

variable {x : Char} {q : Char → Bool}

theorem isDigit_toUpper (x : Char) : x.toUpper.isDigit = x.isDigit := apply_toUpper (by decide) x

theorem isSpaceOrTab_toUpper (x : Char) : isSpaceOrTab x.toUpper = isSpaceOrTab x :=
  apply_toUpper (by decide) x

theorem isSpacing_toUpper (x : Char) : isSpacing x.toUpper = isSpacing x :=
  apply_toUpper (by decide) x

theorem isBlank_toUpper (x : Char) : isBlank x.toUpper = isBlank x := apply_toUpper (by decide) x

theorem isBreak_toUpper (x : Char) : Parsing.isBreak x.toUpper = Parsing.isBreak x :=
  apply_toUpper (by decide) x

theorem isNameChar_toUpper (x : Char) : Parsing.isNameChar x.toUpper = Parsing.isNameChar x :=
  apply_toUpper (by decide) x

theorem isNameStart_toUpper (x : Char) : Parsing.isNameStart x.toUpper = Parsing.isNameStart x :=
  apply_toUpper (by decide) x

theorem isWord_toUpper (x : Char) : Parsing.isWord x.toUpper = Parsing.isWord x :=
  apply_toUpper (by decide) x

theorem lowerCase_toUpper (x : Char) : lowerCase x.toUpper = lowerCase x :=
  apply_toUpper (by decide) x

theorem toLower_toUpper (x : Char) : x.toUpper.toLower = x.toLower := apply_toUpper (by decide) x

theorem utf8Size_toUpper (x : Char) : x.toUpper.utf8Size = x.utf8Size :=
  apply_toUpper (f := Char.utf8Size) (by decide) x

theorem upperCase_toUpper (x : Char) : upperCase x.toUpper = upperCase x :=
  apply_toUpper (by decide) x

/-- What is in upper case already stays as it is. -/
theorem map_toUpper_upperCase (x : Char) : (upperCase x).map Char.toUpper = upperCase x := by
  rw [upperCase]
  split
  · have htwice : x.toUpper.toUpper = x.toUpper := apply_toUpper (f := Char.toUpper) (by decide) x
    rw [map_singleton, htwice]
  · rename_i hcode
    split
    · rename_i capital hfind
      have hall : ∀ entry ∈ asciiCapitals,
          entry.2.toList.map Char.toUpper = entry.2.toList := by decide
      exact hall _ (mem_of_find?_eq_some hfind)
    · rw [map_singleton, toUpper_of_not_isLower]
      rw [← Bool.not_eq_true]
      intro hlower
      have hlt := lt_of_isLower hlower
      omega

theorem toUpper_ofList (s : List Char) :
    (String.ofList s).toUpper = String.ofList (s.map Char.toUpper) := by
  rw [← String.toList_inj, String.toUpper, String.toList_map, String.toList_ofList,
    String.toList_ofList]

theorem toList_toUpper (s : String) : s.toUpper.toList = s.toList.map Char.toUpper :=
  String.toList_map

theorem toUpper_upper (s : String) : (upper s).toUpper = upper s.toUpper := by
  rw [upper, upper, toUpper_ofList, toList_toUpper, map_flatMap, flatMap_map]
  simp only [map_toUpper_upperCase, upperCase_toUpper]

theorem toUpper_of_isDigit (hx : x.isDigit) : x.toUpper = x :=
  of_ascii (p := fun x => x.isDigit = true → x.toUpper = x) (by decide) (lt_of_isDigit hx) hx

theorem beq_toUpper (hx : x.isAlpha = false) (y : Char) : (y.toUpper == x) = (y == x) :=
  Bool.eq_iff_iff.2 (by rw [beq_iff_eq, beq_iff_eq, toUpper_eq_iff hx])

theorem map_toUpper_eq_iff {w : List Char} (hw : ∀ x ∈ w, x.isAlpha = false) (s : List Char) :
    s.map Char.toUpper = w ↔ s = w := by
  induction w generalizing s with
  | nil => rw [map_eq_nil_iff]
  | cons x w ih =>
    obtain ⟨hx, hw⟩ := forall_mem_cons.1 hw
    cases s with
    | nil => simp
    | cons y s => rw [map_cons, List.cons.injEq, List.cons.injEq, toUpper_eq_iff hx, ih hw]

section
variable {q : Char → Bool}

theorem takeWhile_toUpper (hq : ∀ x, q x.toUpper = q x) (s : List Char) :
    (s.map Char.toUpper).takeWhile q = (s.takeWhile q).map Char.toUpper := by
  rw [takeWhile_map]
  exact congrArg (fun p => (s.takeWhile p).map Char.toUpper) (funext hq)

theorem dropWhile_toUpper (hq : ∀ x, q x.toUpper = q x) (s : List Char) :
    (s.map Char.toUpper).dropWhile q = (s.dropWhile q).map Char.toUpper := by
  rw [dropWhile_map]
  exact congrArg (fun p => (s.dropWhile p).map Char.toUpper) (funext hq)

theorem dropEndWhile_toUpper (hq : ∀ x, q x.toUpper = q x) (s : List Char) :
    dropEndWhile q (s.map Char.toUpper) = (dropEndWhile q s).map Char.toUpper := by
  induction s with
  | nil => rfl
  | cons x s ih =>
    rw [map_cons, dropEndWhile, dropEndWhile, ih, hq]
    cases dropEndWhile q s with
    | nil =>
      simp only [map_nil]
      split <;> rfl
    | cons y rest => rfl

theorem any_head?_toUpper (hq : ∀ x, q x.toUpper = q x) (s : List Char) :
    (s.map Char.toUpper).head?.any q = s.head?.any q := by
  cases s with
  | nil => rfl
  | cons x s => simp [hq]

end

theorem trimStart_toUpper (s : List Char) :
    trimStart (s.map Char.toUpper) = (trimStart s).map Char.toUpper :=
  dropWhile_toUpper isBlank_toUpper s

theorem trim_toUpper (s : List Char) : trim (s.map Char.toUpper) = (trim s).map Char.toUpper := by
  rw [trim, trim, trimStart_toUpper, trimEnd, trimEnd, dropEndWhile_toUpper isBlank_toUpper]

theorem trimOf_toUpper (hx : x.isAlpha = false) (s : List Char) :
    trimOf x (s.map Char.toUpper) = (trimOf x s).map Char.toUpper := by
  rw [trimOf, trimOf, dropWhile_toUpper (beq_toUpper hx), dropEndWhile_toUpper (beq_toUpper hx)]

theorem toUpper_eq_empty_iff (s : String) : s = "" ↔ s.toUpper = "" := by
  rw [← String.toList_eq_nil_iff, ← String.toList_eq_nil_iff, toList_toUpper, map_eq_nil_iff]

theorem sameCharsIgnoringCase_toUpper_left (s t : List Char) :
    sameCharsIgnoringCase (s.map Char.toUpper) t = sameCharsIgnoringCase s t := by
  rw [sameCharsIgnoringCase, sameCharsIgnoringCase, map_map]
  exact congrArg (s.map · == _) (funext toLower_toUpper)

theorem sameCharsIgnoringCase_toUpper_right (s t : List Char) :
    sameCharsIgnoringCase s (t.map Char.toUpper) = sameCharsIgnoringCase s t := by
  rw [sameCharsIgnoringCase, sameCharsIgnoringCase, map_map]
  exact congrArg (_ == t.map ·) (funext toLower_toUpper)

end Text

namespace Parsing

/-! ## Places -/

/-- The same place, with the text in capitals on the second side. -/
structure InCapitals (c d : Cursor) : Prop where
  rest : c.rest.map Char.toUpper = d.rest
  position : c.position = d.position

variable {c d : Cursor} {k : Nat}

theorem afterAll_toUpper (p : Position) (u : List Char) :
    p.afterAll (u.map Char.toUpper) = p.afterAll u := by
  induction u generalizing p with
  | nil => rfl
  | cons x u ih =>
    have hnext : p.after x.toUpper = p.after x := by
      simp only [Position.after, toUpper_eq_iff (x := '\n') rfl x]
    rw [map_cons, Position.afterAll_cons, Position.afterAll_cons, hnext, ih]

namespace InCapitals

theorem length_eq (h : InCapitals c d) : c.rest.length = d.rest.length := by
  rw [← h.rest, length_map]

theorem drop (h : InCapitals c d) (k : Nat) : InCapitals (c.drop k) (d.drop k) where
  rest := by rw [Cursor.rest_drop, Cursor.rest_drop, ← h.rest, map_drop]
  position := by
    simp only [Cursor.drop]
    rw [← h.rest, ← h.position, ← map_take, afterAll_toUpper]

theorem upTo {c' d' : Cursor} (h : InCapitals c d) (h' : InCapitals c' d') :
    (c.upTo c').map Char.toUpper = d.upTo d' := by
  rw [Cursor.upTo, Cursor.upTo, ← h.length_eq, ← h'.length_eq, ← h.rest, map_take]

theorem atEnd (h : InCapitals c d) : d.atEnd = c.atEnd := by
  rw [Cursor.atEnd, Cursor.atEnd, ← h.rest, isEmpty_map]

end InCapitals

/-! ## Tokens -/

theorem keeps_takeWhile_capitals (hq : ∀ x, q x.toUpper = q x) :
    Keeps InCapitals InCapitals (fun a b => a.map Char.toUpper = b) (takeWhile q)
      (takeWhile q) := by
  intro c d hcd
  rw [takeWhile, takeWhile, ← hcd.rest, takeWhile_toUpper hq, length_map]
  exact .done rfl (hcd.drop _)

theorem keeps_spaces_capitals :
    Keeps InCapitals InCapitals (fun _ _ => True) spaces spaces :=
  (keeps_takeWhile_capitals isSpaceOrTab_toUpper).bind fun _ _ _ => .pure trivial

theorem keeps_takeWhile1_capitals {what : String}
    (hq : ∀ x, q x.toUpper = q x) :
    Agrees InCapitals InCapitals (takeWhile1 what q)
      fun a b => a.map Char.toUpper = b ∧ ∀ x ∈ a, q x := by
  intro c d hcd
  rw [takeWhile1, takeWhile1, ← hcd.rest, takeWhile_toUpper hq]
  cases htaken : c.rest.takeWhile q with
  | nil => exact .failed
  | cons x taken =>
    have hall : ∀ y ∈ x :: taken, q y := fun y hy =>
      all_eq_true.1 all_takeWhile y (htaken ▸ hy)
    simp only [map_cons, length_cons, length_map]
    exact .done ⟨rfl, hall⟩ (hcd.drop _)

/-- Digits stay as they are. -/
theorem keeps_digits_capitals : Agrees InCapitals InCapitals digits (· = ·) := by
  refine (keeps_takeWhile1_capitals isDigit_toUpper).imp (fun _ _ h => h) ?_
  rintro a b ⟨rfl, hall⟩
  have hsame : ∀ x ∈ a, x.toUpper = id x := fun x hx => toUpper_of_isDigit (hall x hx)
  rw [map_congr_left hsame, map_id]

theorem head?_eq_iff_capitals (h : InCapitals c d) (hx : x.isAlpha = false) :
    c.rest.head? = some x ↔ d.rest.head? = some x := by
  rw [← h.rest]
  cases c.rest with
  | nil => rfl
  | cons y t => simp [toUpper_eq_iff hx]

theorem keeps_char_capitals (hx : x.isAlpha = false) :
    Agrees InCapitals InCapitals (char x) fun _ _ => True := by
  intro c d hcd
  have hhead := head?_eq_iff_capitals hcd hx
  rw [char, char]
  by_cases hc : c.rest.head? = some x
  · rw [if_pos hc, if_pos (hhead.1 hc)]
    exact .done trivial (hcd.drop 1)
  · rw [if_neg hc, if_neg (mt hhead.2 hc)]
    exact .failed

theorem keeps_charThat_capitals {what : String}
    (hq : ∀ x, q x.toUpper = q x) :
    Agrees InCapitals InCapitals (charThat what q) fun _ _ => True := by
  intro c d hcd
  rw [charThat, charThat, ← hcd.rest]
  cases hrest : c.rest with
  | nil => exact .failed
  | cons x t =>
    simp only [map_cons, hq]
    split
    · exact .done trivial (hcd.drop 1)
    · exact .failed

theorem keeps_identifier_capitals :
    Agrees InCapitals InCapitals identifier fun a b => a.toUpper = b := by
  intro c d hcd
  rw [identifier_apply, identifier_apply, ← hcd.rest, any_head?_toUpper isNameStart_toUpper,
    takeWhile_toUpper isNameChar_toUpper, length_map]
  split
  · exact .done (toUpper_ofList _) (hcd.drop _)
  · exact .failed

/-- The texts are the same but for capitals. -/
abbrev Upper (a b : String) : Prop := a.toUpper = b

theorem keeps_recognized_capitals {α : Type} {p : Parser α} {V : α → α → Prop}
    (h : Agrees InCapitals InCapitals p V) :
    Agrees InCapitals InCapitals (Parser.recognized p) Upper :=
  fun c d hcd => (h c d hcd).recognized fun c' d' hcd' => by
    rw [Upper, toUpper_ofList, hcd.upTo hcd']

/-! ## Words -/

theorem charsInBytes_toUpper (k : Nat) (t : List Char) :
    charsInBytes k (t.map Char.toUpper) = charsInBytes k t := by
  induction t generalizing k with
  | nil => rfl
  | cons x t ih =>
    cases k with
    | zero => rfl
    | succ k => rw [map_cons, charsInBytes, charsInBytes, utf8Size_toUpper, ih]

theorem matchLength?_toUpper (word t : List Char) :
    matchLength? word (t.map Char.toUpper) = matchLength? word t := by
  rw [matchLength?, matchLength?, charsInBytes_toUpper, zip_map_left, all_map]
  simp only [Function.comp_def, Prod.map, id_eq, lowerCase_toUpper]

theorem runsOn_toUpper (word next : List Char) :
    runsOn word (next.map Char.toUpper) = runsOn word next := by
  rw [runsOn, runsOn, any_head?_toUpper isWord_toUpper]

/-- The spaces behind a word, which is given back as it stands in the text. -/
theorem keeps_word_capitals (h : InCapitals c d) :
    Keeps InCapitals InCapitals (fun a b => a.toUpper = b)
      (do spaces; return String.ofList (c.rest.take k) : Parser String)
      (do spaces; return String.ofList (d.rest.take k) : Parser String) := by
  refine keeps_spaces_capitals.bind fun _ _ _ => .pure ?_
  rw [toUpper_ofList, map_take, h.rest]

theorem keeps_keyword_capitals {word : String} :
    Agrees InCapitals InCapitals (keyword word) fun a b => a.toUpper = b := by
  intro c d hcd
  have hmatch : matchLength? word.toList d.rest = matchLength? word.toList c.rest := by
    rw [← hcd.rest, matchLength?_toUpper]
  rw [keyword, keyword, hmatch]
  cases hk : matchLength? word.toList c.rest with
  | none => exact .failed
  | some k =>
    have hruns : runsOn word.toList (d.rest.drop k) = runsOn word.toList (c.rest.drop k) := by
      rw [← hcd.rest, ← map_drop, runsOn_toUpper]
    simp only [hruns]
    split
    · exact .failed
    · exact keeps_word_capitals hcd _ _ (hcd.drop k)

theorem keeps_symbol_capitals {sym : String} :
    Agrees InCapitals InCapitals (symbol sym) fun a b => a.toUpper = b := by
  intro c d hcd
  have hmatch : matchLength? sym.toList d.rest = matchLength? sym.toList c.rest := by
    rw [← hcd.rest, matchLength?_toUpper]
  rw [symbol, symbol, hmatch]
  cases hk : matchLength? sym.toList c.rest with
  | none => exact .failed
  | some k => exact keeps_word_capitals hcd _ _ (hcd.drop k)

/-! ## Lines -/

theorem keeps_lineBreak_capitals :
    Agrees InCapitals InCapitals lineBreak fun _ _ => True := by
  intro c d hcd
  rw [lineBreak]
  split
  · rename_i t hrest
    have hd : d.rest = '\n' :: t.map Char.toUpper := by
      rw [← hcd.rest, hrest]
      rfl
    rw [lineBreak, hd]
    exact .done trivial (hcd.drop 1)
  · rename_i t hrest
    have hd : d.rest = '\r' :: '\n' :: t.map Char.toUpper := by
      rw [← hcd.rest, hrest]
      rfl
    rw [lineBreak, hd]
    exact .done trivial (hcd.drop 2)
  · rename_i hfeed hpair
    -- a break in capitals is a break before
    rw [lineBreak]
    split
    · rename_i t hd
      obtain ⟨y, s, hrest, hy, -⟩ := map_eq_cons_iff.1 (hcd.rest.trans hd)
      exact absurd ((toUpper_eq_iff rfl y).1 hy ▸ hrest) (hfeed s)
    · rename_i t hd
      obtain ⟨y, s, hrest, hy, hs⟩ := map_eq_cons_iff.1 (hcd.rest.trans hd)
      obtain ⟨z, s', rfl, hz, -⟩ := map_eq_cons_iff.1 hs
      rw [(toUpper_eq_iff rfl y).1 hy, (toUpper_eq_iff rfl z).1 hz] at hrest
      exact absurd hrest (hpair s')
    · exact .failed

end Parsing

end RobotSource
