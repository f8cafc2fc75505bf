import RobotSource.Proofs.Parsing.Reading
import RobotSource.Proofs.Parsing.Words
/-!
# Words and names

Keywords are compared in lower case with whatever text stands there, names are plain ASCII. On ASCII
text the comparison is that of `sameCharsIgnoringCase` (`matchLength?_ascii`), so a keyword reads a
name only if the two are the same word (`keyword_of_name`, `keyword_failed_of_name`). Beyond ASCII no
character but the Kelvin sign passes for an ASCII letter.
-/

namespace RobotSource.Parsing

open Text List

variable {w u t : List Char} {c r : Cursor}
variable {x b : Char}

/-- All characters are ASCII. -/
def Ascii (u : List Char) : Prop := ∀ x ∈ u, x.toNat < 128

instance : Decidable (Ascii u) :=
  decidable_of_iff (u.all (·.toNat < 128) = true) (by simp [Ascii])

theorem Ascii.tail (h : Ascii (x :: u)) : Ascii u :=
  fun y hy => h y (mem_cons_of_mem _ hy)

/-! ## Characters of names and words -/

theorem lt_of_isNameChar (h : isNameChar x) : x.toNat < 128 := by
  simp only [isNameChar, Bool.or_eq_true, beq_iff_eq] at h
  rcases h with h | rfl
  · exact lt_of_isAlphanum h
  · decide

/-- In ASCII the characters of words are those of names. -/
theorem isWord_eq_isNameChar (h : x.toNat < 128) : isWord x = isNameChar x :=
  of_ascii (p := fun x => isWord x = isNameChar x) (by decide) h

theorem isWord_of_isNameChar (h : isNameChar x) : isWord x := by
  rw [isWord_eq_isNameChar (lt_of_isNameChar h), h]

theorem isSpacing_of_isSpaceOrTab (h : isSpaceOrTab x) : isSpacing x := by
  simp only [isSpaceOrTab, Bool.or_eq_true, beq_iff_eq] at h
  rcases h with rfl | rfl <;> rfl

theorem not_isWord_of_isSpacing (h : isSpacing x) : isWord x = false := by
  simp only [isSpacing, Bool.or_eq_true, beq_iff_eq] at h
  rcases h with ((rfl | rfl) | rfl) | rfl <;> decide

theorem lowerCase_of_lt (h : x.toNat < 128) : lowerCase x = [x.toLower] := by
  rw [lowerCase, if_pos h]

theorem not_isDigit_of_isNameStart (h : isNameStart x) : x.isDigit = false :=
  of_ascii (p := fun x => isNameStart x = true → x.isDigit = false) (by decide)
    (lt_of_isNameChar (isNameChar_of_isNameStart h)) h

theorem lowerCase_of_isDigit (h : x.isDigit) : lowerCase x = [x] :=
  of_ascii (p := fun x => x.isDigit = true → lowerCase x = [x]) (by decide) (lt_of_isDigit h) h

/-- A character beyond ASCII does not pass for an ASCII letter but K. -/
theorem lowerCase_ne_of_ge (hx : 128 ≤ x.toNat) (hb : b.toNat < 128)
    (hk : b.toLower ≠ 'k') : lowerCase x ≠ lowerCase b := by
  rw [lowerCase_of_lt hb]
  exact lowerCase_ne_singleton hx (toLower_lt hb) hk

/-! ## Matches in ASCII -/

theorem utf8Length_of_ascii (hw : Ascii w) : utf8Length w = w.length := by
  induction w with
  | nil => rfl
  | cons b w ih =>
    rw [utf8Length, utf8Size_of_lt (hw b mem_cons_self), ih hw.tail, length_cons]
    omega

/-- A word is looked for in as much of the text as it is long. -/
theorem matchLength?_append_of_le (hw : Ascii w) (hle : w.length ≤ u.length) :
    matchLength? w (u ++ t) = matchLength? w u := by
  rw [matchLength?, matchLength?, zip_append_of_le hle, charsInBytes_append]
  rwa [utf8Length_of_ascii hw]

/-- In ASCII a word matches where it stands, in any case. -/
theorem matchLength?_ascii (hw : Ascii w) (hu : Ascii u) : matchLength? w u =
    if sameCharsIgnoringCase (u.take w.length) w then some w.length else none := by
  induction w generalizing u with
  | nil => simp [matchLength?, utf8Length, charsInBytes, sameCharsIgnoringCase]
  | cons b w ih =>
    have hb := hw b mem_cons_self
    have hsize : b.utf8Size = 1 := utf8Size_of_lt hb
    cases u with
    | nil =>
      rw [matchLength?, utf8Length, hsize, Nat.add_comm, charsInBytes]
      simp [sameCharsIgnoringCase]
    | cons a u =>
      have ha := hu a mem_cons_self
      have hsame : sameCharsIgnoringCase ((a :: u).take (b :: w).length) (b :: w) =
          (a.toLower == b.toLower && sameCharsIgnoringCase (u.take w.length) w) := by
        simp [sameCharsIgnoringCase, cons_beq_cons]
      rw [hsame]
      by_cases hab : a.toLower = b.toLower
      · have hcons : matchLength? (b :: w) (a :: u) = (matchLength? w u).map (· + 1) := by
          simp only [matchLength?, zip_cons_cons, all_cons, lowerCase_of_lt ha,
            lowerCase_of_lt hb, hab, beq_self_eq_true, Bool.true_and, utf8Length, hsize,
            Nat.add_comm 1, charsInBytes, utf8Size_of_lt ha]
          split <;> simp
        rw [hcons, ih hw.tail hu.tail, hab, beq_self_eq_true, Bool.true_and]
        split <;> simp
      · simp [matchLength?, lowerCase_of_lt ha, lowerCase_of_lt hb, hab]

theorem matchLength?_of_same (hw : Ascii w) (hu : Ascii u) (h : sameCharsIgnoringCase u w) :
    matchLength? w (u ++ t) = some u.length := by
  have hlength : u.length = w.length := by
    have hmap := congrArg List.length (eq_of_beq h)
    simpa using hmap
  rw [matchLength?_append_of_le hw (Nat.le_of_eq hlength.symm), matchLength?_ascii hw hu, ← hlength,
    take_length, if_pos h]

/-- What differs in the case of letters alone from ASCII text is ASCII text. -/
theorem ascii_of_same (hw : Ascii w) (h : sameCharsIgnoringCase u w) : Ascii u := by
  intro x hx
  have hmem : x.toLower ∈ w.map Char.toLower := eq_of_beq h ▸ mem_map_of_mem hx
  obtain ⟨b, hb, hbx⟩ := mem_map.1 hmem
  exact lt_of_toLower_lt (hbx ▸ toLower_lt (hw b hb))

/-- ASCII characters, none of them a K: there is no other spelling of them. -/
def isSpelledOut (w : List Char) : Bool :=
  w.all fun b => b.toNat < 128 && b.toLower != 'k'

/-- **What matches such a word** is the word, but for the case of its letters. -/
theorem same_of_matchLength? {k : Nat} (hw : isSpelledOut w)
    (h : matchLength? w t = some k) :
    k = w.length ∧ sameCharsIgnoringCase (t.take k) w := by
  induction w generalizing t k with
  | nil =>
    simp only [matchLength?, zip_nil_right, all_nil, if_true, utf8Length, charsInBytes,
      Option.some_inj] at h
    subst h
    exact ⟨rfl, rfl⟩
  | cons b w ih =>
    rw [isSpelledOut, all_cons, Bool.and_eq_true] at hw
    obtain ⟨hb, hw⟩ := hw
    simp only [Bool.and_eq_true, decide_eq_true_eq, bne_iff_ne] at hb
    have hsize : b.utf8Size = 1 := utf8Size_of_lt hb.1
    cases t with
    | nil =>
      rw [matchLength?, utf8Length, hsize, Nat.add_comm, charsInBytes, ite_self] at h
      cases h
    | cons a t =>
      by_cases hab : lowerCase a = lowerCase b
      · have ha : a.toNat < 128 := by
          by_contra hge
          exact lowerCase_ne_of_ge (Nat.le_of_not_lt hge) hb.1 hb.2 hab
        have hcons : matchLength? (b :: w) (a :: t) = (matchLength? w t).map (· + 1) := by
          simp only [matchLength?, zip_cons_cons, all_cons, hab, beq_self_eq_true,
            Bool.true_and, utf8Length, hsize, Nat.add_comm 1, charsInBytes, utf8Size_of_lt ha]
          split <;> simp
        rw [hcons, Option.map_eq_some_iff] at h
        obtain ⟨j, hj, rfl⟩ := h
        obtain ⟨rfl, hsame⟩ := ih hw hj
        rw [lowerCase_of_lt ha, lowerCase_of_lt hb.1, singleton_inj] at hab
        refine ⟨rfl, ?_⟩
        rw [take_succ_cons, sameCharsIgnoringCase, map_cons, map_cons, hab,
          eq_of_beq hsame, beq_self_eq_true]
      · simp [matchLength?, hab] at h

/-- A word of ASCII letters, none of them a K. -/
def isPlainWord (w : List Char) : Bool :=
  w.all fun b => b.toNat < 128 && b.isAlpha && b.toLower != 'k'

/-- A keyword in letters. -/
class Lettered (w : String) : Prop where
  fact : isPlainWord w.toList = true ∧ w.toList ≠ []

instance {w : String} [h : Among w letterWords] : Lettered w :=
  ⟨(by decide +kernel : ∀ w ∈ letterWords.flatten,
    isPlainWord w.toList = true ∧ w.toList ≠ []) w h.mem⟩

/-- A match of such a word is as long as the word and consists of letters. -/
theorem matchLength?_letters {k : Nat} (hw : isPlainWord w) (h : matchLength? w t = some k) :
    k = w.length ∧ w.length ≤ t.length ∧ sameCharsIgnoringCase (t.take k) w ∧
      ∀ x ∈ t.take k, x.isAlpha := by
  simp only [isPlainWord, all_eq_true, Bool.and_eq_true, decide_eq_true_eq, bne_iff_ne] at hw
  have hspelled : isSpelledOut w := by
    simp only [isSpelledOut, all_eq_true, Bool.and_eq_true, decide_eq_true_eq, bne_iff_ne]
    exact fun b hb => ⟨(hw b hb).1.1, (hw b hb).2⟩
  obtain ⟨rfl, hsame⟩ := same_of_matchLength? hspelled h
  have hascii : Ascii w := fun b hb => (hw b hb).1.1
  refine ⟨rfl, ?_, hsame, fun x hx => ?_⟩
  · have hlength := congrArg List.length (eq_of_beq hsame)
    simp only [length_map, length_take] at hlength
    omega
  · have hmem : x.toLower ∈ w.map Char.toLower := eq_of_beq hsame ▸ mem_map_of_mem hx
    obtain ⟨b, hb, hbx⟩ := mem_map.1 hmem
    exact isAlpha_of_toLower_eq (ascii_of_same hascii hsame x hx) (hascii b hb) (hw b hb).1.2 hbx.symm

/-! ## Keywords at names -/

/-- **A keyword in letters is a name in the text**, and spaces and tabs are taken behind it. -/
theorem identifier_of_keyword {w a : String} (hw : isPlainWord w.toList ∧ w.toList ≠ [])
    (h : keyword w c = .done a r) :
    ∃ s c', identifier c = .done s c' ∧ sameIgnoringCase s w ∧ spaces c' = .done () r := by
  obtain ⟨k, hk, hruns, hspaces, -⟩ := keyword_eq_done h
  obtain ⟨rfl, hle, hsame, hletters⟩ := matchLength?_letters hw.1 hk
  have hlast : w.toList.getLast?.any isWord := by
    have hx := all_eq_true.1 hw.1 _ (getLast_mem hw.2)
    simp only [Bool.and_eq_true] at hx
    rw [getLast?_eq_some_getLast hw.2]
    exact isWord_of_isNameChar (by simp [isNameChar, Char.isAlphanum, hx.1.2])
  have htaken : c.rest.takeWhile isNameChar = c.rest.take w.toList.length := by
    rw [runsOn, hlast, Bool.true_and] at hruns
    conv_lhs => rw [← take_append_drop w.toList.length c.rest]
    refine takeWhile_append_of_head? (fun x hx => ?_) (any_eq_false_of_imp ?_ hruns)
    · simp [isNameChar, Char.isAlphanum, hletters x hx]
    · exact fun x => isWord_of_isNameChar
  have hstart : c.rest.head?.any isNameStart := by
    obtain ⟨n, hn⟩ := Nat.exists_eq_succ_of_ne_zero (length_eq_zero_iff.not.2 hw.2)
    cases hc : c.rest with
    | nil => simp [hc, hn] at hle
    | cons x t => simp [isNameStart, hletters x (by simp [hc, hn])]
  refine ⟨_, _, identifier_eq_done.2 ⟨hstart, rfl, rfl⟩, ?_, ?_⟩
  · rwa [sameIgnoringCase, String.toList_ofList, htaken]
  · rwa [htaken, length_take, Nat.min_eq_left hle]

/-- A keyword is read where its word stands and does not run on. -/
theorem keyword_of_same {w : String} (hword : Ascii w.toList) (hu : Ascii u)
    (hc : c.rest = u ++ t) (h : sameCharsIgnoringCase u w.toList)
    (hstop : t.head?.any isWord = false) :
    ∃ a r, keyword w c = .done a r ∧ r.rest = t.dropWhile isSpaceOrTab := by
  rw [keyword, hc, matchLength?_of_same hword hu h]
  simp only [drop_left]
  rw [if_neg (by simp [runsOn, hstop])]
  refine ⟨_, _, rfl, ?_⟩
  rw [Cursor.rest_drop, Cursor.rest_drop, hc, drop_left, drop_length_takeWhile]

theorem symbol_of_same {w : String} (hword : Ascii w.toList) (hc : c.rest = w.toList ++ t) :
    ∃ a r, symbol w c = .done a r ∧ r.rest = t.dropWhile isSpaceOrTab := by
  rw [symbol, hc, matchLength?_of_same hword hword (by simp [sameCharsIgnoringCase])]
  refine ⟨_, _, rfl, ?_⟩
  rw [Cursor.rest_drop, Cursor.rest_drop, hc, drop_left, drop_length_takeWhile]

/-- Where a keyword fails although its word stands there, the word runs on. -/
theorem runsOn_of_keyword_failed {word : String} (hword : Ascii word.toList) (hu : Ascii u)
    (hc : c.rest = u ++ t) (h : sameCharsIgnoringCase u word.toList) {e : Failure}
    (hfailed : keyword word c = .failed e) : t.head?.any isWord := by
  by_contra hstop
  obtain ⟨a, r, hdone, -⟩ := keyword_of_same hword hu hc h (Bool.eq_false_iff.2 hstop)
  rw [hfailed] at hdone
  cases hdone

theorem delimiter_isMark : Delimiter isMark where
  lower x hx := lowerCase_mark hx
  word x hx := by
    simp only [isMark, Bool.and_eq_true, Bool.not_eq_true'] at hx
    exact hx.2
  name x hx := by
    simp only [isMark, Bool.and_eq_true, Bool.not_eq_true', decide_eq_true_eq] at hx
    rw [← isWord_eq_isNameChar hx.1.1, hx.2]

/-- No other keyword is read where a name stands. -/
theorem keyword_failed_of_name {word : String} (hword : isApart isMark word.toList)
    (hlast : word.toList.getLast?.any isWord) (hu : ∀ x ∈ u, isNameChar x)
    (hc : c.rest = u ++ t) (hstop : t.head?.all isMark)
    (h : sameCharsIgnoringCase u word.toList = false) : ∃ e, keyword word c = .failed e := by
  have hascii : Ascii word.toList := by
    simp only [isApart, Bool.and_eq_true, all_eq_true, decide_eq_true_eq] at hword
    exact fun b hb => (hword.2 b hb).1
  have huAscii : Ascii u := fun x hx => lt_of_isNameChar (hu x hx)
  have hmatch : matchLength? word.toList c.rest = none ∨
      word.toList.length ≤ u.length ∧ matchLength? word.toList c.rest = some word.toList.length := by
    by_cases hle : word.toList.length ≤ u.length
    · rw [hc, matchLength?_append_of_le hascii hle, matchLength?_ascii hascii huAscii]
      split
      · exact .inr ⟨hle, rfl⟩
      · exact .inl rfl
    · cases t with
      | nil =>
        rw [hc, append_nil, matchLength?_ascii hascii huAscii, take_of_length_le (by omega), h]
        exact .inl rfl
      | cons x t =>
        rw [hc, matchLength?_append delimiter_isMark hword (by simpa using hstop), if_neg hle]
        exact .inl rfl
  rcases hmatch with hmatch | ⟨hle, hmatch⟩
  · exact ⟨_, by rw [keyword, hmatch]⟩
  · -- The name begins with the word and goes on, or it would be the word.
    have hne : u.length ≠ word.toList.length := by
      intro hlength
      rw [hc, matchLength?_append_of_le hascii hle, matchLength?_ascii hascii huAscii, ← hlength,
        take_length, h] at hmatch
      cases hmatch
    have hruns : runsOn word.toList (c.rest.drop word.toList.length) := by
      obtain ⟨y, s, hdrop⟩ : ∃ y s, u.drop word.toList.length = y :: s := by
        refine exists_cons_of_ne_nil fun hnil => ?_
        have := drop_eq_nil_iff.1 hnil
        omega
      have hy : isNameChar y := hu y (drop_subset _ _ (hdrop ▸ mem_cons_self))
      rw [runsOn, hlast, hc, drop_append_of_le_length hle, hdrop]
      simp [isWord_of_isNameChar hy]
    exact ⟨_, by rw [keyword, hmatch]; simp only [hruns, if_true]; rfl⟩

end RobotSource.Parsing
