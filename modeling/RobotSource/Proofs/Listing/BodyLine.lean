import Mathlib.Data.List.Infix
import RobotSource.Listing.Layout
import RobotSource.Proofs.Text.Ascii
import RobotSource.Proofs.Text.Trimming
/-!
# Reading body lines

A body line in its new form is read back as the code it was made of (`ofLine_bodyRow`), and the code
of any line is free of white space at its ends (`trimmed_of_ofLine`).

Behind that stand the shapes of code. A word at the beginning of a text is recognised no matter what
follows it, as long as the word ends there (`afterWord?_append`). The shape of a branch is the one
way to cut its code at the first equals sign and the comma behind it (`caseShape?_eq_some_iff`).
-/

namespace RobotSource.Listing

open Text List

variable {a b code text line : List Char} {c x l m : Char}
variable {rest action : List Char}

/-! ## The code of a line -/

theorem trimStart_append_cons (h : isBlank c = false) :
    trimStart (a ++ c :: b) = trimStart a ++ c :: b := by
  rw [trimStart, trimStart, dropWhile_append]
  split
  · rename_i hnil
    simp [isEmpty_iff.1 hnil, h]
  · rfl

theorem isBlank_of_mem_blanksOf {n : Nat} (h : c ∈ blanksOf n) : isBlank c := by
  rw [blanksOf, mem_replicate] at h
  rw [h.2]
  decide

/-- A line with its number and its semicolon is the code between them. -/
theorem ofLine_numbered {lead number post : List Char} (hlead : ∀ c ∈ lead, isBlank c)
    (hne : number ≠ []) (hnumber : ∀ c ∈ number, isDecimalDigit c ∧ isBlank c = false)
    (hpost : ∀ c ∈ post, isBlank c) :
    BodyLine.ofLine (lead ++ (number ++ ':' :: (text ++ ';' :: post))) = .code (trim text) := by
  obtain ⟨digit, digits, rfl⟩ := exists_cons_of_ne_nil hne
  have hblank : allBlank (lead ++ (digit :: digits ++ ':' :: (text ++ ';' :: post))) = false := by
    rw [allBlank, all_eq_false]
    exact ⟨':', by simp, by decide⟩
  have hafter : afterLineNumber? (lead ++ (digit :: digits ++ ':' :: (text ++ ';' :: post))) =
      some (text ++ ';' :: post) := by
    have hcolon : isDecimalDigit ':' = false := by decide
    have hdigits : ∀ c ∈ digit :: digits, isDecimalDigit c := fun c hc => (hnumber c hc).1
    have hstart : trimStart (lead ++ (digit :: digits ++ ':' :: (text ++ ';' :: post))) =
        digit :: digits ++ ':' :: (text ++ ';' :: post) := by
      rw [trimStart_append_of_all hlead, trimStart_of_head]
      rintro c ⟨rfl⟩
      exact (hnumber _ mem_cons_self).2
    rw [afterLineNumber?, hstart]
    simp only [takeWhile_append_of_pos hdigits, dropWhile_append_of_pos hdigits,
      takeWhile_cons_of_neg (by simp [hcolon] : ¬isDecimalDigit ':' = true),
      dropWhile_cons_of_neg (by simp [hcolon] : ¬isDecimalDigit ':' = true), append_nil]
  have hclosed : terminated? (trimStart (text ++ ';' :: post)) = some (trim text) := by
    have hsemi : isBlank ';' = false := by decide
    rw [terminated?, trimStart_append_cons hsemi, append_cons, trimEnd_append_of_all hpost,
      trimEnd_of_getLast (by simp [hsemi])]
    simp only [getLast?_concat, if_true, dropLast_concat]
    rfl
  rw [BodyLine.ofLine, hblank, hafter]
  simp only [hclosed, Bool.false_eq_true, if_false]

/-- **A body line in its new form is read as the code in it.** -/
theorem ofLine_bodyRow (n : Nat) (text : List Char) :
    BodyLine.ofLine (bodyRow n text) = .code (trim text) := by
  have hrow : bodyRow n text = [' ', ' ', ' '] ++ (['1'] ++ ':' ::
      (blanksOf n ++ text ++ [' '] ++ ';' :: [])) := by
    simp [bodyRow]
  rw [hrow, ofLine_numbered (by decide) (by simp) (by decide) (by simp),
    trim_append_of_all (fun _ => isBlank_of_mem_blanksOf) (by decide)]

/-- The code of a line has no white space at its ends. -/
theorem trimmed_of_ofLine (h : BodyLine.ofLine line = .code code) : Trimmed code := by
  have hloose (text : List Char) : Trimmed (looseCode text) :=
    .of_trimEnd fun c hc => trimmed_trim.head c (head?_of_isPrefix dropEndWhile_isPrefix hc)
  have hclosed {text code : List Char} (hstart : ∀ c, text.head? = some c → isBlank c = false)
      (h : terminated? text = some code) : Trimmed code := by
    rw [terminated?] at h
    split at h
    · cases h
      refine .of_trimEnd fun c hc => hstart c ?_
      exact head?_of_isPrefix ((List.dropLast_prefix _).trans dropEndWhile_isPrefix) hc
    · cases h
  rw [BodyLine.ofLine] at h
  split at h
  · cases h
  · split at h
    · split at h
      · rename_i hcode
        cases h
        exact hclosed (fun _ => head?_trimStart) hcode
      · cases h
        exact hloose _
    · cases h
      exact hloose _

/-- The code of a line is made of characters of the line. -/
theorem mem_of_ofLine (h : BodyLine.ofLine line = .code code) (hc : c ∈ code) : c ∈ line := by
  have hstart {cs : List Char} (h : c ∈ trimStart cs) : c ∈ cs :=
    (dropWhile_suffix isBlank).subset h
  have hend {p : Char → Bool} {cs : List Char} (h : c ∈ dropEndWhile p cs) : c ∈ cs :=
    dropEndWhile_isPrefix.subset h
  have hloose {cs : List Char} (h : c ∈ looseCode cs) : c ∈ cs := hstart (hend (hend (hend h)))
  rw [BodyLine.ofLine] at h
  split at h
  · cases h
  · split at h
    · rename_i rest hrest
      have hmem (h : c ∈ rest) : c ∈ line := by
        rw [afterLineNumber?] at hrest
        split at hrest
        · rename_i hdrop
          cases hrest
          refine hstart ((dropWhile_suffix isDecimalDigit).subset ?_)
          rw [hdrop]
          exact mem_cons_of_mem _ h
        · cases hrest
      split at h
      · rename_i hcode
        cases h
        rw [terminated?] at hcode
        split at hcode
        · cases hcode
          exact hmem (hstart (hend (mem_of_mem_dropLast (hend hc))))
        · cases hcode
      · cases h
        exact hmem (hloose hc)
    · cases h
      exact hloose hc

/-! ## Words -/

/-- White space stands in no word. -/
theorem isWordCharacter_of_isBlank (h : isBlank c) : isWordCharacter c = false :=
  of_isBlank (p := fun c => isWordCharacter c = false) (by decide +kernel) h

theorem isLetter_iff : isLetter l x ↔ x.toLower = l ∨ l = 's' ∧ x = 'ſ' := by
  have hlong : x.toNat = 0x17f ↔ x = 'ſ' := by
    rw [← Char.toNat_inj]
    rfl
  simp [isLetter, hlong]

/-- A character is a form of one small letter at most. -/
theorem isLetter_unique (hl : isLetter l x) (hm : isLetter m x)
    (hlm : l ≠ 'ſ' ∧ m ≠ 'ſ') : l = m := by
  have hlong : 'ſ'.toLower = 'ſ' := by decide
  rw [isLetter_iff] at hl hm
  rcases hl with rfl | ⟨rfl, hx⟩ <;> rcases hm with rfl | ⟨rfl, hx'⟩ <;> simp_all

/-- A character that is no part of a word is no letter of one. -/
theorem isLetter_eq_false (hl : isWordCharacter l) (hx : isWordCharacter x = false) :
    isLetter l x = false := by
  rw [← Bool.not_eq_true, isLetter_iff]
  rintro (hlower | ⟨-, rfl⟩)
  · cases hupper : x.isUpper with
    | true =>
      have hword := of_ascii (p := fun x => x.isUpper = true → isWordCharacter x = true) (by decide)
        (lt_of_isUpper hupper) hupper
      rw [hx] at hword
      cases hword
    | false =>
      rw [← hlower, toLower_of_not_isUpper hupper, hx] at hl
      cases hl
  · revert hx
    decide +kernel

theorem afterLetters?_append {letters : List Char} (hletters : letters.all isWordCharacter)
    (hb : ∀ x, b.head? = some x → isWordCharacter x = false) :
    afterLetters? letters (a ++ b) = (afterLetters? letters a).map (· ++ b) := by
  induction letters generalizing a with
  | nil => rfl
  | cons l letters ih =>
    simp only [all_cons, Bool.and_eq_true] at hletters
    cases a with
    | nil =>
      cases b with
      | nil => rfl
      | cons x b => simp [afterLetters?, isLetter_eq_false hletters.1 (hb x rfl)]
    | cons d a =>
      simp only [cons_append, afterLetters?, ih hletters.2]
      split <;> rfl

/-- **A word is recognised no matter what follows its end.** -/
theorem afterWord?_append {word : String} (hword : word.toList.all isWordCharacter)
    (hb : ∀ x, b.head? = some x → isWordCharacter x = false) :
    afterWord? word (a ++ b) = (afterWord? word a).map (· ++ b) := by
  rw [afterWord?, afterWord?, afterLetters?_append hword hb]
  cases afterLetters? word.toList a with
  | none => rfl
  | some rest =>
    have hend : atWordEnd (rest ++ b) = atWordEnd rest := by
      cases rest with
      | nil =>
        cases b with
        | nil => rfl
        | cons x b => simp [atWordEnd, hb x rfl]
      | cons d rest => rfl
    simp only [Option.map_some, Option.filter_some, hend]
    split <;> rfl

theorem eq_append_of_afterLetters? {letters : List Char}
    (h : afterLetters? letters text = some rest) :
    ∃ word, text = word ++ rest ∧ afterLetters? letters word = some [] := by
  induction letters generalizing text with
  | nil =>
    cases h
    exact ⟨[], rfl, rfl⟩
  | cons l letters ih =>
    cases text with
    | nil => cases h
    | cons x text =>
      rw [afterLetters?] at h
      split at h
      · rename_i hx
        obtain ⟨word, rfl, hword⟩ := ih h
        exact ⟨x :: word, rfl, by rw [afterLetters?, if_pos hx, hword]⟩
      · cases h

/-! ## Branches of a select -/

theorem isSelect_append (hb : ∀ x, b.head? = some x → isWordCharacter x = false) :
    isSelect (a ++ b) = isSelect a := by
  rw [isSelect, isSelect, afterWord?_append (by decide) hb, Option.isSome_map]

theorem exists_cons_of_isSelect (h : isSelect code) :
    ∃ x rest, code = x :: rest ∧ isLetter 's' x := by
  cases code with
  | nil => cases h
  | cons x rest =>
    refine ⟨x, rest, rfl, ?_⟩
    by_contra hx
    simp [isSelect, afterWord?, afterLetters?, hx] at h

theorem splitComma?_eq_some_iff {value : List Char} :
    splitComma? text = some (value, action) ↔ text = value ++ ',' :: action ∧ ',' ∉ value := by
  constructor
  · intro h
    rw [splitComma?] at h
    split at h
    · rename_i rest hrest
      cases h
      refine ⟨?_, fun hmem => by simpa using mem_takeWhile_imp hmem⟩
      rw [← hrest, takeWhile_append_dropWhile]
    · cases h
  · rintro ⟨rfl, hvalue⟩
    have hall : ∀ x ∈ value, (x != ',') = true := by
      intro x hx
      simpa using fun (heq : x = ',') => hvalue (heq ▸ hx)
    rw [splitComma?, dropWhile_append_of_pos hall, takeWhile_append_of_pos hall]
    simp

theorem caseHead_isPrefix (code : List Char) : caseHead code <+: code := by
  rw [caseHead]
  split
  · exact takeWhile_prefix _
  · exact nil_prefix

/-- The two ways a branch begins. -/
theorem caseHead_eq_iff {head : List Char} : caseHead (head ++ '=' :: rest) = head ↔
      head = [] ∨ isSelect head ∧ ∀ x ∈ head, x ≠ '=' ∧ x ≠ ',' := by
  have hselect : isSelect (head ++ '=' :: rest) = isSelect head :=
    isSelect_append (by simp; decide)
  rw [caseHead, hselect]
  split
  · rename_i h
    constructor
    · intro heq
      refine .inr ⟨h, fun x hx => ?_⟩
      rw [← heq] at hx
      simpa using mem_takeWhile_imp hx
    · rintro (rfl | ⟨-, hall⟩)
      · rfl
      · rw [takeWhile_append_of_pos (by simpa using hall)]
        simp
  · rename_i h
    simp [h, eq_comm]

/-- **The shape of a branch**: its code is cut at an equals sign and the next comma, and in front of
the equals sign stands nothing or a select. -/
theorem caseShape?_eq_some_iff {s : CaseShape} :
    caseShape? code = some s ↔ code = s.head ++ '=' :: (s.value ++ ',' :: s.action) ∧
      ',' ∉ s.value ∧ (s.head = [] ∨ isSelect s.head ∧ ∀ x ∈ s.head, x ≠ '=' ∧ x ≠ ',') := by
  constructor
  · intro h
    rw [caseShape?] at h
    split at h
    · rename_i rest hrest
      simp only [Option.bind_eq_bind, Option.bind_eq_some_iff] at h
      obtain ⟨⟨value, action⟩, hsplit, hs⟩ := h
      cases hs
      obtain ⟨rfl, hvalue⟩ := splitComma?_eq_some_iff.1 hsplit
      have hcode : code = caseHead code ++ '=' :: (value ++ ',' :: action) := by
        rw [← hrest]
        exact (prefix_iff_eq_append.1 (caseHead_isPrefix code)).symm
      have hhead : caseHead (caseHead code ++ '=' :: (value ++ ',' :: action)) = caseHead code := by
        rw [← hcode]
      exact ⟨hcode, hvalue, caseHead_eq_iff.1 hhead⟩
    · cases h
  · rintro ⟨rfl, hvalue, hhead⟩
    rw [caseShape?, caseHead_eq_iff.2 hhead, drop_left]
    simp [splitComma?_eq_some_iff.2 ⟨rfl, hvalue⟩]

theorem elseAction?_eq_some_iff : elseAction? code = some action ↔
      ∃ word gap rest, code = word ++ gap ++ ',' :: rest ∧
        afterLetters? "else".toList word = some [] ∧ (∀ x ∈ gap, isBlank x) ∧
        action = trimStart rest := by
  constructor
  · intro h
    simp only [elseAction?, Option.bind_eq_bind, Option.bind_eq_some_iff] at h
    obtain ⟨behind, hbehind, h⟩ := h
    obtain ⟨word, rfl, hword⟩ := eq_append_of_afterLetters? hbehind
    split at h
    · rename_i rest hrest
      cases h
      refine ⟨word, behind.takeWhile isBlank, rest, ?_, hword, ?_, rfl⟩
      · rw [append_assoc, ← hrest, trimStart, takeWhile_append_dropWhile]
      · exact fun x hx => mem_takeWhile_imp hx
    · cases h
  · rintro ⟨word, gap, rest, rfl, hword, hgap, rfl⟩
    have hstart : ∀ x, (gap ++ ',' :: rest).head? = some x → isWordCharacter x = false := by
      intro x hx
      cases gap with
      | nil =>
        cases hx
        decide
      | cons y gap =>
        cases hx
        exact isWordCharacter_of_isBlank (hgap _ mem_cons_self)
    have hrest : trimStart (gap ++ ',' :: rest) = ',' :: rest := by
      rw [trimStart_append_of_all hgap, trimStart_of_head (by simp; decide)]
    rw [elseAction?, append_assoc, afterLetters?_append (by decide) hstart, hword]
    simp [hrest]

/-! ## Lines that leave the depth alone -/

theorem depths_of_first (depth : Nat) (h : ∀ m ∈ ['e', 'i', 'f'], isLetter m x = false) :
    depths depth (x :: rest) = (depth, depth) := by
  simp only [mem_cons, not_mem_nil, or_false, forall_eq_or_imp, forall_eq] at h
  simp [depths, closesBlock, isBareElse, opensBlock, opensIf, afterWord?, afterLetters?, h]

theorem margin_of_first (h : ∀ m ∈ ['j', 'l', 'c', 'a'], isLetter m x = false) :
    margin (x :: rest) = 2 := by
  have hlower : x.toLower ∉ ['j', 'l', 'c', 'a'] := by
    intro hmem
    have hletter : isLetter x.toLower x := isLetter_iff.2 (.inl rfl)
    rw [h _ hmem] at hletter
    cases hletter
  cases rest with
  | nil => rfl
  | cons y rest => simp_all [margin, isMotion]

/-- A branch stands as deep as what surrounds it. -/
theorem depths_of_caseShape {s : CaseShape} (h : caseShape? code = some s) (depth : Nat) :
    depths depth code = (depth, depth) ∧ margin code = 2 := by
  obtain ⟨rfl, -, hnil | ⟨hselect, -⟩⟩ := caseShape?_eq_some_iff.1 h
  · rw [hnil]
    exact ⟨depths_of_first depth (by simp [isLetter]), margin_of_first (by simp [isLetter])⟩
  · obtain ⟨x, rest, hx, hs⟩ := exists_cons_of_isSelect hselect
    have hother {m : Char} (hm : m ≠ 's' ∧ m ≠ 'ſ') : isLetter m x = false := by
      rw [← Bool.not_eq_true]
      exact fun h => hm.1 (isLetter_unique h hs ⟨hm.2, by decide⟩)
    rw [hx, cons_append]
    exact ⟨depths_of_first depth (by simp [hother]), margin_of_first (by simp [hother])⟩

theorem exists_cons_of_elseAction (h : elseAction? code = some action) :
    ∃ x y rest, code = x :: y :: rest ∧ isLetter 'e' x ∧ isLetter 'l' y := by
  obtain ⟨word, gap, rest, rfl, hword, -, -⟩ := elseAction?_eq_some_iff.1 h
  match word, hword with
  | x :: y :: word, hword =>
    refine ⟨x, y, _, rfl, ?_, ?_⟩ <;> by_contra hne <;> simp [afterLetters?, hne] at hword
  | [x], hword => simp [afterLetters?] at hword
  | [], hword => simp [afterLetters?] at hword

/-- So does an `ELSE,` branch, unlike a bare `ELSE`. -/
theorem depths_of_elseAction (h : elseAction? code = some action)
    (depth : Nat) : depths depth code = (depth, depth) ∧ margin code = 2 := by
  have hbare : isBareElse code = false := by
    rw [isBareElse, beq_eq_false_iff_ne]
    intro hnil
    rw [elseAction?, hnil] at h
    cases h
  obtain ⟨x, y, rest, rfl, hx, hy⟩ := exists_cons_of_elseAction h
  have hfirst {m : Char} (hm : m ≠ 'e' ∧ m ≠ 'ſ') : isLetter m x = false := by
    rw [← Bool.not_eq_true]
    exact fun h => hm.1 (isLetter_unique h hx ⟨hm.2, by decide⟩)
  have hsecond : isLetter 'n' y = false := by
    rw [← Bool.not_eq_true]
    exact fun h => absurd (isLetter_unique h hy (by decide)) (by decide)
  refine ⟨?_, margin_of_first (by simp [hfirst])⟩
  have hcloses : closesBlock (x :: y :: rest) = false := by
    simp [closesBlock, afterWord?, afterLetters?, hsecond]
  have hopens : opensBlock (x :: y :: rest) = false := by
    simp [opensBlock, opensIf, afterWord?, afterLetters?, hfirst]
  simp only [depths, hcloses, hbare, hopens, Bool.false_eq_true, if_false]

/-- An `ELSE,` branch opens no select. -/
theorem isSelect_of_elseAction (h : elseAction? code = some action) : isSelect code = false := by
  obtain ⟨x, y, rest, rfl, hx, -⟩ := exists_cons_of_elseAction h
  rw [← Bool.not_eq_true]
  intro hselect
  obtain ⟨z, rest', heq, hz⟩ := exists_cons_of_isSelect hselect
  cases heq
  exact absurd (isLetter_unique hx hz (by decide)) (by decide)

end RobotSource.Listing
