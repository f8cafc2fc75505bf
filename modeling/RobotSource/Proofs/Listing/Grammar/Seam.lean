import RobotSource.Proofs.Listing.Grammar.Cut
/-!
# Reading code that has been cut at seams

Code that has been read consists of plain characters and literals. Where white space is cut out at
an equals sign or a comma, the sign either stands in a literal or between tokens, and between tokens
the white space is spaces and tabs, which every token takes along behind it. So each place in the one
text has a place in the other that corresponds to it (`Spot`, `Spot.of_lexed`), and from corresponding
places the same tokens are read (`lexis_spot`).
-/

namespace RobotSource.Listing.Grammar

open Parsing Parsing.Parser Text List

variable {v : View}
variable {x : Char} {r : List Char} {s : String}
variable {t t' : List Char} {m : Char}

/-! ## Corresponding places -/

/-- The literals are alike, and the view makes the same of them. -/
structure SameLiteral (v : View) (a b : String) : Prop where
  alike : Alike a.toList b.toList
  literal_eq : v.literal a = v.literal b

theorem SameLiteral.refl (v : View) (a : String) : SameLiteral v a a := ⟨.refl _, rfl⟩

/-- What is left of a text, and what is left at the corresponding place after cuts. -/
inductive Spot (v : View) : List Char → List Char → Prop
  | same (t : List Char) : Spot v t t
  | plain {x : Char} {t t' : List Char} (hx : isPlain x = true)
      (hequals : x = '<' ∨ x = '>' → (t.head? = some '=' ↔ t'.head? = some '=')) (h : Spot v t t') :
      Spot v (x :: t) (x :: t')
  | seam {m : Char} {g g' t t' : List Char} (hm : isSeam m = true)
      (hg : ∀ x ∈ g, isSpaceOrTab x = true) (hg' : ∀ x ∈ g', isSpaceOrTab x = true)
      (h : Spot v t t') : Spot v (g ++ m :: (g' ++ t)) (m :: t')
  | literal {s s' : String} {x : Char} {t t' r r' : List Char} (hs : literal? (x :: t) = some (s, r))
      (hs' : literal? (x :: t') = some (s', r')) (hsame : SameLiteral v s s') (h : Spot v r r') :
      Spot v (x :: t) (x :: t')

theorem isLiteralStart_of_literal? {t : List Char}
    (h : literal? (x :: t) = some (s, r)) : isLiteralStart x := by
  obtain ⟨y, t', hxt, hy⟩ := exists_cons_of_literal? h
  cases hxt
  exact hy

theorem not_isBlank_of_isLiteralStart (h : isLiteralStart x) : isBlank x = false := by
  simp only [isLiteralStart, Bool.or_eq_true, beq_iff_eq] at h
  rcases h with ((rfl | rfl) | rfl) | rfl <;> decide

theorem not_isSpaceOrTab_of_isLiteralStart (h : isLiteralStart x) :
    isSpaceOrTab x = false := by
  simp only [isLiteralStart, Bool.or_eq_true, beq_iff_eq] at h
  rcases h with ((rfl | rfl) | rfl) | rfl <;> decide

theorem not_isLiteralStart_of_isSeam (h : isSeam x) : isLiteralStart x = false := by
  simp only [isSeam, Bool.or_eq_true, beq_iff_eq] at h
  rcases h with rfl | rfl <;> decide

theorem not_isSpaceOrTab_of_isSeam (h : isSeam x) : isSpaceOrTab x = false := by
  simp only [isSeam, Bool.or_eq_true, beq_iff_eq] at h
  rcases h with rfl | rfl <;> decide

/-- White space in front of code that has been read is spaces and tabs. -/
theorem Lexed.blank_cons {t : List Char} (h : Lexed (x :: t) r) (hr : r.head? = some ';')
    (hx : isBlank x) : isSpaceOrTab x ∧ Lexed t r := by
  generalize hxt : x :: t = s at h
  cases h with
  | refl =>
    rw [← hxt, head?_cons, Option.some.injEq] at hr
    rw [hr] at hx
    cases hx
  | plain hplain _ h =>
    cases hxt
    simp only [isPlain, Bool.and_eq_true, hx, Bool.not_true, Bool.or_false] at hplain
    exact ⟨hplain.2, h⟩
  | literal hs _ =>
    rw [← hxt] at hs
    rw [not_isBlank_of_isLiteralStart (isLiteralStart_of_literal? hs)] at hx
    cases hx

theorem Lexed.blanks {g t : List Char} (h : Lexed (g ++ t) r) (hr : r.head? = some ';')
    (hg : ∀ x ∈ g, isGap x) : ∀ x ∈ g, isSpaceOrTab x := by
  induction g with
  | nil => simp
  | cons x g ih =>
    have hblank := (Bool.and_eq_true_iff.1 (hg x mem_cons_self)).1
    obtain ⟨hx, hrest⟩ := Lexed.blank_cons h hr hblank
    rintro y (_ | ⟨_, hy⟩)
    · exact hx
    · exact ih hrest (fun z hz => hg z (mem_cons_of_mem _ hz)) y hy

theorem not_isLiteralStart_of_isBlank (h : isBlank x) : isLiteralStart x = false := by
  by_contra hx
  rw [not_isBlank_of_isLiteralStart (by simpa using hx)] at h
  cases h

/-- The view cannot tell literals that are alike, or the literals of the texts are the same. -/
def KeptLiterals (v : View) (t t' : List Char) : Prop :=
  (∀ a b : String, Alike a.toList b.toList → v.literal a = v.literal b) ∨ literals t = literals t'

theorem KeptLiterals.of_eq {t t' u u' : List Char} (h : KeptLiterals v t t')
    (ht : literals t = literals u) (ht' : literals t' = literals u') : KeptLiterals v u u' :=
  h.imp_right fun heq => ht ▸ ht' ▸ heq

theorem KeptLiterals.of_literal? {s' : String} {t t' r' : List Char} (h : KeptLiterals v t t')
    (hs : literal? t = some (s, r)) (hs' : literal? t' = some (s', r'))
    (halike : Alike s.toList s'.toList) : SameLiteral v s s' ∧ KeptLiterals v r r' := by
  rcases h with hview | heq
  · exact ⟨⟨halike, hview s s' halike⟩, .inl hview⟩
  · rw [literals_of_literal? hs, literals_of_literal? hs', List.cons.injEq] at heq
    obtain ⟨rfl, hrest⟩ := heq
    exact ⟨.refl v s, .inr hrest⟩

namespace Spot

variable {t t' : List Char}

/-- A space in front of a seam is cut out with the others. -/
theorem cons_space (h : Spot v t (m :: t')) (hm : isSeam m)
    (hx : isSpaceOrTab x) : Spot v (x :: t) (m :: t') := by
  generalize hmt : m :: t' = s at h
  have hspace : ∀ y ∈ [x], isSpaceOrTab y := by simpa using hx
  cases h with
  | same =>
    rw [← hmt]
    have hseam : Spot v ([x] ++ m :: ([] ++ t')) (m :: t') := .seam hm hspace (by simp) (.same t')
    exact hseam
  | plain _ _ h =>
    cases hmt
    have hseam : Spot v ([x] ++ m :: ([] ++ _)) (m :: t') := .seam hm hspace (by simp) h
    exact hseam
  | @seam m g g' t t' hm hg hg' h =>
    refine .seam (g := x :: g) hm ?_ hg' h
    rintro y (_ | ⟨_, hy⟩)
    · exact hx
    · exact hg y hy
  | literal hs _ _ _ =>
    cases hmt
    exact absurd (isLiteralStart_of_literal? hs) (by simp [not_isLiteralStart_of_isSeam hm])

/-- A space on both sides may be passed. -/
theorem of_cons_space (h : Spot v (x :: t) (x :: t')) (hx : isSpaceOrTab x) :
    Spot v t t' := by
  generalize hxt : x :: t = s at h
  generalize hxt' : x :: t' = s' at h
  cases h with
  | same =>
    cases hxt
    cases hxt'
    exact .same t
  | plain _ _ h =>
    cases hxt
    cases hxt'
    exact h
  | seam hm _ _ _ =>
    cases hxt'
    rw [not_isSpaceOrTab_of_isSeam hm] at hx
    cases hx
  | literal hs _ _ _ =>
    cases hxt
    rw [not_isSpaceOrTab_of_isLiteralStart (isLiteralStart_of_literal? hs)] at hx
    cases hx

theorem of_append {g : List Char} (h : Spot v (g ++ t) (g ++ t'))
    (hg : ∀ x ∈ g, isSpaceOrTab x) : Spot v t t' := by
  induction g with
  | nil => exact h
  | cons x g ih =>
    exact ih (h.of_cons_space (hg x mem_cons_self)) fun y hy => hg y (mem_cons_of_mem _ hy)

/-- A seam that stands first does so on the other side as well. -/
theorem head?_of_head? (h : Spot v t t') (ht : t.head? = some m) (hm : isSeam m) :
    t'.head? = some m := by
  cases h with
  | same => exact ht
  | plain => exact ht
  | @seam k g g' t t' hk hg hg' h =>
    cases g with
    | nil => exact ht
    | cons x g =>
      rw [cons_append, head?_cons, Option.some.injEq] at ht
      exact absurd (hg x mem_cons_self) (by simp [ht, not_isSpaceOrTab_of_isSeam hm])
  | literal => exact ht

/-- And in the other direction, behind spaces. -/
theorem head?_dropWhile (h : Spot v t t') (ht : t'.head? = some m) (hm : isSeam m) :
    (t.dropWhile isSpaceOrTab).head? = some m := by
  have hspace := not_isSpaceOrTab_of_isSeam hm
  have hfirst {s : List Char} (hs : s.head? = some m) : (s.dropWhile isSpaceOrTab).head? = some m := by
    obtain ⟨s, rfl⟩ := head?_eq_some_iff.1 hs
    rw [dropWhile_cons_of_neg (by simp [hspace])]
    rfl
  cases h with
  | same => exact hfirst ht
  | plain => exact hfirst ht
  | seam hk hg hg' h =>
    cases ht
    rw [dropWhile_append_of_pos hg]
    exact hfirst rfl
  | literal => exact hfirst ht

/-- **Cut code has its places in correspondence** if it has been read up to its semicolon. -/
theorem of_lexed (h : Lexed t r) (hr : r.head? = some ';')
    (hline : ∀ x ∈ r.takeWhile (· != '\n'), isSeam x = false) (hcut : Cut t t')
    (hkept : KeptLiterals v t t') : Spot v t t' := by
  induction h generalizing t' with
  | refl =>
    rw [hcut.eq_of_all hline]
    exact .same t'
  | @plain x t r hx hunparted hlexed ih =>
    have hstart : isLiteralStart x = false := by
      simp only [isPlain, Bool.and_eq_true, Bool.not_eq_true'] at hx
      exact hx.1
    generalize hxt : x :: t = s at hcut
    cases hcut with
    | refl => exact .same _
    | cons _ hcut =>
      cases hxt
      have hspot := ih hr hline hcut
        (hkept.of_eq (literals_cons hstart _) (literals_cons hstart _))
      refine .plain hx (fun hxe => ⟨fun ht => ?_, fun ht => ?_⟩) hspot
      · exact hspot.head?_of_head? ht (by decide)
      · exact hunparted hxe (hspot.head?_dropWhile ht (by decide))
    | @seam m g g' t₀ t₀' hm hg hg' hcut =>
      cases g with
      | nil =>
        -- The seam comes first, and white space behind it may follow.
        cases hxt
        have hspaces := Lexed.blanks hlexed hr hg'
        have hnl : '\n' ∉ g' := fun hmem => absurd (hg' _ hmem) (by decide)
        have hblank : ∀ x ∈ g', isLiteralStart x = false := fun x hx =>
          not_isLiteralStart_of_isBlank (Bool.and_eq_true_iff.1 (hg' x hx)).1
        have hkept := hkept.of_eq (literals_cons hstart _)
          ((literals_cons hstart _).trans (literals_append hblank t₀').symm)
        have hspot := (ih hr hline (hcut.append hnl) hkept).of_append hspaces
        exact .seam (g := []) hm (by simp) hspaces hspot
      | cons y g =>
        cases hxt
        have hy := (Bool.and_eq_true_iff.1 (hg x mem_cons_self)).1
        simp only [isPlain, Bool.and_eq_true, hy, Bool.not_true, Bool.or_false] at hx
        have hrest := ih hr hline (.seam hm (fun z hz => hg z (mem_cons_of_mem _ hz)) hg' hcut)
          (hkept.of_eq (literals_cons hstart _) rfl)
        exact hrest.cons_space hm hx.2
  | @literal s t u r hs hlexed ih =>
    obtain ⟨x, t₁, rfl, hx⟩ := exists_cons_of_literal? hs
    have hgap : isGap x = false := by simp [isGap, not_isBlank_of_isLiteralStart hx]
    have hseam : isSeam x = false := by
      cases hseam : isSeam x with
      | false => rfl
      | true =>
        rw [not_isLiteralStart_of_isSeam hseam] at hx
        cases hx
    obtain ⟨s', r', hs', halike, hrest⟩ := literal?_cut hcut hs
    obtain ⟨t₁', rfl, -⟩ := hcut.tail hgap hseam
    obtain ⟨hsame, hkept⟩ := hkept.of_literal? hs hs' halike
    exact .literal hs hs' hsame (ih hr hline hrest hkept)

/-! ## Words at corresponding places -/

theorem dropWhile (h : Spot v t t') :
    Spot v (t.dropWhile isSpaceOrTab) (t'.dropWhile isSpaceOrTab) := by
  have hneg {x : Char} (hx : isSpaceOrTab x = false) (s : List Char) :
      (x :: s).dropWhile isSpaceOrTab = x :: s := dropWhile_cons_of_neg (by simp [hx])
  induction h with
  | same => exact .same _
  | @plain x t t' hx hequals h ih =>
    by_cases hspace : isSpaceOrTab x
    · rwa [dropWhile_cons_of_pos hspace, dropWhile_cons_of_pos hspace]
    · rw [hneg (Bool.eq_false_iff.2 hspace), hneg (Bool.eq_false_iff.2 hspace)]
      exact .plain hx hequals h
  | seam hm hg hg' h _ =>
    have hspace := not_isSpaceOrTab_of_isSeam hm
    rw [dropWhile_append_of_pos hg, hneg hspace, hneg hspace]
    exact .seam (g := []) hm (by simp) hg' h
  | literal hs hs' hsame h _ =>
    have hspace := not_isSpaceOrTab_of_isLiteralStart (isLiteralStart_of_literal? hs)
    rw [hneg hspace, hneg hspace]
    exact .literal hs hs' hsame h

/-- Behind a seam, places correspond once spaces and tabs are passed. -/
theorem behind_seam (h : Spot v (m :: t) (m :: t')) (hm : isSeam m) :
    Spot v (t.dropWhile isSpaceOrTab) (t'.dropWhile isSpaceOrTab) := by
  generalize hmt : m :: t = s at h
  generalize hmt' : m :: t' = s' at h
  cases h with
  | same =>
    cases hmt
    cases hmt'
    exact .same _
  | plain _ _ h =>
    cases hmt
    cases hmt'
    exact h.dropWhile
  | @seam k g g' u u' hk hg hg' h =>
    cases hmt'
    cases g with
    | nil =>
      cases hmt
      rw [dropWhile_append_of_pos hg']
      exact h.dropWhile
    | cons x g =>
      cases hmt
      exact absurd (hg m mem_cons_self) (by simp [not_isSpaceOrTab_of_isSeam hm])
  | literal hs _ _ _ =>
    cases hmt
    exact absurd (isLiteralStart_of_literal? hs) (by simp [not_isLiteralStart_of_isSeam hm])

end Spot

/-- The characters at which the texts may part. -/
def isParting (x : Char) : Bool := isSpaceOrTab x || isSeam x || isLiteralStart x

/-- A text that begins with one of them. -/
def Parting (s : List Char) : Prop := s.head?.any isParting = true

theorem delimiter_isParting : Delimiter isParting := by
  have hcases {p : Char → Prop} (h : ∀ x ∈ [' ', '\t', '=', ',', '\'', '"', '$', ':'], p x) (x : Char)
      (hx : isParting x) : p x := by
    refine h x ?_
    simp only [isParting, isSpaceOrTab, isSeam, isLiteralStart, Bool.or_eq_true, beq_iff_eq] at hx
    simp only [mem_cons, not_mem_nil, or_false]
    tauto
  exact ⟨hcases (by decide), hcases (by decide), hcases (by decide)⟩

theorem delimits_parting : Delimits isParting Parting where
  toDelimiter := delimiter_isParting
  begins _ _ h := h

theorem delimits_partingOrNil : Delimits isParting fun s => s = [] ∨ Parting s where
  toDelimiter := delimiter_isParting
  begins _ _ h := by
    rcases h with h | h
    · cases h
    · exact h

/-- The texts are the same, or they are up to where both of them may part. -/
theorem Spot.eq_or_split (h : Spot v t t') : t = t' ∨
    ∃ u s s', t = u ++ s ∧ t' = u ++ s' ∧ Parting s ∧ Parting s' ∧
      ∀ k ≤ u.length, Spot v (t.drop k) (t'.drop k) := by
  induction h with
  | same => exact .inl rfl
  | @plain x t t' hx hequals h ih =>
    rcases ih with rfl | ⟨u, s, s', ht, ht', hs, hs', hdrop⟩
    · exact .inl rfl
    · refine .inr ⟨x :: u, s, s', by rw [ht]; rfl, by rw [ht']; rfl, hs, hs', fun k hk => ?_⟩
      cases k with
      | zero => exact .plain hx hequals h
      | succ k => exact hdrop k (Nat.le_of_succ_le_succ hk)
  | @seam m g g' t t' hm hg hg' h _ =>
    refine .inr ⟨[], _, _, rfl, rfl, ?_, ?_, fun k hk => ?_⟩
    · cases g with
      | nil => simp [Parting, isParting, hm]
      | cons x g => simp [Parting, isParting, hg x mem_cons_self]
    · simp [Parting, isParting, hm]
    · obtain rfl : k = 0 := Nat.le_zero.1 hk
      exact .seam hm hg hg' h
  | literal hs hs' hsame h _ =>
    have hx := isLiteralStart_of_literal? hs
    refine .inr ⟨[], _, _, rfl, rfl, by simp [Parting, isParting, hx],
      by simp [Parting, isParting, hx], fun k hk => ?_⟩
    obtain rfl : k = 0 := Nat.le_zero.1 hk
    exact .literal hs hs' hsame h

/-! ## Cursors at corresponding places -/

/-- Behind a token. -/
def Loose (v : View) (c d : Cursor) : Prop := Spot v c.rest d.rest

/-- Behind a word, where the spaces may still differ. -/
def Behind (v : View) (c d : Cursor) : Prop :=
  Spot v (c.rest.dropWhile isSpaceOrTab) (d.rest.dropWhile isSpaceOrTab)

/-- Where a token may begin. -/
def Tight (v : View) (c d : Cursor) : Prop :=
  Loose v c d ∧ c.rest.head?.any isSpaceOrTab = false ∧ d.rest.head?.any isSpaceOrTab = false

variable {c d : Cursor}

theorem Loose.moves (h : Loose v c d) : Moves (fun s => s = [] ∨ Parting s) (Loose v) c d := by
  rcases Spot.eq_or_split h with heq | ⟨u, s, s', hs, hs', hpart, hpart', hdrop⟩
  · refine ⟨c.rest, ⟨⟨[], by simp, .inl rfl⟩, ⟨[], by simp [heq], .inl rfl⟩⟩, ?_⟩
    rintro _ _ ⟨k, -, rfl, rfl⟩
    rw [Loose, Cursor.rest_drop, Cursor.rest_drop, heq]
    exact .same _
  · refine ⟨u, ⟨⟨s, hs, .inr hpart⟩, ⟨s', hs', .inr hpart'⟩⟩, ?_⟩
    rintro _ _ ⟨k, hk, rfl, rfl⟩
    rw [Loose, Cursor.rest_drop, Cursor.rest_drop]
    exact hdrop k hk

/-- A word without parting characters. -/
theorem Loose.matches {word : List Char} (h : Loose v c d) (hword : isApart isParting word) :
    Matches (Behind v) word c d := by
  refine Matches.mono (R := Loose v) ?_ fun _ _ h => h.dropWhile
  rcases Spot.eq_or_split h with heq | ⟨u, s, s', hs, hs', hpart, hpart', hdrop⟩
  · refine matches_of_rest_eq heq fun k => ?_
    rw [Loose, Cursor.rest_drop, Cursor.rest_drop, heq]
    exact .same _
  · refine Moves.matches delimits_parting (by simp [Parting]) hword
      ⟨u, ⟨⟨s, hs, hpart⟩, ⟨s', hs', hpart'⟩⟩, ?_⟩
    rintro _ _ ⟨k, hk, rfl, rfl⟩
    rw [Loose, Cursor.rest_drop, Cursor.rest_drop]
    exact hdrop k hk

/-- A seam as a token of its own. -/
theorem Tight.matches (h : Tight v c d) (hx : isSeam x) : Matches (Behind v) [x] c d := by
  obtain ⟨hspot, hc, -⟩ := h
  have hmark : isMark x := by
    simp only [isSeam, Bool.or_eq_true, beq_iff_eq] at hx
    rcases hx with rfl | rfl <;> decide
  have hright (ht : d.rest.head? = some x) : c.rest.head? = some x := by
    have hhead := Spot.head?_dropWhile hspot ht hx
    cases hrest : c.rest with
    | nil => rwa [hrest] at hhead
    | cons y s =>
      rw [hrest, head?_cons, Option.any_some] at hc
      rwa [hrest, dropWhile_cons_of_neg (by simp [hc])] at hhead
  refine matches_mark hmark ⟨fun ht => Spot.head?_of_head? hspot ht hx, hright⟩ fun ht => ?_
  obtain ⟨t, ht⟩ := head?_eq_some_iff.1 ht
  obtain ⟨t', ht'⟩ := head?_eq_some_iff.1 (Spot.head?_of_head? hspot (by rw [ht]; rfl) hx)
  rw [Loose, ht, ht'] at hspot
  rw [Behind, Cursor.rest_drop, Cursor.rest_drop, ht, ht']
  exact hspot.behind_seam hx

theorem isPrefix_equals_iff {y : Char} {t : List Char} :
    [x, '='] <+: y :: t ↔ x = y ∧ t.head? = some '=' := by
  cases t <;> simp [cons_prefix_cons, eq_comm]

/-- A comparison that ends with an equals sign stands at both places or at neither. -/
theorem Spot.comparison (h : Spot v t t') (hx : x = '<' ∨ x = '>') :
    ([x, '='] <+: t ↔ [x, '='] <+: t') ∧ ([x, '='] <+: t →
      Spot v ((t.drop 2).dropWhile isSpaceOrTab) ((t'.drop 2).dropWhile isSpaceOrTab)) := by
  have hneither {y y' : Char} {s s' : List Char} (hy : y ≠ x) (hy' : y' ≠ x) :
      ([x, '='] <+: y :: s ↔ [x, '='] <+: y' :: s') ∧ ([x, '='] <+: y :: s →
        Spot v (((y :: s).drop 2).dropWhile isSpaceOrTab)
          (((y' :: s').drop 2).dropWhile isSpaceOrTab)) := by
    simp [Ne.symm hy, Ne.symm hy']
  have hother {y : Char} (hy : isParting y) : y ≠ x := by
    rintro rfl
    rcases hx with rfl | rfl <;> exact absurd hy (by decide)
  cases h with
  | same => exact ⟨Iff.rfl, fun _ => .same _⟩
  | @plain y t t' hy hequals h =>
    by_cases hyx : y = x
    · subst hyx
      simp only [isPrefix_equals_iff, true_and]
      refine ⟨hequals hx, fun ht => ?_⟩
      obtain ⟨s, rfl⟩ := head?_eq_some_iff.1 ht
      obtain ⟨s', rfl⟩ := head?_eq_some_iff.1 ((hequals hx).1 rfl)
      exact h.behind_seam (by decide)
    · exact hneither hyx hyx
  | @seam k g g' t t' hk hg hg' h =>
    have hkx := hother (y := k) (by simp [isParting, hk])
    cases g with
    | nil => exact hneither hkx hkx
    | cons y g => exact hneither (hother (by simp [isParting, hg y mem_cons_self])) hkx
  | literal hs _ _ _ =>
    have hyx := hother (by rw [isParting, isLiteralStart_of_literal? hs, Bool.or_true])
    exact hneither hyx hyx

theorem Loose.matches_comparison (h : Loose v c d) (hx : x = '<' ∨ x = '>') :
    Matches (Behind v) [x, '='] c d := by
  obtain ⟨hiff, hbehind⟩ := Spot.comparison h hx
  have hmarks : ∀ y ∈ [x, '='], isMark y := by
    rcases hx with rfl | rfl <;> decide
  by_cases hc : [x, '='] <+: c.rest
  · have hd := hiff.1 hc
    refine .some 2 (by rw [matchLength?_marks hmarks, if_pos hc]; rfl)
      (by rw [matchLength?_marks hmarks, if_pos hd]; rfl) ?_ ?_ (hbehind hc)
    · simp [runsOn, show isWord '=' = false by decide]
    · exact (prefix_iff_eq_take.1 hc).symm.trans (prefix_iff_eq_take.1 hd)
  · exact .none (by rw [matchLength?_marks hmarks, if_neg hc])
      (by rw [matchLength?_marks hmarks, if_neg (mt hiff.2 hc)])

theorem keeps_spaces_behind : Keeps (Behind v) (Tight v) (fun _ _ => True) spaces spaces := by
  intro c d hcd
  have hhead := head?_dropWhile_any isSpaceOrTab
  refine .done trivial ⟨?_, ?_, ?_⟩
  · rwa [Loose, Cursor.rest_drop, Cursor.rest_drop, drop_length_takeWhile, drop_length_takeWhile]
  · rw [Cursor.rest_drop, drop_length_takeWhile, hhead]
  · rw [Cursor.rest_drop, drop_length_takeWhile, hhead]

theorem keeps_of_local_loose {α : Type} {p : Parser α} {V : α → α → Prop}
    (hp : Local (fun s => s = [] ∨ Parting s) p) (hV : ∀ a, V a a) :
    Agrees (Loose v) (Loose v) p V :=
  (Keeps.of_local (fun _ _ h => h.moves) hp).imp (fun _ _ h => h) fun a _ hab => hab ▸ hV a

/-! ## Literals at corresponding places -/

/-- One kind of literal, which begins with certain characters and is the literal that stands there. -/
theorem keeps_literal (isStart : Char → Bool) {p : Parser String} (hlocal : Local LineRest p)
    (hstart : ∀ x, isStart x → isLiteralStart x)
    (hfails : ∀ x, isStart x = false → FailsAt x p)
    (hread : ∀ c x s r, isStart x → c.rest.head? = some x → literal c = .done s r →
      p c = .done s r) : Agrees (Loose v) (Loose v) p (SameLiteral v) := by
  intro c d hcd
  have hfail {x y : Char} (hx : isStart x = false) (hy : isStart y = false)
      (hc : c.rest.head? = some x) (hd : d.rest.head? = some y) :
      (p c).Rel (Loose v) (SameLiteral v) (p d) := by
    obtain ⟨e, he⟩ := hfails x hx c hc
    obtain ⟨e', he'⟩ := hfails y hy d hd
    rw [he, he']
    exact .failed
  have hother {x : Char} (hx : isLiteralStart x = false) : isStart x = false :=
    Bool.eq_false_iff.2 fun h => by rw [hstart x h] at hx; cases hx
  generalize ht : c.rest = t at hcd
  generalize ht' : d.rest = t' at hcd
  rw [Loose, ht, ht'] at hcd
  cases hcd with
  | same =>
    refine (rel_of_rest_eq hlocal (ht.trans ht'.symm)).mono (fun c' d' hwithin => ?_)
      fun a b hab => hab ▸ .refl v a
    obtain ⟨k, -, rfl, rfl⟩ := hwithin
    rw [Loose, Cursor.rest_drop, Cursor.rest_drop, ht, ht']
    exact .same _
  | @plain x s s' hx _ _ =>
    have hx : isLiteralStart x = false := by
      simp only [isPlain, Bool.and_eq_true, Bool.not_eq_true'] at hx
      exact hx.1
    exact hfail (hother hx) (hother hx) (by rw [ht]; rfl) (by rw [ht']; rfl)
  | @seam k g g' s s' hk hg hg' _ =>
    have hkx := hother (not_isLiteralStart_of_isSeam hk)
    cases g with
    | nil => exact hfail hkx hkx (by rw [ht]; rfl) (by rw [ht']; rfl)
    | cons x g =>
      refine hfail (hother (Bool.eq_false_iff.2 fun hx => ?_)) hkx (by rw [ht]; rfl) (by rw [ht']; rfl)
      exact absurd (hg x mem_cons_self) (by simp [not_isSpaceOrTab_of_isLiteralStart hx])
  | @literal s s' x u u' r r' hs hs' hsame h =>
    by_cases hx : isStart x
    · obtain ⟨r₁, hr₁, rfl⟩ := literal?_eq_some_iff.1 (ht ▸ hs)
      obtain ⟨r₂, hr₂, rfl⟩ := literal?_eq_some_iff.1 (ht' ▸ hs')
      rw [hread c x s r₁ hx (by rw [ht]; rfl) hr₁, hread d x s' r₂ hx (by rw [ht']; rfl) hr₂]
      exact .done hsame h
    · have hx := Bool.eq_false_iff.2 hx
      exact hfail hx hx (by rw [ht]; rfl) (by rw [ht']; rfl)

theorem keeps_stringLiteral : Agrees (Loose v) (Loose v) stringLiteral (SameLiteral v) := by
  refine keeps_literal (fun x => x == '\'' || x == '"') (local_stringLiteral borders_lineRest) ?_ ?_ ?_
  · intro x hx
    rw [isLiteralStart, hx]
    rfl
  · intro x hx
    simp only [Bool.or_eq_false_iff, beq_eq_false_iff_ne] at hx
    exact failsAt_stringLiteral (Option.some_inj.not.2 hx.1) (Option.some_inj.not.2 hx.2)
  · intro c x s r hx hc h
    have hne : x ≠ '$' ∧ x ≠ ':' := by
      simp only [Bool.or_eq_true, beq_iff_eq] at hx
      rcases hx with rfl | rfl <;> decide
    have hother := (failsAt_systemVariable (Option.some_inj.not.2 hne.1)).orElse
      (failsAt_commentLiteral (Option.some_inj.not.2 hne.2))
    exact (hother.orElse_left_iff hc).1 h

theorem keeps_systemVariable :
    Agrees (Loose v) (Loose v) systemVariable (SameLiteral v) := by
  refine keeps_literal (· == '$') (local_systemVariable borders_lineRest) ?_ ?_ ?_
  · intro x hx
    rw [eq_of_beq hx]
    rfl
  · exact fun x hx => failsAt_systemVariable (Option.some_inj.not.2 (ne_of_beq_false hx))
  · intro c x s r hx hc h
    rw [eq_of_beq hx] at hc
    have hrest := ((failsAt_stringLiteral (by decide) (by decide)).orElse_right_iff hc).1 h
    exact ((failsAt_commentLiteral (by decide)).orElse_left_iff hc).1 hrest

theorem keeps_commentLiteral :
    Agrees (Loose v) (Loose v) commentLiteral (SameLiteral v) := by
  refine keeps_literal (· == ':') (local_commentLiteral borders_lineRest) ?_ ?_ ?_
  · intro x hx
    rw [eq_of_beq hx]
    rfl
  · exact fun x hx => failsAt_commentLiteral (Option.some_inj.not.2 (ne_of_beq_false hx))
  · intro c x s r hx hc h
    rw [eq_of_beq hx] at hc
    have hrest := ((failsAt_stringLiteral (by decide) (by decide)).orElse_right_iff hc).1 h
    exact ((failsAt_systemVariable (by decide)).orElse_right_iff hc).1 hrest

/-- Characters that are no seams and no white space stand first on both sides or on neither. -/
theorem Spot.head?_iff (h : Spot v t t') (hx : isSpaceOrTab x = false)
    (hx' : isSeam x = false) : t.head? = some x ↔ t'.head? = some x := by
  cases h with
  | same => rfl
  | plain => rfl
  | @seam k g g' t t' hk hg hg' h =>
    have hkx : k ≠ x := fun h => by rw [h, hx'] at hk; cases hk
    cases g with
    | nil => simp [hkx]
    | cons y g =>
      have hyx : y ≠ x := fun h => by
        have hy := hg y mem_cons_self
        rw [h, hx] at hy
        cases hy
      simp [hkx, hyx]
  | literal => rfl

theorem keeps_closedComment :
    Agrees (Loose v) (Loose v) closedComment (SameComment v v) := by
  intro c d hcd
  have hcolon := Spot.head?_iff (x := ':') hcd (by decide) (by decide)
  by_cases hhead : c.rest.head? = some ':'
  · rw [closedComment_of_colon hhead, closedComment_of_colon (hcolon.1 hhead)]
    refine keeps_commentLiteral.map (fun a b hab => ⟨?_, ?_⟩) c d hcd
    · simpa using hab.literal_eq
    · have hnil := hab.alike.eq_nil_iff
      simpa using hnil
  · rw [closedComment_of_ne hhead, closedComment_of_ne (mt hcolon.2 hhead)]
    have hbracket : Local (fun s => s = [] ∨ Parting s) (char ']') :=
      .char delimits_partingOrNil (by decide)
    exact (keeps_of_local_loose (V := fun _ _ => True) hbracket fun _ => trivial).bind
      (fun _ _ _ => .pure ⟨rfl, Iff.rfl⟩) c d hcd

/-! ## All tokens -/

theorem symbol_cases (h : s ∈ symbols) : isApart isParting s.toList ∨
    (s = "=" ∨ s = ",") ∨ s = "<=" ∨ s = ">=" := by
  revert s
  decide

theorem isApart_isParting_of_mem_keywords {w : String} (h : w ∈ keywords) :
    isApart isParting w.toList := by
  revert w
  decide

/-- **Tokens are read alike at corresponding places**, as far as the view goes. -/
theorem lexis_spot (hplace : ∀ p q, v.position p = v.position q) :
    Lexis (Loose v) (Tight v) v v where
  loose_of_tight _ _ h := h.1
  position c d _ := hplace c.position d.position
  spaces := keeps_spaces_behind.of_imp fun _ _ h => h.dropWhile
  symbol s hs := by
    refine .symbol (R := Behind v) (fun c d hcd => ?_) keeps_spaces_behind
    rcases symbol_cases hs with hapart | (rfl | rfl) | rfl | rfl
    · exact hcd.1.matches hapart
    · exact hcd.matches (by decide)
    · exact hcd.matches (by decide)
    · exact hcd.1.matches_comparison (.inl rfl)
    · exact hcd.1.matches_comparison (.inr rfl)
  keyword _ hw := .keyword (R := Behind v)
    (fun _ _ hcd => hcd.1.matches (isApart_isParting_of_mem_keywords hw)) keeps_spaces_behind
    fun _ => trivial
  char x hx := by
    refine keeps_of_local_loose (.char delimits_partingOrNil ?_) fun _ => trivial
    simp only [mem_cons, not_mem_nil, or_false] at hx
    rcases hx with rfl | rfl | rfl <;> decide
  identifier := (keeps_of_local_loose (V := fun a b => v.name a = v.name b)
    (.identifier delimits_partingOrNil) fun _ => rfl).of_imp fun _ _ h => h.1
  number := (keeps_of_local_loose (V := fun a b => v.name a = v.name b)
    (local_number delimits_partingOrNil (by decide)) fun _ => rfl).of_imp fun _ _ h => h.1
  string := keeps_stringLiteral.mono (fun _ _ h => h.1) (fun _ _ h => h) fun _ _ hab =>
    hab.literal_eq
  system := keeps_systemVariable.mono (fun _ _ h => h.1) (fun _ _ h => h) fun _ _ hab =>
    hab.literal_eq
  comment := keeps_closedComment
  labelNumber := (keeps_of_local_loose (local_labelNumber delimits_partingOrNil)
    fun _ => rfl).of_imp fun _ _ h => h.1
  labelEnd := by
    have hchar {x : Char} (hx : isSpaceOrTab x = false) (hx' : isSeam x = false) :
        Agrees (Tight v) (fun _ _ => True) (char x) fun _ _ => True := by
      intro c d hcd
      have hiff := Spot.head?_iff hcd.1 hx hx'
      rw [char, char]
      by_cases hc : c.rest.head? = some x
      · rw [if_pos hc, if_pos (hiff.1 hc)]
        exact .done trivial trivial
      · rw [if_neg hc, if_neg (mt hiff.2 hc)]
        exact .failed
    exact (hchar (by decide) (by decide)).orElse (hchar (by decide) (by decide))

end RobotSource.Listing.Grammar
