import RobotSource.Proofs.Listing.Grammar.Lexed
/-!
# White space cut out at seams

Before the branches of a select are lined up, the white space around an equals sign and a comma is
cut out (`Cut`), whatever the two stand in. Inside a literal the cut is felt: `literal?_cut` says
that the literal is still read, over the text that corresponds to it, and that its content is the
same but for white space (`Alike`). A literal without a seam keeps its content altogether.
-/

namespace RobotSource.Listing.Grammar

open Parsing Parsing.Parser Text List

variable {q : Char → Bool} {x : Char} {s : String} {c d r : Cursor} {a : List Char}

/-! ## Texts alike but for white space -/

/-- White space that does not end the line. -/
def isGap (x : Char) : Bool := isBlank x && x != '\n'

theorem not_isBlank_of_isSeam (h : isSeam x) : isBlank x = false := by
  simp only [isSeam, Bool.or_eq_true, beq_iff_eq] at h
  rcases h with rfl | rfl <;> decide

theorem any_isSeam_bare (a : List Char) : (bare a).any isSeam = a.any isSeam := by
  rw [bare, any_filter]
  congr 1
  funext x
  cases h : isSeam x with
  | false => simp
  | true => simp [not_isBlank_of_isSeam h]

/-- The texts are the same but for white space, and altogether unless they hold a seam. -/
structure Alike (a b : List Char) : Prop where
  bare_eq : bare a = bare b
  eq_or_seam : a = b ∨ a.any isSeam = true

namespace Alike

variable {a a' b b' : List Char}

theorem refl (a : List Char) : Alike a a := ⟨rfl, .inl rfl⟩

theorem any_isSeam (h : Alike a b) : a.any isSeam = b.any isSeam := by
  rw [← any_isSeam_bare a, h.bare_eq, any_isSeam_bare]

theorem append (h : Alike a b) (h' : Alike a' b') : Alike (a ++ a') (b ++ b') := by
  refine ⟨by rw [bare_append, bare_append, h.bare_eq, h'.bare_eq], ?_⟩
  rcases h.eq_or_seam with rfl | hseam
  · rcases h'.eq_or_seam with rfl | hseam
    · exact .inl rfl
    · exact .inr (by rw [any_append, hseam, Bool.or_true])
  · exact .inr (by rw [any_append, hseam, Bool.true_or])

theorem trim (h : Alike a b) : Alike (trim a) (trim b) := by
  refine ⟨by rw [bare_trim, bare_trim, h.bare_eq], ?_⟩
  rcases h.eq_or_seam with rfl | hseam
  · exact .inl rfl
  · exact .inr (by rw [← any_isSeam_bare, bare_trim, any_isSeam_bare, hseam])

theorem eq_nil_iff (h : Alike a b) : a = [] ↔ b = [] := by
  rcases h.eq_or_seam with rfl | hseam
  · rfl
  · have hseam' := h.any_isSeam ▸ hseam
    constructor
    · rintro rfl
      cases hseam
    · rintro rfl
      cases hseam'

theorem literal_eq (h : Alike a b) : View.unspaced.literal (String.ofList a) =
    View.unspaced.literal (String.ofList b) := by
  simp only [View.unspaced, String.toList_ofList, h.any_isSeam, h.bare_eq]
  split
  · rfl
  · rename_i hseam
    rcases h.eq_or_seam with rfl | hseam'
    · rfl
    · exact absurd (h.any_isSeam ▸ hseam') hseam

end Alike

/-! ## Cuts -/

/-- The second text is the first without the white space around some of the seams of its first
line. -/
inductive Cut : List Char → List Char → Prop
  | refl (t : List Char) : Cut t t
  | cons {x : Char} {t t' : List Char} (hx : x ≠ '\n') (h : Cut t t') : Cut (x :: t) (x :: t')
  | seam {m : Char} {g g' t t' : List Char} (hm : isSeam m = true) (hg : ∀ x ∈ g, isGap x = true)
      (hg' : ∀ x ∈ g', isGap x = true) (h : Cut t t') : Cut (g ++ m :: (g' ++ t)) (m :: t')

namespace Cut

variable {t t' : List Char}

theorem append (ha : '\n' ∉ a) (h : Cut t t') : Cut (a ++ t) (a ++ t') := by
  induction a with
  | nil => exact h
  | cons x a ih =>
    rw [mem_cons, not_or] at ha
    exact .cons (Ne.symm ha.1) (ih ha.2)

/-- What stands in front of a seam. -/
theorem head_of_seam {p : Char → Bool} {m : Char} {g s : List Char} (hm : isSeam m)
    (hg : ∀ x ∈ g, isGap x) (hp : ∀ x, isGap x ∨ isSeam x → p x = false) :
    (g ++ m :: s).head?.any p = false := by
  cases g with
  | nil => simp [hp m (.inr hm)]
  | cons x g => simp [hp x (.inl (hg x mem_cons_self))]

/-- Characters that are cut out nowhere stand first on both sides or on neither. -/
theorem head?_any {p : Char → Bool} (h : Cut t t')
    (hp : ∀ x, isGap x ∨ isSeam x → p x = false) :
    t.head?.any p = t'.head?.any p := by
  cases h with
  | refl => rfl
  | cons => rfl
  | seam hm hg hg' h =>
    rw [head_of_seam hm hg hp, head?_cons, Option.any_some, hp _ (.inr hm)]

theorem head?_eq_some_iff (h : Cut t t') (hx : isGap x = false)
    (hx' : isSeam x = false) : t.head? = some x ↔ t'.head? = some x := by
  have hany := h.head?_any (p := (· == x)) fun y hy => by
    rw [beq_eq_false_iff_ne]
    rintro rfl
    rcases hy with hy | hy
    · rw [hx] at hy
      cases hy
    · rw [hx'] at hy
      cases hy
  have hmem (o : Option Char) : o = some x ↔ o.any (· == x) = true := by
    cases o <;> simp
  rw [hmem, hmem, hany]

/-- Nothing changes in a line without seams. -/
theorem eq_of_all (h : Cut t t') (ht : ∀ x ∈ t.takeWhile (· != '\n'), isSeam x = false) :
    t = t' := by
  induction h with
  | refl => rfl
  | cons hx h ih =>
    rw [takeWhile_cons_of_pos (by simpa using hx)] at ht
    rw [ih fun y hy => ht y (mem_cons_of_mem _ hy)]
  | @seam m g g' t t' hm hg hg' h ih =>
    have hline : ∀ x ∈ g ++ [m], (x != '\n') = true := by
      intro x hx
      rcases mem_append.1 hx with hx | hx
      · have hgap := hg x hx
        simp only [isGap, Bool.and_eq_true] at hgap
        exact hgap.2
      · rw [mem_singleton.1 hx]
        simp only [isSeam, Bool.or_eq_true, beq_iff_eq] at hm
        rcases hm with rfl | rfl <;> decide
    have hmem : m ∈ (g ++ m :: (g' ++ t)).takeWhile (· != '\n') := by
      rw [append_cons, takeWhile_append_of_pos hline]
      simp
    rw [ht m hmem] at hm
    cases hm

/-- A run that stops at seams and at white space stops at the same place on both sides. -/
theorem takeWhile_eq (h : Cut t t')
    (hq : ∀ x, isGap x ∨ isSeam x → q x = false) :
    t.takeWhile q = t'.takeWhile q ∧ Cut (t.dropWhile q) (t'.dropWhile q) := by
  induction h with
  | refl => exact ⟨rfl, .refl _⟩
  | @cons x t t' hx h ih =>
    by_cases hqx : q x
    · rw [takeWhile_cons_of_pos hqx, takeWhile_cons_of_pos hqx,
        dropWhile_cons_of_pos hqx, dropWhile_cons_of_pos hqx, ih.1]
      exact ⟨rfl, ih.2⟩
    · rw [takeWhile_cons_of_neg hqx, takeWhile_cons_of_neg hqx,
        dropWhile_cons_of_neg hqx, dropWhile_cons_of_neg hqx]
      exact ⟨rfl, .cons hx h⟩
  | @seam m g g' t t' hm hg hg' h _ =>
    have hstop : (g ++ m :: (g' ++ t)).takeWhile q = [] ∧
        (g ++ m :: (g' ++ t)).dropWhile q = g ++ m :: (g' ++ t) := by
      cases g with
      | nil => simp [hq m (.inr hm)]
      | cons x g => simp [hq x (.inl (hg x mem_cons_self))]
    rw [hstop.1, hstop.2, takeWhile_cons_of_neg (by simp [hq m (.inr hm)]),
      dropWhile_cons_of_neg (by simp [hq m (.inr hm)])]
    exact ⟨rfl, .seam hm hg hg' h⟩

/-- What is cut out leaves the texts alike. -/
theorem alike_seam {m : Char} {g g' a a' : List Char} (hm : isSeam m)
    (hg : ∀ x ∈ g, isGap x) (hg' : ∀ x ∈ g', isGap x) (h : Alike a a') :
    Alike (g ++ m :: (g' ++ a)) (m :: a') := by
  have hblank {g : List Char} (hg : ∀ x ∈ g, isGap x) : bare g = [] :=
    bare_eq_nil fun x hx => (Bool.and_eq_true_iff.1 (hg x hx)).1
  have hmark : bare [m] = [m] := by simp [bare, not_isBlank_of_isSeam hm]
  refine ⟨?_, .inr (by simp [hm])⟩
  rw [bare_append, hblank hg, ← singleton_append, bare_append, bare_append, hblank hg',
    h.bare_eq, ← singleton_append (l := a'), bare_append]
  rfl

/-- A run that crosses seams and white space takes texts that are alike. -/
theorem takeWhile_alike (h : Cut t t')
    (hq : ∀ x, isGap x ∨ isSeam x → q x) :
    Alike (t.takeWhile q) (t'.takeWhile q) ∧ Cut (t.dropWhile q) (t'.dropWhile q) := by
  induction h with
  | refl => exact ⟨.refl _, .refl _⟩
  | @cons x t t' hx h ih =>
    by_cases hqx : q x
    · rw [takeWhile_cons_of_pos hqx, takeWhile_cons_of_pos hqx,
        dropWhile_cons_of_pos hqx, dropWhile_cons_of_pos hqx]
      exact ⟨(Alike.refl [x]).append ih.1, ih.2⟩
    · rw [takeWhile_cons_of_neg hqx, takeWhile_cons_of_neg hqx,
        dropWhile_cons_of_neg hqx, dropWhile_cons_of_neg hqx]
      exact ⟨.refl _, .cons hx h⟩
  | @seam m g g' t t' hm hg hg' h ih =>
    have hqm := hq m (.inr hm)
    rw [takeWhile_append_of_pos fun x hx => hq x (.inl (hg x hx)),
      takeWhile_cons_of_pos hqm, takeWhile_append_of_pos fun x hx => hq x (.inl (hg' x hx)),
      dropWhile_append_of_pos fun x hx => hq x (.inl (hg x hx)),
      dropWhile_cons_of_pos hqm, dropWhile_append_of_pos fun x hx => hq x (.inl (hg' x hx)),
      takeWhile_cons_of_pos hqm, dropWhile_cons_of_pos hqm]
    exact ⟨alike_seam hm hg hg' ih.1, ih.2⟩

end Cut

/-! ## Literals -/

/-- A text up to a closing character, which is not cut out, is closed on the other side as well. -/
theorem Cut.closing {t t' b : List Char} (h : Cut t t')
    (hx : isGap x = false) (hq : ∀ y, isSeam y → q y)
    (ht : t.dropWhile q = x :: b) :
    ∃ b', t'.dropWhile q = x :: b' ∧ Alike (t.takeWhile q) (t'.takeWhile q) ∧ Cut b b' := by
  -- A run that gets to the character has taken all white space on the way.
  have hgap {g s : List Char} (hg : ∀ y ∈ g, isGap y) (hs : (g ++ s).dropWhile q = x :: b) :
      ∀ y ∈ g, q y := by
    induction g with
    | nil => simp
    | cons y g ih =>
      by_cases hqy : q y
      · rw [cons_append, dropWhile_cons_of_pos hqy] at hs
        rintro z (_ | ⟨_, hz⟩)
        · exact hqy
        · exact ih (fun w hw => hg w (mem_cons_of_mem _ hw)) hs z hz
      · rw [cons_append, dropWhile_cons_of_neg hqy] at hs
        cases hs
        rw [hg x mem_cons_self] at hx
        cases hx
  induction h with
  | refl => exact ⟨b, ht, .refl _, .refl _⟩
  | @cons y t t' hy h ih =>
    by_cases hqy : q y
    · rw [dropWhile_cons_of_pos hqy] at ht
      obtain ⟨b', hb', halike, hcut⟩ := ih ht
      rw [takeWhile_cons_of_pos hqy, takeWhile_cons_of_pos hqy,
        dropWhile_cons_of_pos hqy]
      exact ⟨b', hb', (Alike.refl [y]).append halike, hcut⟩
    · rw [dropWhile_cons_of_neg hqy] at ht
      cases ht
      rw [takeWhile_cons_of_neg hqy, takeWhile_cons_of_neg hqy,
        dropWhile_cons_of_neg hqy]
      exact ⟨t', rfl, .refl _, h⟩
  | @seam m g g' t t' hm hg hg' h ih =>
    have hqg := hgap hg ht
    rw [dropWhile_append_of_pos hqg, dropWhile_cons_of_pos (hq m hm)] at ht
    have hqg' := hgap hg' ht
    rw [dropWhile_append_of_pos hqg'] at ht
    obtain ⟨b', hb', halike, hcut⟩ := ih ht
    rw [takeWhile_append_of_pos hqg, takeWhile_cons_of_pos (hq m hm),
      takeWhile_append_of_pos hqg', takeWhile_cons_of_pos (hq m hm),
      dropWhile_cons_of_pos (hq m hm)]
    exact ⟨b', hb', Cut.alike_seam hm hg hg' halike, hcut⟩

theorem Cut.tail {t s : List Char} (hx : isGap x = false) (hx' : isSeam x = false)
    (h : Cut (x :: t) s) : ∃ t', s = x :: t' ∧ Cut t t' := by
  generalize hxt : x :: t = r at h
  cases h with
  | refl => exact ⟨t, hxt.symm, .refl t⟩
  | cons hy h =>
    cases hxt
    exact ⟨_, rfl, h⟩
  | @seam m g g' t t' hm hg hg' h =>
    cases g with
    | nil =>
      cases hxt
      rw [hm] at hx'
      cases hx'
    | cons y g =>
      cases hxt
      rw [hg x mem_cons_self] at hx
      cases hx

/-- What a text between two characters is read as. -/
theorem enclosed_cut {x y : Char} {f : List Char → String}
    (hx : isGap x = false ∧ isSeam x = false) (hy : isGap y = false)
    (hq : ∀ z, isSeam z → q z) (hcut : Cut c.rest d.rest)
    (h : (do let _ ← char x; let content ← takeWhile q; let _ ← char y; return f content :
      Parser String) c = .done s r) :
    ∃ a a' r', s = f a ∧ Alike a a' ∧ Cut r.rest r'.rest ∧
      (do let _ ← char x; let content ← takeWhile q; let _ ← char y; return f content :
        Parser String) d = .done (f a') r' := by
  obtain ⟨_, c₁, hopen, a, c₂, htake, _, c₃, hclose, h⟩ := bind₃_eq_done.1 h
  cases h
  cases htake
  obtain ⟨-, rfl, t, hc⟩ := char_eq_done.1 hopen
  obtain ⟨-, rfl, b, hb⟩ := char_eq_done.1 hclose
  obtain ⟨t', hd, ht⟩ := (hc ▸ hcut).tail hx.1 hx.2
  have hc₁ : (c.drop 1).rest = t := by rw [Cursor.rest_drop, hc]; rfl
  have hd₁ : (d.drop 1).rest = t' := by rw [Cursor.rest_drop, hd]; rfl
  rw [Cursor.rest_drop, hc₁, drop_length_takeWhile] at hb
  obtain ⟨b', hb', halike, hrest⟩ := ht.closing hy hq hb
  have hd₂ : ((d.drop 1).drop (t'.takeWhile q).length).rest = y :: b' := by
    rw [Cursor.rest_drop, hd₁, drop_length_takeWhile, hb']
  refine ⟨t.takeWhile q, t'.takeWhile q, ((d.drop 1).drop (t'.takeWhile q).length).drop 1,
    by rw [hc₁], halike, ?_,
    bind_of_done (char_eq_done.2 ⟨rfl, rfl, t', hd⟩) <| bind_eq_done.2 ⟨_, _, rfl, ?_⟩⟩
  · rw [Cursor.rest_drop, Cursor.rest_drop, hc₁, drop_length_takeWhile, hb, Cursor.rest_drop, hd₂]
    exact hrest
  · rw [hd₁]
    exact bind_of_done (char_eq_done.2 ⟨rfl, rfl, b', hd₂⟩) rfl

theorem stringLiteral_cut (hcut : Cut c.rest d.rest)
    (h : stringLiteral c = .done s r) :
    ∃ s' r', stringLiteral d = .done s' r' ∧ Alike s.toList s'.toList ∧ Cut r.rest r'.rest := by
  have hquoted {x : Char} (hx : isGap x = false ∧ isSeam x = false) (h : quoted x c = .done s r) :
      ∃ s' r', quoted x d = .done s' r' ∧ Alike s.toList s'.toList ∧ Cut r.rest r'.rest := by
    have hq (y : Char) (hy : isSeam y) : (!(y == x || y == '\n')) = true := by
      simp only [Bool.not_eq_true', Bool.or_eq_false_iff, beq_eq_false_iff_ne]
      constructor
      · rintro rfl
        rw [hy] at hx
        cases hx.2
      · rintro rfl
        cases hy
    obtain ⟨a, a', r', rfl, halike, hrest, hd⟩ := enclosed_cut hx hx.1 hq hcut h
    exact ⟨_, r', hd, by simpa using halike, hrest⟩
  rcases orElse_eq_done h with h | h
  · obtain ⟨s', r', hd, halike, hrest⟩ := hquoted (by decide) h
    exact ⟨s', r', orElse_of_done hd, halike, hrest⟩
  · obtain ⟨s', r', hd, halike, hrest⟩ := hquoted (by decide) h
    obtain ⟨e, he⟩ := exists_failed (x := '"') (fun _ => failsAt_quoted)
      (failsAt_quoted (y := '\'') (by decide)) hd
    exact ⟨s', r', orElse_of_failed he hd, halike, hrest⟩

theorem commentLiteral_cut (hcut : Cut c.rest d.rest)
    (h : commentLiteral c = .done s r) :
    ∃ s' r', commentLiteral d = .done s' r' ∧ Alike s.toList s'.toList ∧ Cut r.rest r'.rest := by
  have hq (y : Char) (hy : isSeam y) : (!(y == ']' || isBreak y)) = true := by
    simp only [isSeam, Bool.or_eq_true, beq_iff_eq] at hy
    rcases hy with rfl | rfl <;> decide
  obtain ⟨a, a', r', rfl, halike, hrest, hd⟩ := enclosed_cut (by decide) (by decide) hq hcut h
  exact ⟨_, r', hd, by simpa using halike.trim, hrest⟩

/-! ## System variables -/

/-- The parts of a system variable. -/
def systemPath : Parser (List Unit) := do
  let _ ← char '$'
  let _ ← maybe (do let _ ← char '['; let _ ← identifier; char ']')
  let _ ← identifier
  many systemStep

/-- Texts that are alike have been passed, and what is left is cut. -/
def Passed (t t' : List Char) (c d : Cursor) : Prop :=
  ∃ a a', t = a ++ c.rest ∧ t' = a' ++ d.rest ∧ Alike a a' ∧ Cut c.rest d.rest

section
variable {t t' : List Char} {c d : Cursor}

theorem Passed.drop {j k : Nat} (h : Passed t t' c d) (halike : Alike (c.rest.take j) (d.rest.take k))
    (hcut : Cut (c.rest.drop j) (d.rest.drop k)) : Passed t t' (c.drop j) (d.drop k) := by
  obtain ⟨a, a', rfl, rfl, hpassed, -⟩ := h
  refine ⟨a ++ c.rest.take j, a' ++ d.rest.take k, ?_, ?_, hpassed.append halike, hcut⟩
  · rw [Cursor.rest_drop, append_assoc, take_append_drop]
  · rw [Cursor.rest_drop, append_assoc, take_append_drop]

theorem Passed.cut (h : Passed t t' c d) : Cut c.rest d.rest := by
  obtain ⟨-, -, -, -, -, hcut⟩ := h
  exact hcut

theorem Passed.char (hx : isGap x = false ∧ isSeam x = false) :
    Agrees (Passed t t') (Passed t t') (char x) fun _ _ => True := by
  intro c d hcd
  have hhead := hcd.cut.head?_eq_some_iff hx.1 hx.2
  rw [Parsing.char, Parsing.char]
  by_cases hc : c.rest.head? = some x
  · have hd := hhead.1 hc
    rw [if_pos hc, if_pos hd]
    obtain ⟨s, hs⟩ := head?_eq_some_iff.1 hc
    obtain ⟨s', hs', hcut⟩ := (hs ▸ hcd.cut).tail hx.1 hx.2
    refine .done trivial (hcd.drop ?_ ?_) <;> rw [hs, hs']
    · exact .refl [x]
    · exact hcut
  · rw [if_neg hc, if_neg (mt hhead.2 hc)]
    exact .failed

/-- Runs that take alike on both sides. -/
theorem Passed.takeWhile
    (hq : ∀ x, isGap x ∨ isSeam x → q x) :
    Keeps (Passed t t') (Passed t t') (fun _ _ => True) (takeWhile q) (takeWhile q) := by
  intro c d hcd
  obtain ⟨halike, hcut⟩ := hcd.cut.takeWhile_alike hq
  refine .done trivial (hcd.drop ?_ ?_)
  · rwa [take_length_takeWhile, take_length_takeWhile]
  · rwa [drop_length_takeWhile, drop_length_takeWhile]

theorem not_isNameChar_of_cut (hx : isGap x ∨ isSeam x) :
    isNameChar x = false := by
  rcases hx with hx | hx
  · exact delimiter_isLineEnd.name x (by simp [isLineEnd, (Bool.and_eq_true_iff.1 hx).1])
  · simp only [isSeam, Bool.or_eq_true, beq_iff_eq] at hx
    rcases hx with rfl | rfl <;> decide

theorem Passed.identifier : Agrees (Passed t t') (Passed t t') identifier fun _ _ => True := by
  intro c d hcd
  have hstart (x : Char) (hx : isGap x ∨ isSeam x) : isNameStart x = false := by
    cases hname : isNameStart x with
    | false => rfl
    | true =>
      rw [← isNameChar_of_isNameStart hname]
      exact not_isNameChar_of_cut hx
  have hname := hcd.cut.head?_any hstart
  obtain ⟨htaken, hcut⟩ := hcd.cut.takeWhile_eq fun x => not_isNameChar_of_cut
  rw [identifier_apply, identifier_apply, hname]
  split
  · refine .done trivial (hcd.drop ?_ ?_)
    · rw [take_length_takeWhile, take_length_takeWhile, htaken]
      exact .refl _
    · rwa [drop_length_takeWhile, drop_length_takeWhile]
  · exact .failed

theorem Passed.systemStep : Agrees (Passed t t') (Passed t t') systemStep fun _ _ => True := by
  have hq (x : Char) (hx : isGap x ∨ isSeam x) : (!(x == ']' || x == '\n')) = true := by
    rcases hx with hx | hx
    · simp only [isGap, Bool.and_eq_true, bne_iff_ne] at hx
      have hne : x ≠ ']' := by
        rintro rfl
        exact absurd hx.1 (by decide)
      simp [hne, hx.2]
    · simp only [isSeam, Bool.or_eq_true, beq_iff_eq] at hx
      rcases hx with rfl | rfl <;> decide
  refine Keeps.orElse ?_ ?_
  · refine (Passed.char (by decide)).bind fun _ _ _ => ?_
    refine (Passed.char (by decide)).maybe.bind fun _ _ _ => ?_
    exact Passed.identifier.bind fun _ _ _ => .pure trivial
  · refine (Passed.char (by decide)).bind fun _ _ _ => (Passed.takeWhile hq).bind fun _ _ _ => ?_
    exact (Passed.char (by decide)).bind fun _ _ _ => .pure trivial

theorem upTo_of_append {r : Cursor} (h : c.rest = a ++ r.rest) :
    c.upTo r = a := by
  simp [Cursor.upTo, h]

theorem systemVariable_cut {r : Cursor} (hcut : Cut c.rest d.rest)
    (h : systemVariable c = .done s r) :
    ∃ s' r', systemVariable d = .done s' r' ∧ Alike s.toList s'.toList ∧ Cut r.rest r'.rest := by
  have hprogram : Agrees (Passed c.rest d.rest) (Passed c.rest d.rest)
      (do let _ ← char '['; let _ ← identifier; char ']') fun _ _ => True :=
    (Passed.char (by decide)).bind fun _ _ _ => Passed.identifier.bind fun _ _ _ =>
      Passed.char (by decide)
  have hwhole : Agrees (Passed c.rest d.rest) (Passed c.rest d.rest) systemPath
      (List.Forall₂ fun _ _ => True) := by
    refine (Passed.char (by decide)).bind fun _ _ _ => ?_
    refine hprogram.maybe.bind fun _ _ _ => ?_
    exact Passed.identifier.bind fun _ _ _ => Passed.systemStep.many
  have hrel := hwhole c d ⟨[], [], rfl, rfl, .refl [], hcut⟩
  change recognized systemPath c = .done s r at h
  change ∃ s' r', recognized systemPath d = .done s' r' ∧ _
  rw [recognized] at h ⊢
  cases hc : systemPath c <;> cases hd : systemPath d <;> rw [hc, hd] at hrel <;> cases hrel <;>
    rw [hc] at h <;> cases h
  rename_i hpassed
  obtain ⟨a, a', ha, ha', halike, hrest⟩ := hpassed
  refine ⟨_, _, rfl, ?_, hrest⟩
  rwa [upTo_of_append ha, upTo_of_append ha', String.toList_ofList, String.toList_ofList]

/-! ## Any literal -/

/-- **A literal is still read after cuts**, over the text that corresponds to it. Its content is the
same but for white space, and altogether unless it holds a seam. -/
theorem literal?_cut {r : List Char} (hcut : Cut t t')
    (h : literal? t = some (s, r)) :
    ∃ s' r', literal? t' = some (s', r') ∧ Alike s.toList s'.toList ∧ Cut r r' := by
  obtain ⟨r₀, hr₀, rfl⟩ := (literal?_eq_some_iff (c := ⟨t, .first⟩)).1 h
  have hread {s' : String} {r' : Cursor} (hd : literal ⟨t', .first⟩ = .done s' r') :
      literal? t' = some (s', r'.rest) :=
    (literal?_eq_some_iff (c := ⟨t', .first⟩)).2 ⟨r', hd, rfl⟩
  rcases orElse_eq_done hr₀ with hstring | hother
  · obtain ⟨s', r', hd, halike, hrest⟩ := stringLiteral_cut (d := ⟨t', .first⟩) hcut hstring
    exact ⟨s', _, hread (literal_of_stringLiteral hd), halike, hrest⟩
  rcases orElse_eq_done hother with hsystem | hcomment
  · obtain ⟨s', r', hd, halike, hrest⟩ := systemVariable_cut (d := ⟨t', .first⟩) hcut hsystem
    exact ⟨s', _, hread (literal_of_systemVariable hd), halike, hrest⟩
  · obtain ⟨s', r', hd, halike, hrest⟩ := commentLiteral_cut (d := ⟨t', .first⟩) hcut hcomment
    exact ⟨s', _, hread (literal_of_commentLiteral hd), halike, hrest⟩

end

end RobotSource.Listing.Grammar
