import RobotSource.Proofs.Karel.Grammar.Form
import RobotSource.Proofs.Parsing.Line
/-!
# Tokens read back

Where a token stands in the text as it is spelled, and what follows cannot be part of it, the token is
read. Behind punctuation and operators the white space goes as well; `skip` is the text behind it.
-/

namespace RobotSource.Karel.Grammar

open Parsing Parsing.Parser Text
open List hiding takeWhile

variable {α : Type} {c d r : Cursor} {u t : List Char}
variable {x : Char} {q : Char → Bool} {s : String}

/-! ## White space -/

/-- The text behind the white space and comments that it begins with. -/
def skip (t : List Char) : List Char := t.drop (blankLength false t)

theorem reaches_blanks (c : Cursor) : Reaches blanks c () (skip c.rest) :=
  ⟨_, rfl, rfl⟩

@[simp] theorem skip_nil : skip [] = [] := rfl

theorem skip_cons_of_isSpacing (h : isSpacing x) : skip (x :: t) = skip t := by
  simp [skip, blankLength, h]

theorem skip_cons (h : isSpacing x = false) (hdash : x = '-' → t.head? ≠ some '-') :
    skip (x :: t) = x :: t := by
  rw [skip, blankLength]
  by_cases hx : x = '-'
  · simp [h, hdash hx]
  · simp [h, hx]

/-- Spaces and tabs that are taken first make no difference. -/
theorem skip_dropWhile (t : List Char) : skip (t.dropWhile isSpaceOrTab) = skip t := by
  induction t with
  | nil => rfl
  | cons x t ih =>
    by_cases hx : isSpaceOrTab x
    · rw [dropWhile_cons_of_pos hx, ih, skip_cons_of_isSpacing (isSpacing_of_isSpaceOrTab hx)]
    · rw [dropWhile_cons_of_neg hx]

theorem not_isSpacing_of_isOpening (h : isOpening x) : isSpacing x = false ∧ x ≠ '-' := by
  constructor
  · by_contra hspacing
    simp only [isSpacing, Bool.not_eq_false, Bool.or_eq_true, beq_iff_eq] at hspacing
    rcases hspacing with ((rfl | rfl) | rfl) | rfl <;> exact absurd h (by decide)
  · rintro rfl
    exact absurd h (by decide)

/-- Printed expressions begin with no white space and no comment. -/
theorem skip_of_opensSigned (h : OpensSigned u) : skip u = u := by
  rcases h with ⟨x, s, rfl, hx⟩ | ⟨x, s, rfl, hx, y, s', rfl, hy⟩
  · have hx := not_isSpacing_of_isOpening hx
    exact skip_cons hx.1 fun heq => absurd heq hx.2
  · refine skip_cons ?_ fun _ => ?_
    · rcases hx with rfl | rfl <;> rfl
    · simpa using (not_isSpacing_of_isOpening hy).2

/-! ## Tokens -/

theorem reaches_punct (hc : c.rest = x :: t) : Reaches (punct x) c () (skip t) := by
  obtain ⟨c₁, hchar, hrest⟩ := reaches_char hc
  refine ⟨c₁.drop _, bind_of_done hchar rfl, ?_⟩
  rw [← hrest]
  rfl

theorem reaches_op {sym : String} (hc : c.rest = sym.toList ++ t)
    (hsym : Ascii sym.toList := by decide) :
    Reaches (op sym) c () (skip t) := by
  obtain ⟨a, c₁, hsymbol, hrest⟩ := symbol_of_same hsym hc
  refine ⟨c₁.drop _, bind_of_done hsymbol rfl, ?_⟩
  rw [← skip_dropWhile, ← hrest]
  rfl

theorem reaches_kw {word : String} (hc : c.rest = word.toList ++ t)
    (hstop : t.head?.any isWord = false) (hword : Ascii word.toList := by decide) :
    Reaches (kw word) c () (skip t) := by
  obtain ⟨a, c₁, hkeyword, hrest⟩ :=
    keyword_of_same hword hword hc (by simp [sameCharsIgnoringCase]) hstop
  refine ⟨c₁.drop _, bind_of_done hkeyword rfl, ?_⟩
  rw [← skip_dropWhile, ← hrest]
  rfl

/-- What is read by a test as far as it goes is passed over. -/
theorem passes_of_takeWhile (hc : c.rest = u ++ t) (hu : ∀ x ∈ u, q x)
    (ht : t.head?.any q = false) : takeWhile q c = .done u (c.drop u.length) := by
  rw [takeWhile, hc, takeWhile_append_of_head? hu ht]

theorem rest_drop_length (hc : c.rest = u ++ t) : (c.drop u.length).rest = t := by
  rw [Cursor.rest_drop, hc, drop_left]

theorem passes_drop_length (hc : c.rest = u ++ t) : Passes u c (c.drop u.length) := by
  have hdrop := Passes.drop (c := c) u.length
  rwa [hc, take_left] at hdrop

theorem digits_of_digits (hc : c.rest = u ++ t) (hu : Digits u)
    (ht : t.head?.any Char.isDigit = false) : digits c = .done u (c.drop u.length) := by
  rw [digits, takeWhile1, hc, takeWhile_append_of_head? hu.2 ht]
  split
  · exact absurd rfl hu.1
  · rfl

theorem identifier_of_named (hc : c.rest = u ++ t) (hu : Named u)
    (ht : t.head?.any isNameChar = false) :
    identifier c = .done (String.ofList u) (c.drop u.length) := by
  obtain ⟨x, s, rfl, hx⟩ := hu.exists_cons
  rw [identifier_apply, hc, takeWhile_append_of_head? hu.chars ht]
  simp [hx]

theorem name_of_named (hc : c.rest = s.toList ++ t) (hs : Named s.toList)
    (hreserved : isReserved s = false) (ht : t.head?.any isNameChar = false) :
    name c = .done s (c.drop s.toList.length) := by
  rw [name, identifier_of_named hc hs ht, String.ofList_toList]
  simp [hreserved]

theorem systemName_of_named (hs : s.toList = '$' :: u) (hc : c.rest = s.toList ++ t) (hu : Named u)
    (ht : t.head?.any isNameChar = false) : Reaches systemName c s t := by
  rw [hs] at hc
  obtain ⟨c₁, hchar, hrest⟩ := reaches_char hc
  have hident := identifier_of_named hrest hu ht
  refine ⟨c₁.drop u.length, recognized_eq_done.2
    ⟨_, seqRight_eq_done.2 ⟨_, c₁, hchar, hident⟩, ?_⟩, rest_drop_length hrest⟩
  have hpasses := (passes_char hchar).trans (passes_drop_length hrest)
  rw [hpasses.upTo_eq, singleton_append, ← hs, String.ofList_toList]

/-! ## Numbers -/

/-- What may follow a number. -/
def EndsNumber (t : List Char) : Prop :=
  (t.head?.all fun x => !x.isDigit && x != '.' && x != 'e' && x != 'E') = true

theorem maybe_of_done {p : Parser α} {a : α} (h : p c = .done a r) :
    maybe p c = .done (some a) r := by
  rw [maybe, h]

theorem maybe_of_failed {p : Parser α} (h : ∃ e, p c = .failed e) : maybe p c = .done none c := by
  obtain ⟨e, he⟩ := h
  rw [maybe, he]

theorem exists_charThat (what : String) (q : Char → Bool) (hc : c.rest = x :: t)
    (hx : q x) : charThat what q c = .done x (c.drop 1) := by
  rw [charThat, hc]
  simp [hx]

theorem failsAt_charThat {what : String} {x : Option Char}
    (h : x.any q = false) : FailsAt x (charThat what q) := by
  intro c hc
  rw [charThat]
  split
  · rename_i y s hrest
    rw [hrest, head?_cons] at hc
    rw [← hc, Option.any_some] at h
    exact ⟨_, by rw [h]; rfl⟩
  · exact ⟨_, rfl⟩

/-- The first part of a number is read up to its exponent. -/
theorem exists_mantissa (hc : c.rest = u ++ t) (hu : Mantissa u)
    (ht : (t.head?.all fun x => !x.isDigit && x != '.') = true) :
    ∃ r, ((do let _ ← digits
              let _ ← maybe (char '.' *> takeWhile Char.isDigit)) <|>
      (do let _ ← char '.'
          let _ ← digits) : Parser Unit) c = .done () r ∧ Passes u c r := by
  have hdigit : t.head?.any Char.isDigit = false := by
    cases t with
    | nil => rfl
    | cons x t => simp_all
  have hpoint : t.head? ≠ some '.' := by
    intro heq
    simp [heq] at ht
  cases hu with
  | whole hd =>
    have hread := digits_of_digits hc hd hdigit
    have hnone : maybe (char '.' *> takeWhile Char.isDigit) (c.drop u.length) = .done none _ :=
      maybe_of_failed ((FailsAt.char hpoint).seqRight _ (by rw [rest_drop_length hc]))
    refine ⟨_, orElse_of_done (bind_of_done hread <| bind_of_done hnone rfl), ?_⟩
    exact passes_drop_length hc
  | @mixed d f hd hf =>
    rw [append_assoc, cons_append] at hc
    have hread := digits_of_digits hc hd (by simp)
    obtain ⟨c₁, hchar, hrest⟩ := reaches_char (rest_drop_length hc)
    have hfraction := passes_of_takeWhile hrest hf hdigit
    have hsome := maybe_of_done (seqRight_eq_done.2 ⟨_, c₁, hchar, hfraction⟩)
    refine ⟨_, orElse_of_done (bind_of_done hread <| bind_of_done hsome rfl), ?_⟩
    exact (passes_drop_length hc).trans ((passes_char hchar).trans (passes_drop_length hrest))
  | @fraction f hf =>
    obtain ⟨c₁, hchar, hrest⟩ := reaches_char hc
    have hread := digits_of_digits hrest hf hdigit
    have hfails : FailsAt c.rest.head? digits := .takeWhile1 (by rw [hc]; rfl)
    obtain ⟨e, he⟩ := (hfails.bind (f := fun _ =>
      maybe (char '.' *> takeWhile Char.isDigit) >>= fun _ => pure ())) c rfl
    refine ⟨_, orElse_of_failed he (bind_of_done hchar <| bind_of_done hread rfl),
      ?_⟩
    exact (passes_char hchar).trans (passes_drop_length hrest)

/-- So is the exponent. -/
theorem exists_exponent (hc : c.rest = u ++ t) (hu : Exponent u) (ht : EndsNumber t) :
    ∃ a r, (maybe do
      let _ ← charThat "exponent" fun c => c == 'e' || c == 'E'
      let _ ← maybe (charThat "sign" fun c => c == '+' || c == '-')
      digits) c = .done a r ∧ Passes u c r := by
  have hdigit : t.head?.any Char.isDigit = false := by
    cases t with
    | nil => rfl
    | cons x t => simp_all [EndsNumber]
  cases hu with
  | none =>
    refine ⟨none, c, maybe_of_failed ((failsAt_charThat ?_).bind c rfl), .refl c⟩
    rw [hc, nil_append]
    cases t with
    | nil => rfl
    | cons x t => simp_all [EndsNumber]
  | @unsigned x d hx hd =>
    have hletter := exists_charThat "exponent" (fun c => c == 'e' || c == 'E') hc
      (by simpa using hx)
    have hrest : (c.drop 1).rest = d ++ t := by rw [Cursor.rest_drop, hc]; rfl
    have hsign : maybe (charThat "sign" fun c => c == '+' || c == '-') (c.drop 1) =
        .done none (c.drop 1) := by
      refine maybe_of_failed (failsAt_charThat ?_ _ rfl)
      obtain ⟨y, s, rfl⟩ := exists_cons_of_ne_nil hd.1
      have hy := hd.2 y mem_cons_self
      rw [hrest, cons_append, head?_cons, Option.any_some, Bool.or_eq_false_iff]
      constructor <;> refine beq_eq_false_iff_ne.2 ?_ <;> rintro rfl <;> exact absurd hy (by decide)
    refine ⟨_, _, maybe_of_done (bind_of_done hletter <| bind_of_done hsign <|
      digits_of_digits hrest hd hdigit), ?_⟩
    exact (passes_drop_length (u := [x]) hc).trans (passes_drop_length hrest)
  | @signed x s d hx hs hd =>
    have hletter := exists_charThat "exponent" (fun c => c == 'e' || c == 'E') hc
      (by simpa using hx)
    have hrest : (c.drop 1).rest = s :: (d ++ t) := by rw [Cursor.rest_drop, hc]; rfl
    have hsign := exists_charThat "sign" (fun c => c == '+' || c == '-') hrest
      (by simpa using hs)
    have hrest' : ((c.drop 1).drop 1).rest = d ++ t := by rw [Cursor.rest_drop, hrest]; rfl
    refine ⟨_, _, maybe_of_done (bind_of_done hletter <| bind_of_done (maybe_of_done hsign) <|
      digits_of_digits hrest' hd hdigit), ?_⟩
    exact (passes_drop_length (u := [x]) hc).trans
      ((passes_drop_length (u := [s]) hrest).trans (passes_drop_length hrest'))

theorem number_of_numeral (hc : c.rest = s.toList ++ t) (hs : Numeral s.toList)
    (ht : EndsNumber t) : Reaches number c s t := by
  obtain ⟨m, x, hmx, hm, hx⟩ := hs
  rw [hmx, append_assoc] at hc
  have hstop : ((x ++ t).head?.all fun y => !y.isDigit && y != '.') = true := by
    cases hx with
    | none =>
      cases t with
      | nil => rfl
      | cons y t => simp_all [EndsNumber]
    | unsigned hx _ => rcases hx with rfl | rfl <;> rfl
    | signed hx _ _ => rcases hx with rfl | rfl <;> rfl
  obtain ⟨c₁, hmantissa, hpasses⟩ := exists_mantissa hc hm hstop
  have hrest : c₁.rest = x ++ t := append_cancel_left (hpasses.rest.symm.trans hc)
  obtain ⟨a, r, hexponent, hpasses'⟩ := exists_exponent hrest hx ht
  have hall := hpasses.trans hpasses'
  refine ⟨r, named_eq_done.2 (recognized_eq_done.2
    ⟨a, bind_of_done hmantissa hexponent, ?_⟩), ?_⟩
  · rw [hall.upTo_eq, ← hmx, String.ofList_toList]
  · exact append_cancel_left (hpasses'.rest.symm.trans hrest)

end RobotSource.Karel.Grammar
