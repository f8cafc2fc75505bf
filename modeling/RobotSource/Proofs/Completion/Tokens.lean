import Mathlib.Data.List.TakeWhile
import RobotSource.Completion.Token
/-!
# What the tokens of a line keep

A line is a row of stretches: quotes, and characters outside of quotes (`stretches`). Its tokens are
the runs of stretches between white space (`tokenize_eq`). So they lose nothing else, and a line
with single spaces between them has the same tokens (`tokenize_exact`).
-/

namespace RobotSource.Completion

open Text List

/-! ## Stretches -/

/-- A character outside of quotes, or a quote: its mark, what it holds, and whether the mark follows
again. -/
inductive Stretch where
  | plain (c : Char)
  | quote (mark : Char) (inner : List Char) (closed : Bool)

namespace Stretch

@[simp] def text : Stretch → List Char
  | plain c => [c]
  | quote mark inner closed => mark :: inner ++ if closed then [mark] else []

/-- White space outside of quotes. -/
@[simp] def isGap : Stretch → Bool
  | plain c => isBlank c
  | quote .. => false

@[simp] def isClosed : Stretch → Bool
  | plain _ => true
  | quote _ _ closed => closed

/-- No quote begins at a plain character, and none goes on behind its mark. -/
@[simp] def Proper : Stretch → Prop
  | plain c => isQuote c = false
  | quote mark inner _ => isQuote mark = true ∧ mark ∉ inner

end Stretch

/-- The stretches of a line. A quote runs to the next character like that which opens it, or to the
end of the line. -/
def stretches : List Char → List Stretch
  | [] => []
  | c :: cs =>
    if isQuote c then
      if c ∈ cs then .quote c (cs.takeWhile (· != c)) true :: stretches (cs.dropWhile (· != c)).tail
      else [.quote c cs false]
    else .plain c :: stretches cs
termination_by line => line.length
decreasing_by
  · have hle := (dropWhile_sublist (l := cs) (· != c)).length_le
    simp only [length_tail, length_cons]
    omega
  · simp

/-- Every stretch is proper, and nothing stands behind an open quote. -/
def Sound (ss : List Stretch) : Prop :=
  (∀ s ∈ ss, s.Proper) ∧ ss.Pairwise fun s _ => s.isClosed = true

variable {ss ts : List Stretch} {s : Stretch} {t u : List Char} {c : Char}

theorem Sound.sublist (h : Sound ss) (hts : ts.Sublist ss) : Sound ts :=
  ⟨fun s hs => h.1 s (hts.subset hs), h.2.sublist hts⟩

theorem Sound.cons (h : Sound ss) (hs : s.Proper) (hclosed : s.isClosed) :
    Sound (s :: ss) :=
  ⟨forall_mem_cons.2 ⟨hs, h.1⟩, pairwise_cons.2 ⟨fun _ _ => hclosed, h.2⟩⟩

theorem Sound.eq_nil (h : Sound (.quote c u false :: ss)) : ss = [] :=
  eq_nil_iff_forall_not_mem.2 fun t ht => by simpa using (pairwise_cons.1 h.2).1 t ht

theorem takeWhile_append_mark (hu : c ∉ u) : (u ++ c :: t).takeWhile (· != c) = u := by
  have hall : ∀ x ∈ u, (x != c) = true := fun x hx => bne_iff_ne.2 fun heq => hu (heq ▸ hx)
  simp [takeWhile_append_of_pos hall]

theorem dropWhile_append_mark (hu : c ∉ u) : (u ++ c :: t).dropWhile (· != c) = c :: t := by
  have hall : ∀ x ∈ u, (x != c) = true := fun x hx => bne_iff_ne.2 fun heq => hu (heq ▸ hx)
  simp [dropWhile_append_of_pos hall]

theorem sound_stretches (line : List Char) : Sound (stretches line) := by
  fun_induction stretches line with
  | case1 => simp [Sound]
  | case2 c cs hc hmem ih =>
    exact ih.cons ⟨hc, fun hmem => by simpa using mem_takeWhile_imp hmem⟩ rfl
  | case3 c cs hc hmem => simp [Sound, hc, hmem]
  | case4 c cs hc ih => exact ih.cons (by simpa using hc) rfl

/-- The stretches make up the line. -/
theorem flatMap_text_stretches (line : List Char) :
    (stretches line).flatMap Stretch.text = line := by
  fun_induction stretches line with
  | case1 => rfl
  | case2 c cs hc hmem ih =>
    obtain ⟨u, t, rfl, hu⟩ := eq_append_cons_of_mem hmem
    rw [dropWhile_append_mark hu] at ih
    rw [flatMap_cons, takeWhile_append_mark hu, dropWhile_append_mark hu, ih]
    simp
  | case3 c cs hc hmem => simp
  | case4 c cs hc ih => simp [ih]

/-- Sound stretches are found again in their text. -/
theorem Sound.stretches_flatMap (h : Sound ss) : stretches (ss.flatMap Stretch.text) = ss := by
  induction ss with
  | nil => simp [stretches]
  | cons s ss ih =>
    have hproper := h.1 s mem_cons_self
    have ih := ih (h.sublist (sublist_cons_self s ss))
    match s with
    | .plain c => simp_all [stretches]
    | .quote c inner true =>
      simp [stretches, hproper.1, takeWhile_append_mark hproper.2, dropWhile_append_mark hproper.2,
        ih]
    | .quote c inner false =>
      obtain rfl := h.eq_nil
      simp [stretches, hproper.1, hproper.2]

/-! ## Pieces -/

section
variable {p : List Char} {ps : List (List Char)}

/-- Within a quote everything belongs to the piece. -/
theorem pieces_quoted (hu : c ∉ u) (ht : pieces (some c) t = p :: ps) :
    pieces (some c) (u ++ t) = (u ++ p) :: ps := by
  induction u with
  | nil => exact ht
  | cons x u ih =>
    rw [mem_cons, not_or] at hu
    rw [cons_append, pieces, if_neg (Ne.symm hu.1), ih hu.2]
    rfl

theorem not_isBlank_of_isQuote (h : isQuote c) : isBlank c = false := by
  simp only [isQuote, Bool.or_eq_true, beq_iff_eq] at h
  rcases h with rfl | rfl <;> rfl

/-- White space outside of quotes ends a piece, and any other stretch belongs to it. -/
theorem pieces_text_append (h : s.Proper) (hs : s.isClosed) (ht : pieces none t = p :: ps) :
    pieces none (s.text ++ t) = if s.isGap then [] :: p :: ps else (s.text ++ p) :: ps := by
  match s with
  | .plain c => cases hc : isBlank c <;> simp_all [pieces, extendFirst]
  | .quote c inner true =>
    have hquoted : pieces (some c) (inner ++ c :: t) = (inner ++ c :: p) :: ps :=
      pieces_quoted h.2 (by simp [pieces, ht, extendFirst])
    simp [pieces, not_isBlank_of_isQuote h.1, h.1, hquoted, extendFirst]

end

/-- The pieces are the runs of stretches between white space. -/
theorem Sound.pieces_flatMap (h : Sound ss) : pieces none (ss.flatMap Stretch.text) =
    (ss.splitOnP Stretch.isGap).map (·.flatMap Stretch.text) := by
  induction ss with
  | nil => rfl
  | cons s ss ih =>
    obtain ⟨g, gs, hgs⟩ := exists_cons_of_ne_nil (splitOnP_ne_nil Stretch.isGap ss)
    have hs := h.1 s mem_cons_self
    have ih := ih (h.sublist (sublist_cons_self s ss))
    rw [hgs, map_cons] at ih
    cases hclosed : s.isClosed with
    | true =>
      rw [flatMap_cons, pieces_text_append hs hclosed ih, splitOnP_cons_eq_if_modifyHead,
        hgs]
      split <;> rfl
    | false =>
      match s with
      | .quote c inner false =>
        obtain rfl := h.eq_nil
        have hquoted : pieces (some c) (inner ++ []) = [inner ++ []] := pieces_quoted hs.2 rfl
        rw [append_nil] at hquoted
        rw [splitOnP_eq_singleton (by simp)]
        simp [pieces, not_isBlank_of_isQuote hs.1, hs.1, hquoted, extendFirst]

/-! ## Tokens -/

/-- The stretches of the tokens. -/
def runs (line : List Char) : List (List Stretch) :=
  ((stretches line).splitOnP Stretch.isGap).filter (!·.isEmpty)

theorem tokenize_eq (line : List Char) :
    tokenize line = (runs line).map (·.flatMap Stretch.text) := by
  have hempty : (fun g : List Stretch => !(g.flatMap Stretch.text).isEmpty) = (!·.isEmpty) := by
    funext g
    rcases g with _ | ⟨_ | _, g⟩ <;> simp
  have hpieces := (sound_stretches line).pieces_flatMap
  rw [flatMap_text_stretches] at hpieces
  rw [tokenize, hpieces, filter_map, runs, ← hempty]
  rfl

theorem flatten_splitOnP {α : Type} (p : α → Bool) (l : List α) :
    (l.splitOnP p).flatten = l.filter (!p ·) := by
  induction l with
  | nil => rfl
  | cons a l ih =>
    obtain ⟨g, gs, hgs⟩ := exists_cons_of_ne_nil (splitOnP_ne_nil p l)
    rw [splitOnP_cons_eq_if_modifyHead, hgs]
    rw [hgs] at ih
    cases hp : p a <;> simp_all

theorem flatten_runs (line : List Char) :
    (runs line).flatten = (stretches line).filter (!·.isGap) := by
  rw [runs, flatten_filter_not_isEmpty, flatten_splitOnP]

/-- Runs are not empty and hold no white space outside of quotes, and none behind an open quote. -/
structure Apart (gs : List (List Stretch)) : Prop where
  ne_nil : ∀ g ∈ gs, g ≠ []
  solid : ∀ s ∈ gs.flatten, s.isGap = false
  sound : Sound gs.flatten

theorem apart_runs (line : List Char) : Apart (runs line) where
  ne_nil g hg := by simpa using (mem_filter.1 hg).2
  solid s hs := by
    rw [flatten_runs, mem_filter, Bool.not_eq_true'] at hs
    exact hs.2
  sound := flatten_runs line ▸ (sound_stretches line).sublist filter_sublist

theorem Apart.sound_of_mem {gs : List (List Stretch)} {g : List Stretch} (h : Apart gs)
    (hg : g ∈ gs) : Sound g :=
  h.sound.sublist (sublist_flatten_of_mem hg)

/-- All quotes of a run are closed if another run follows. -/
theorem Apart.closed {gs gs' : List (List Stretch)} (h : Apart (gs ++ gs')) (hgs' : gs' ≠ [])
    (hs : s ∈ gs.flatten) : s.isClosed := by
  obtain ⟨g', gs', rfl⟩ := exists_cons_of_ne_nil hgs'
  obtain ⟨t, ht⟩ := exists_mem_of_ne_nil g' (h.ne_nil g' (by simp))
  have hpairs := h.sound.2
  rw [flatten_append, pairwise_append] at hpairs
  exact hpairs.2.2 s hs t (by simp [ht])

/-- A run with all its quotes closed is cut off by a space. -/
theorem pieces_run_space (hs : ∀ s ∈ ss, s.Proper ∧ s.isClosed ∧ s.isGap = false) :
    pieces none (ss.flatMap Stretch.text ++ ' ' :: t) = ss.flatMap Stretch.text :: pieces none t := by
  induction ss with
  | nil => rfl
  | cons s ss ih =>
    obtain ⟨⟨hproper, hclosed, hgap⟩, hss⟩ := forall_mem_cons.1 hs
    rw [flatMap_cons, append_assoc, pieces_text_append hproper hclosed (ih hss),
      hgap]
    rfl

theorem Apart.tokenize_intercalate {gs : List (List Stretch)} (h : Apart gs) :
    tokenize ([' '].intercalate (gs.map (·.flatMap Stretch.text))) =
      gs.map (·.flatMap Stretch.text) := by
  induction gs with
  | nil => rfl
  | cons g gs ih =>
    have hgap : ∀ s ∈ g, s.isGap = false := fun s hs => h.solid s (by simp [hs])
    have hg : (g.flatMap Stretch.text).isEmpty = false := by
      obtain ⟨s, g, rfl⟩ := exists_cons_of_ne_nil (h.ne_nil g mem_cons_self)
      cases s <;> simp
    cases gs with
    | nil =>
      have hpieces := (h.sound_of_mem mem_cons_self).pieces_flatMap
      rw [splitOnP_eq_singleton hgap] at hpieces
      simp [tokenize, hpieces, hg]
    | cons g' gs =>
      have hsplit : Apart ([g] ++ g' :: gs) := h
      have hrun (s : Stretch) (hs : s ∈ g) : s.Proper ∧ s.isClosed ∧ s.isGap = false :=
        ⟨h.sound.1 s (by simp [hs]), hsplit.closed (by simp) (by simpa), hgap s hs⟩
      have htail : Apart (g' :: gs) :=
        ⟨fun g hg => h.ne_nil g (.tail _ hg), fun s hs => h.solid s (by simp_all),
          h.sound.sublist (sublist_append_right _ _)⟩
      rw [map_cons, map_cons, intercalate_cons_cons, append_assoc,
        singleton_append, tokenize, pieces_run_space hrun,
        filter_cons_of_pos (by simp [hg])]
      exact congrArg _ (ih htail)

/-- **Tokens are the line without the white space outside of its quotes.** No token is empty or
holds such white space, all quotes are closed but in the last one, and with spaces between them they
are cut the same way. -/
theorem tokenize_exact (line : List Char) :
    (∀ token ∈ tokenize line, token ≠ [] ∧ ∀ s ∈ stretches token, s.isGap = false) ∧
    (tokenize line).flatten = ((stretches line).filter (!·.isGap)).flatMap Stretch.text ∧
    (∀ token ∈ (tokenize line).dropLast, ∀ s ∈ stretches token, s.isClosed = true) ∧
    tokenize ([' '].intercalate (tokenize line)) = tokenize line := by
  have hruns := apart_runs line
  have hstretches {g : List Stretch} (hg : g ∈ runs line) :
      stretches (g.flatMap Stretch.text) = g :=
    (hruns.sound_of_mem hg).stretches_flatMap
  refine ⟨fun token htoken => ⟨by simpa using (mem_filter.1 htoken).2, ?_⟩, ?_⟩
  · rw [tokenize_eq] at htoken
    obtain ⟨g, hg, rfl⟩ := mem_map.1 htoken
    rw [hstretches hg]
    exact fun s hs => hruns.solid s (mem_flatten_of_mem hg hs)
  rw [tokenize_eq, hruns.tokenize_intercalate, ← map_dropLast, ← flatten_runs]
  refine ⟨by induction runs line <;> simp_all, fun token htoken => ?_, rfl⟩
  obtain ⟨g, hg, rfl⟩ := mem_map.1 htoken
  have hne : runs line ≠ [] := fun hnil => by simp [hnil] at hg
  have hsplit := dropLast_concat_getLast hne
  rw [hstretches (dropLast_subset _ hg)]
  exact fun s hs => Apart.closed (hsplit.symm ▸ hruns) (by simp) (mem_flatten_of_mem hg hs)

end RobotSource.Completion
