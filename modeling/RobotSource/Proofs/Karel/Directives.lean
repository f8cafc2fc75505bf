import RobotSource.Proofs.Karel.Quotes
import RobotSource.Proofs.Karel.Spans
/-!
# The directives of a Karel text

A directive is a piece of its own that makes up the rest of its line. The directives of a program
are just the directives among the pieces of its text, in order (`directiveStarts_of_parse`).

A directive is also the only piece that may leave a string open: at the end of a line in which none
begins, the scan for the end of the code is outside of strings (`quotedAfter_of_pieces`).
-/

namespace RobotSource.Karel

open Parsing Text
open List hiding takeWhile

variable {t u v w r s : List Char} {here : Position} {ls ms : List Piece}

/-! ## Where directives begin -/

/-- Where the directives begin among the pieces, the first of which stands at `here`. -/
def directiveStarts (here : Position) : List Piece → List Position
  | [] => []
  | l :: ls =>
    if l.kind = .directive then here :: directiveStarts (here.afterAll l.chars) ls
    else directiveStarts (here.afterAll l.chars) ls

theorem directiveStarts_append (ls ms : List Piece) : directiveStarts here (ls ++ ms) =
    directiveStarts here ls ++ directiveStarts (here.afterAll (flat ls)) ms := by
  induction ls generalizing here with
  | nil => rfl
  | cons l ls ih =>
    simp only [cons_append, directiveStarts, ih, flat_cons, Position.afterAll_append]
    split
    · rw [cons_append]
    · rfl

theorem directiveStarts_of_ordinary (h : Grammar.Ordinary ls) : directiveStarts here ls = [] := by
  induction ls generalizing here with
  | nil => rfl
  | cons l ls ih =>
    obtain ⟨hl, hls⟩ := forall_mem_cons.1 h
    have hkind : l.kind ≠ .directive := by
      intro hkind
      rw [Piece.isGap, hkind] at hl
      rcases hl with hl | hl <;> cases hl
    rw [directiveStarts, if_neg hkind, ih hls]

/-- A directive begins with a percent sign and makes up the rest of its line. -/
theorem exists_of_directive {l : Piece} (h : pieces t = l :: ms) (hl : l.kind = .directive) :
    ∃ s, t = '%' :: s ∧ l = ⟨.directive, '%' :: s.takeWhile fun y => !isBreak y⟩ ∧
      ms = pieces (s.dropWhile fun y => !isBreak y) := by
  cases t with
  | nil =>
    rw [pieces] at h
    cases h
  | cons x s =>
    have hkind : (firstPiece x s).1 = .directive := by
      rw [pieces, List.cons.injEq] at h
      rw [← hl, ← h.1]
    have hpercent : x = '%' := by
      rw [firstPiece] at hkind
      split at hkind
      · cases hkind
      split at hkind
      · cases hkind
      split at hkind
      · assumption
      split at hkind <;> cases hkind
    rw [hpercent, pieces_directive, List.cons.injEq] at h
    exact ⟨s, by rw [hpercent], h.1.symm, h.2.symm⟩

/-! ## Pieces and lines -/

theorem Quiet.isPlain (h : Quiet v u) : ∀ x ∈ u, isPlain x := by
  induction u with
  | nil => simp
  | cons x u ih => exact forall_mem_cons.2 ⟨h.1, ih h.2.2⟩

/-- No token holds a line feed, and none ends with a carriage return. -/
theorem Spelled.stays_in_line (h : Spelled w) : '\n' ∉ w ∧ w.getLast? ≠ some '\r' := by
  by_cases hquote : w.head? = some '\''
  · obtain ⟨content, hcontent, rfl⟩ := h.string_of_head? hquote
    refine ⟨fun hmem => ?_, by rw [getLast?_concat]; decide⟩
    simp only [cons_append, mem_cons, mem_append, not_mem_nil, or_false] at hmem
    rcases hmem with hmem | hmem | hmem
    · cases hmem
    · exact (hcontent _ hmem).2 rfl
    · cases hmem
  · have hplain := (quiet_of_spelled (v := []) h (by simp) hquote).isPlain
    refine ⟨fun hmem => ?_, fun hlast => ?_⟩
    · exact absurd (hplain _ hmem) (by decide)
    · exact absurd (hplain _ (mem_of_getLast? hlast)) (by decide)

/-- A token that begins before the end of a line ends there too. -/
theorem exists_of_spelled_append (h : Spelled w) (hs : LineOver s) (heq : u ++ s = w ++ r) :
    ∃ u', u = w ++ u' ∧ r = u' ++ s := by
  rcases append_eq_append_iff.1 heq with ⟨a, hw, hsr⟩ | ⟨a, hu, hr⟩
  swap
  · exact ⟨a, hu, hr⟩
  obtain ⟨hfeed, hreturn⟩ := h.stays_in_line
  cases a with
  | nil =>
    rw [append_nil] at hw
    exact ⟨[], by rw [hw, append_nil], hsr.symm⟩
  | cons y a =>
    exfalso
    rcases hs with hs | ⟨b, t, hb, hs⟩
    · rw [hs] at hsr
      cases hsr
    rcases hb with rfl | rfl
    · rw [hs] at hsr
      cases hsr
      exact hfeed (by simp [hw])
    · rw [hs] at hsr
      cases a with
      | nil =>
        cases hsr
        exact hreturn (by simp [hw])
      | cons z a =>
        cases hsr
        exact hfeed (by simp [hw])

/-- What makes up the rest of a line ends where the line does. -/
theorem takeWhile_append_lineOver (hs : LineOver s) (u : List Char) :
    ((u ++ s).takeWhile fun y => !isBreak y) = u.takeWhile fun y => !isBreak y := by
  cases s with
  | nil => rw [append_nil]
  | cons x s =>
    exact takeWhile_append_cons (by simp [encloses_lineOver.begins x s hs]) u s

theorem dropWhile_append_lineOver (hs : LineOver s) (u : List Char) :
    ((u ++ s).dropWhile fun y => !isBreak y) = (u.dropWhile fun y => !isBreak y) ++ s := by
  have hsplit :
      (u ++ s).takeWhile (fun y => !isBreak y) ++ (u ++ s).dropWhile (fun y => !isBreak y) =
      u.takeWhile (fun y => !isBreak y) ++ (u.dropWhile (fun y => !isBreak y) ++ s) := by
    rw [takeWhile_append_dropWhile, ← append_assoc, takeWhile_append_dropWhile]
  rw [takeWhile_append_lineOver hs] at hsplit
  exact append_cancel_left hsplit

/-- **Only a directive leaves a string open at the end of a line.** A comment is over for the scan
with the line feed only, so that it may go on for one carriage return. -/
theorem quotedAfter_of_pieces {comment : Bool} (hstray : ∀ l ∈ pieces t, l.kind ≠ .stray)
    (ht : t = u ++ s) (hpaired : returnsPaired u) (hs : LineOver s)
    (hcomment : comment → t.head?.all isBreak)
    (hline : ∀ q ∈ directiveStarts here (pieces t), q.line ≠ (here.afterAll u).line) :
    quotedAfter false comment u = false := by
  induction hls : pieces t generalizing t u comment here with
  | nil =>
    have hnil : u ++ s = [] := by rw [← ht, ← flat_pieces t, hls, flat_nil]
    rw [(append_eq_nil_iff.1 hnil).1, quotedAfter]
  | cons l ls ih =>
    rw [hls] at hstray hline
    obtain ⟨hl, hstray⟩ := forall_mem_cons.1 hstray
    cases u with
    | nil => rfl
    | cons x u =>
    -- once the first piece is seen to end before the end of the line, the others are left
    have hrest {comment' : Bool} {t' u' : List Char} (hms : ls = pieces t') (ht' : t' = u' ++ s)
        (hu : x :: u = l.chars ++ u') (hcomment' : comment' → t'.head?.all isBreak) :
        quotedAfter false comment' u' = false := by
      refine @ih t' u' (here.afterAll l.chars) comment' (by rwa [← hms]) ht' ?_ hcomment'
        (fun q hq => ?_) hms.symm
      · rw [hu] at hpaired
        exact returnsPaired_of_append hpaired
      · rw [← Position.afterAll_append, ← hu]
        refine hline q ?_
        rw [← hms] at hq
        rw [directiveStarts]
        split
        · exact mem_cons_of_mem _ hq
        · exact hq
    have hcons : t = x :: (u ++ s) := by rw [ht, cons_append]
    have hhead : t.head? = some x := by rw [hcons, head?_cons]
    have hplain (hx : isBreak x = false) : comment = false := by
      refine Bool.eq_false_iff.2 fun htrue => ?_
      have hbreak : isBreak x := by simpa [hhead] using hcomment htrue
      rw [hx] at hbreak
      cases hbreak
    rcases pieces_cases hls with ⟨y, s', ht', hy, rfl, hms⟩ | ⟨s', ht', hs', rfl, hms⟩ |
      ⟨n, hzero, htoken, rfl, hms⟩ | hkind | hkind
    · obtain ⟨rfl, rfl⟩ := List.cons.inj (ht'.symm.trans hcons)
      obtain ⟨comment', hcomment', hscan⟩ := exists_quotedAfter_blank hy hpaired
        (by simpa [hhead] using hcomment)
      rw [hscan]
      refine hrest hms rfl rfl fun htrue => ?_
      rw [head?_append, hcomment' htrue]
      rfl
    · obtain ⟨rfl, rfl⟩ := List.cons.inj (ht'.symm.trans hcons)
      rw [head?_append_eq_iff (head?_ne_dash_of_lineOver hs)] at hs'
      rw [dropWhile_append_lineOver hs] at hms
      rw [takeWhile_append_lineOver hs] at hrest
      rw [hplain rfl, quotedAfter_dashes hs']
      refine hrest hms rfl (by rw [cons_append, takeWhile_append_dropWhile]) fun _ => ?_
      rw [← dropWhile_append_lineOver hs]
      exact head?_dropWhile_all_isBreak _
    · have hspelled := spelled_of_tokenLength? htoken
      obtain ⟨u', hu, hr⟩ := exists_of_spelled_append hspelled hs
        (ht.symm.trans (take_append_drop n t).symm)
      have hbreak : isBreak x = false := by
        rw [hcons, blankLength_eq_zero] at hzero
        exact Bool.eq_false_iff.2 fun hbreak => by
          rw [isSpacing_of_isBreak hbreak] at hzero
          cases hzero.1
      rw [hplain hbreak, hu, quotedAfter_spelled hspelled (head?_ne_dash_of_token hzero hr)]
      exact hrest hms hr hu (by simp)
    · obtain ⟨s', ht', rfl, hms⟩ := exists_of_directive hls hkind
      obtain ⟨rfl, rfl⟩ := List.cons.inj (ht'.symm.trans hcons)
      -- the line of the directive is another one, so that a line feed follows
      have hfeed : '\n' ∈ u := by
        by_contra hnone
        refine hline here (by simp [directiveStarts]) ?_
        rw [Position.afterAll_of_notMem (by simpa using hnone)]
      rw [dropWhile_append_lineOver hs] at hms
      rw [takeWhile_append_lineOver hs] at hrest
      rw [quotedAfter_line_of_mem hfeed]
      exact hrest hms rfl (by rw [cons_append, takeWhile_append_dropWhile]) (by simp)
    · exact absurd hkind hl

/-! ## The directives of a program -/

namespace Grammar

open Parsing.Parser

variable {α : Type} {text : List Char} {ds : List Directive} {b c r : Cursor} {p : Parser α}

/-- The cursor is at a place, and the directives are those that have been passed. -/
structure Directed (text : List Char) (ds : List Directive) (c : Cursor) : Prop where
  place : Place text c
  starts : ∃ ls, Walk ls ⟨text, .first⟩ c ∧ directiveStarts .first ls = ds.map (·.span.start)

theorem Directed.walk (h : Directed text ds c) (hwalk : Walk ls c r) (hls : Ordinary ls)
    (hr : Settled r) : Directed text ds r := by
  obtain ⟨hplace, ks, hreached, hstarts⟩ := h
  refine ⟨hplace.walk hwalk (fun _ => hls.ne_stray) hr, ks ++ ls, hreached.trans hwalk, ?_⟩
  rw [directiveStarts_append, hstarts, directiveStarts_of_ordinary hls, append_nil]

/-- What is read from a place on holds no directives. -/
theorem Directed.extend {ns : List Node} (h : Directed text ds b) (hat : At text b ns c) :
    Directed text ds c := by
  obtain ⟨⟨-, ls, hwalk, -, hls, -⟩, hsettled⟩ := hat
  exact h.walk hwalk hls hsettled

theorem Starts.leavesDirected {ν : α → List Node} (h : Starts text p ν) :
    Leaves (fun _ : Unit => Directed text) p :=
  fun _ _ c a r hc hdone => hc.extend (h c a r hc.place hdone)

/-- A directive begins where it is found. -/
theorem gathers_directive : Gathers (fun _ : Unit => Directed text) directive fun d => [d] := by
  intro _ ds c d r hc hdone
  obtain ⟨line, ls, hwalk, hls, hsettled, hstart⟩ := exists_walk_of_directive hdone
  obtain ⟨hplace, ks, hreached, hstarts⟩ := hc
  refine ⟨hplace.walk hwalk ?_ hsettled, _, hreached.trans hwalk, ?_⟩
  · exact forall_mem_cons.2 ⟨by simp, fun _ => hls.ne_stray⟩
  · rw [directiveStarts_append, hstarts, directiveStarts, if_pos rfl,
      directiveStarts_of_ordinary hls, map_append, map_singleton, hstart,
      hreached.passes.position]

theorem gathers_prologue_directives : Gathers (fun _ : Unit => Directed text)
    (many ((PrologueItem.directive <$> directive) <|> (.declaration <$> declaration)))
    fun items => items.flatMap fun i => i.directive?.toList := by
  refine Gathers.many (.orElse (.map ?_) (.map ?_))
  · exact gathers_directive
  · exact .of_leaves starts_declaration.leavesDirected fun _ => rfl

theorem directed_blanks {a : Unit} (hpaired : returnsPaired text)
    (h : blanks ⟨text, .first⟩ = .done a c) : Directed text [] c := by
  have hplace := place_blanks hpaired h
  cases h
  obtain ⟨ls, hwalk, hls, -⟩ := walk_blanks ⟨text, .first⟩
  exact ⟨hplace, ls, hwalk, directiveStarts_of_ordinary hls⟩

/-- **The directives of a program are those of its text**, in order. -/
theorem directed_of_program {p : Program} (hpaired : returnsPaired text)
    (h : program ⟨text, .first⟩ = .done p r) : Directed text p.directives r ∧ r.rest = [] := by
  obtain ⟨_, _, htop, h⟩ := bind_eq_done.1 h
  cases htop
  obtain ⟨_, c₁, hblanks, h⟩ := bind_eq_done.1 h
  have htop := directed_blanks hpaired hblanks
  obtain ⟨_, _, hcursor, h⟩ := bind_eq_done.1 h
  cases hcursor
  -- the heading holds no directive; from there on declarations and directives alternate
  obtain ⟨_, c₂, hword, h⟩ := bind_eq_done.1 h
  have hat : At text c₁ [] c₂ := starts_kw c₁ _ c₂ htop.place hword
  obtain ⟨name, c₃, hname, h⟩ := bind_eq_done.1 h
  have hbehind := lexesOne_name.lexes.behind c₂ name c₃ hat.toBehind hname
  obtain ⟨_, c₄, hspaces, h⟩ := bind_eq_done.1 h
  obtain ⟨ls, hwalk, hls⟩ := walk_spaces hspaces
  obtain ⟨_, _, hcursor, h⟩ := bind_eq_done.1 h
  cases hcursor
  obtain ⟨_, c₅, hblanks, h⟩ := bind_eq_done.1 h
  have hat := yields_blanks c₄ _ c₅ (hbehind.extend hwalk hls) hblanks
  refine (show Yields (Directed text []) _ fun p r =>
      Directed text p.directives r ∧ r.rest = [] from
    (gathers_prologue_directives () []).bind fun prologue =>
    ((starts_kw).leavesDirected () _).bind fun _ =>
    (starts_statement.leavesDirected.many () _).bind fun main =>
    ((starts_kw).leavesDirected () _).bind fun _ =>
    (starts_ident.leavesDirected () _).bind fun _ =>
    (starts_declaration.leavesDirected.many () _).bind fun trailing =>
    (Yields.position (B := fun _ => Directed text _) fun _ hc => hc).bind fun stop =>
    yields_endOfText.bind fun _ => .pure fun _ hc => ?_) c₅ p r (htop.extend hat) h
  simpa [filterMap_eq_flatMap_toList] using hc

end Grammar

/-- The directives of a program begin where its text has directives. -/
theorem directiveStarts_of_parse {text : String} {p : Program}
    (hpaired : returnsPaired text.toList) (h : Program.parse text = .ok p) :
    directiveStarts .first (pieces text.toList) = p.directives.map (·.span.start) ∧
      ∀ l ∈ pieces text.toList, l.kind ≠ .stray := by
  obtain ⟨r, hdone⟩ := Parser.run_eq_ok.1 h
  obtain ⟨⟨hplace, ls, hwalk, hstarts⟩, hrest⟩ := Grammar.directed_of_program hpaired hdone
  obtain ⟨ks, hwalk', hstray⟩ := hplace.reached
  obtain rfl := hwalk.unique hwalk'
  have hpieces : pieces text.toList = ls := by
    rw [hwalk.pieces, hrest, pieces, append_nil]
  rw [hpieces]
  exact ⟨hstarts, hstray⟩

end RobotSource.Karel
