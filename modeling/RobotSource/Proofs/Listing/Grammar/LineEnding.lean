import RobotSource.Proofs.Listing.Grammar.Instruction
import RobotSource.Proofs.Parsing.Enclosed
/-!
# Code in front of different line ends

Behind the code of a body line come white space, a semicolon, white space again and the line break.
No token reaches into this end, so that code is read alike whatever the end looks like in detail
(`wording_inLine`). The texts of comments do reach into it, but what they take there is trimmed away.
-/

namespace RobotSource.Listing.Grammar

open Parsing Parsing.Parser Text List

/-! ## Numbers -/

section
variable {stop : Char → Bool} {P : List Char → Prop}
variable {q : Char → Bool} {x : Char}

theorem local_number (hstop : Delimits stop P) (hpoint : stop '.' = false) :
    Local P number := by
  have hpoint : Local P (char '.') := .char hstop hpoint
  have hdigits : Local P (takeWhile Char.isDigit) := .takeWhile hstop fun _ => hstop.digit
  have hfraction : Local P (char '.' *> takeWhile Char.isDigit) :=
    (hpoint.bind fun _ => hdigits)
  refine Local.recognized (.orElse ?_ ?_)
  · exact (Local.digits hstop).bind fun _ => hfraction.maybe.bind fun _ => .pure ()
  · exact (hpoint.bind fun _ => (Local.digits hstop).bind fun _ => .pure ())

theorem local_labelNumber (hstop : Delimits stop P) : Local P labelNumber :=
  fun u c d hcommon => rel_labelNumber (Local.digits hstop u c d hcommon)

end

/-! ## Line ends -/

theorem isBlank_of_isSpaceOrTab (h : isSpaceOrTab x) : isBlank x := by
  simp only [isSpaceOrTab, Bool.or_eq_true, beq_iff_eq] at h
  rcases h with rfl | rfl <;> decide

/-- The characters of a line end. -/
def isLineEnd (x : Char) : Bool := isBlank x || x == ';'

theorem delimiter_isLineEnd : Delimiter isLineEnd := by
  have hend {p : Char → Prop} (hblank : ∀ n ∈ blankCodes, p (Char.ofNat n)) (hsemi : p ';') (x : Char)
      (hx : isLineEnd x) : p x := by
    rcases Bool.or_eq_true_iff.1 hx with hx | hx
    · exact of_isBlank hblank hx
    · rwa [eq_of_beq hx]
  exact ⟨hend (by decide) (by decide), hend (by decide +kernel) (by decide),
    hend (by decide) (by decide)⟩

/-- The end of a body line: white space, the semicolon, white space, and the break or the end of the
text. -/
def LineEnding (e : List Char) : Prop :=
  ∃ gap post behind, e = gap ++ ';' :: (post ++ behind) ∧ (∀ x ∈ gap, isBlank x = true ∧ x ≠ '\n') ∧
    (∀ x ∈ post, isBlank x = true ∧ x ≠ '\n') ∧ ∀ x, behind.head? = some x → x = '\n'

/-- What may follow code: a line end, or nothing at all. -/
def LineRest (s : List Char) : Prop := s = [] ∨ LineEnding s

theorem LineEnding.isLineEnd_head {s : List Char} (h : LineEnding (x :: s)) :
    isLineEnd x := by
  obtain ⟨gap, post, behind, he, hgap, -, -⟩ := h
  cases gap with
  | nil =>
    cases he
    rfl
  | cons y gap =>
    cases he
    simp [isLineEnd, (hgap x mem_cons_self).1]

theorem not_lineEnding_nil : ¬ LineEnding [] := by
  rintro ⟨gap, post, behind, he, -⟩
  simp at he

theorem delimits_lineEnding : Delimits isLineEnd LineEnding where
  toDelimiter := delimiter_isLineEnd
  begins _ _ h := h.isLineEnd_head

theorem delimits_lineRest : Delimits isLineEnd LineRest where
  toDelimiter := delimiter_isLineEnd
  begins x s h := by
    rcases h with h | h
    · cases h
    · exact h.isLineEnd_head

/-- Whatever is read over of a line end, what follows is still a character of it. -/
theorem LineEnding.head?_dropWhile {e : List Char}
    (h : LineEnding e) (hq : q '\n' = false) (hx : (e.dropWhile q).head? = some x) :
    isLineEnd x := by
  obtain ⟨gap, post, behind, rfl, hgap, hpost, hbehind⟩ := h
  have hline : ∀ y ∈ gap ++ ';' :: post, isLineEnd y := by
    intro y hy
    simp only [mem_append, mem_cons] at hy
    rcases hy with hy | rfl | hy
    · simp [isLineEnd, (hgap y hy).1]
    · rfl
    · simp [isLineEnd, (hpost y hy).1]
  rw [← cons_append, ← append_assoc, dropWhile_append] at hx
  split at hx
  · cases behind with
    | nil => cases hx
    | cons y behind =>
      obtain rfl := hbehind y rfl
      rw [dropWhile_cons_of_neg (by simp [hq]), head?_cons, Option.some.injEq] at hx
      rw [← hx]
      decide
  · rename_i hne
    rw [head?_append_of_ne_nil _ (by simpa using hne)] at hx
    exact hline x ((dropWhile_suffix q).subset (mem_of_mem_head? hx))

/-! ## Literals -/

/-- The marks of literals, brackets and comments. -/
def marks : List Char := ['\'', '"', '.', '$', '[', ']', ')', ':']

/-- The words of the grammar. -/
def words : List String := symbols ++ (keywords ++ ["//", "[", "]", "MESSAGE"])

/-- What may follow a stretch of code: delimiters up to the line break, with no mark and no part of a
word among them. -/
structure Borders (stop : Char → Bool) (P : List Char → Prop) : Prop extends Encloses stop P where
  marks : ∀ x ∈ marks, stop x = false
  words : ∀ w ∈ words, isApart stop w.toList = true

section
variable {stop : Char → Bool} {P : List Char → Prop}

theorem Borders.char (hP : Borders stop P) (hx : x ∈ Grammar.marks) :
    Local P (char x) :=
  .char hP.toDelimits (hP.marks x hx)

/-- A text up to a closing mark. -/
theorem Borders.closing (hP : Borders stop P) (q : Char → Bool) (close : Char)
    (hbreak : q '\n' = false) (hclose : close ∈ Grammar.marks) :
    Local P (do let content ← takeWhile q; let _ ← Parsing.char close; return content) :=
  .closing hP.toEncloses q close hbreak (hP.marks close hclose)

theorem local_quoted (hP : Borders stop P) {quote : Char} (hquote : quote ∈ marks) :
    Local P (quoted quote) := by
  have hclosing := hP.closing (fun c => !(c == quote || c == '\n')) quote (by simp) hquote
  have hwhole := (hP.char hquote).bind fun _ =>
    hclosing.bind fun content => .pure (String.ofList content)
  simp only [bind_assoc, pure_bind] at hwhole
  exact hwhole

theorem local_stringLiteral (hP : Borders stop P) : Local P stringLiteral :=
  (local_quoted hP (by decide)).orElse (local_quoted hP (by decide))

theorem local_systemStep (hP : Borders stop P) : Local P systemStep := by
  have hname := Local.identifier hP.toDelimits
  have hfield := (hP.char (x := '.') (by decide)).bind fun _ =>
    (hP.char (x := '$') (by decide)).maybe.bind fun _ => hname.bind fun _ => .pure ()
  have hclosing := hP.closing (fun c => !(c == ']' || c == '\n')) ']' (by simp) (by decide)
  have hindex := (hP.char (x := '[') (by decide)).bind fun _ => hclosing.bind fun _ => .pure ()
  simp only [bind_assoc, pure_bind] at hindex
  exact (hfield).orElse (hindex)

theorem local_systemVariable (hP : Borders stop P) : Local P systemVariable := by
  have hname := Local.identifier hP.toDelimits
  have hprogram := (hP.char (x := '[') (by decide)).bind fun _ =>
    hname.bind fun _ => hP.char (x := ']') (by decide)
  have hwhole := (hP.char (x := '$') (by decide)).bind fun _ => hprogram.maybe.bind fun _ =>
    hname.bind fun _ => (local_systemStep hP).many
  exact hwhole.recognized

theorem local_commentLiteral (hP : Borders stop P) : Local P commentLiteral := by
  have hclosing := hP.closing (fun x => !(x == ']' || isBreak x)) ']' (by decide) (by decide)
  have hwhole := (hP.char (x := ':') (by decide)).bind fun _ =>
    hclosing.bind fun taken => .pure (String.ofList (trim taken))
  simp only [bind_assoc, pure_bind] at hwhole
  exact hwhole

theorem closedComment_of_colon {c : Cursor} (h : c.rest.head? = some ':') :
    closedComment c = (some <$> commentLiteral) c := by
  simp only [closedComment, bracketComment, maybe, seqRight_apply, bind_apply, map_apply, char,
    if_pos h, textUntil, commentLiteral, Parsing.takeWhile, pure_apply]
  split <;> simp_all

theorem closedComment_of_ne {c : Cursor} (h : c.rest.head? ≠ some ':') :
    closedComment c = (do let _ ← char ']'; return none : Parser (Option String)) c := by
  simp only [closedComment, bracketComment, maybe, seqRight_apply, bind_apply, char, if_neg h]

theorem local_closedComment (hP : Borders stop P) : Local P closedComment := by
  intro u c d hcommon
  have hcolon {c : Cursor} (hc : Leads P u c) :
      c.rest.head? = some ':' ↔ u.head? = some ':' :=
    hc.head? hP.toDelimits (hP.marks ':' (by decide))
  by_cases hhead : u.head? = some ':'
  · rw [closedComment_of_colon ((hcolon hcommon.left).2 hhead),
      closedComment_of_colon ((hcolon hcommon.right).2 hhead)]
    exact (local_commentLiteral hP).bind (fun taken => .pure (some taken)) u c d hcommon
  · rw [closedComment_of_ne (mt (hcolon hcommon.left).1 hhead),
      closedComment_of_ne (mt (hcolon hcommon.right).1 hhead)]
    exact (hP.char (x := ']') (by decide)).bind (fun _ => .pure none) u c d hcommon

end

theorem borders_lineRest : Borders isLineEnd LineRest where
  toDelimits := delimits_lineRest
  ends q s y hq h hy := by
    rcases h with rfl | h
    · cases hy
    · exact h.head?_dropWhile hq hy
  marks := by decide
  words := by decide

/-! ## Reading in front of a line end -/

/-- The end of a body line from its semicolon on. -/
def Closing (s : List Char) : Prop :=
  ∃ post behind, s = ';' :: (post ++ behind) ∧ (∀ x ∈ post, isBlank x ∧ x ≠ '\n') ∧
    ∀ x, behind.head? = some x → x = '\n'

theorem Closing.head? {s : List Char} (h : Closing s) : s.head? = some ';' := by
  obtain ⟨post, behind, rfl, -⟩ := h
  rfl

theorem Closing.lineEnding {g s : List Char} (h : Closing s)
    (hgap : ∀ x ∈ g, isBlank x ∧ x ≠ '\n') : LineEnding (g ++ s) := by
  obtain ⟨post, behind, rfl, hpost, hbehind⟩ := h
  exact ⟨g, post, behind, rfl, hgap, hpost, hbehind⟩

theorem isBlank_of_isSpaceOrTab_of_mem {gap : List Char} (h : ∀ x ∈ gap, isSpaceOrTab x) :
    ∀ x ∈ gap, isBlank x ∧ x ≠ '\n' := by
  intro x hx
  refine ⟨isBlank_of_isSpaceOrTab (h x hx), ?_⟩
  rintro rfl
  exact absurd (h _ hx) (by decide)

/-- Both texts go on with the same code, which does not end with white space, then with white space
and with the given ends. The white space of the second is spaces and tabs. -/
def InLine (s s' : List Char) (c d : Cursor) : Prop :=
  ∃ code gap gap', c.rest = code ++ (gap ++ s) ∧ d.rest = code ++ (gap' ++ s') ∧
    (∀ x ∈ gap, isBlank x ∧ x ≠ '\n') ∧ (∀ x ∈ gap', isSpaceOrTab x) ∧
    ∀ x, code.getLast? = some x → isBlank x = false

section
variable {s s' : List Char} {c d : Cursor}

theorem InLine.moves (hs : Closing s) (hs' : Closing s') (h : InLine s s' c d) :
    Moves LineEnding (InLine s s') c d := by
  obtain ⟨code, gap, gap', hc, hd, hgap, hgap', hlast⟩ := h
  refine ⟨code, ⟨⟨_, hc, hs.lineEnding hgap⟩,
    ⟨_, hd, hs'.lineEnding (isBlank_of_isSpaceOrTab_of_mem hgap')⟩⟩, ?_⟩
  rintro _ _ ⟨k, hk, rfl, rfl⟩
  refine ⟨code.drop k, gap, gap', ?_, ?_, hgap, hgap', fun x hx =>
    hlast x (getLast?_of_suffix (drop_suffix k code) hx)⟩
  · rw [Cursor.rest_drop, hc, drop_append_of_le_length hk]
  · rw [Cursor.rest_drop, hd, drop_append_of_le_length hk]

/-- A run of characters that takes no semicolon takes white space only of a line end. -/
theorem Closing.takeWhile (h : Closing s) (hq : q ';' = false) (gap : List Char) :
    (gap ++ s).takeWhile q = gap.takeWhile q ∧
      (gap ++ s).drop (gap.takeWhile q).length = gap.drop (gap.takeWhile q).length ++ s := by
  obtain ⟨post, behind, rfl, -, -⟩ := h
  exact ⟨takeWhile_append_cons hq gap _,
    drop_append_of_le_length (List.takeWhile_prefix q).length_le⟩

/-- Such a run takes the same of both texts, up to white space at the end. -/
theorem InLine.takeWhile (hs : Closing s) (hs' : Closing s') (h : InLine s s' c d)
    (hq : q ';' = false) : trim (c.rest.takeWhile q) = trim (d.rest.takeWhile q) ∧
      InLine s s' (c.drop (c.rest.takeWhile q).length) (d.drop (d.rest.takeWhile q).length) := by
  obtain ⟨code, gap, gap', hc, hd, hgap, hgap', hlast⟩ := h
  rcases exists_split_or_all q code with ⟨a, x, b, rfl, ha, hx⟩ | hall
  · have htaken (e : List Char) : (a ++ x :: b ++ e).takeWhile q = a := by
      rw [append_assoc, takeWhile_append_of_pos ha, cons_append,
        takeWhile_cons_of_neg (by simp [hx]), append_nil]
    rw [hc, hd, htaken, htaken]
    refine ⟨rfl, x :: b, gap, gap', ?_, ?_, hgap, hgap', fun y hy => hlast y ?_⟩
    · rw [Cursor.rest_drop, hc, append_assoc, drop_left]
    · rw [Cursor.rest_drop, hd, append_assoc, drop_left]
    · rwa [getLast?_append_of_ne_nil _ (by simp)]
  · -- The run goes on into both line ends.
    obtain ⟨htake, hdrop⟩ := hs.takeWhile hq gap
    obtain ⟨htake', hdrop'⟩ := hs'.takeWhile hq gap'
    have hblank : ∀ x ∈ gap.takeWhile q, isBlank x := fun x hx =>
      (hgap x ((List.takeWhile_prefix q).subset hx)).1
    have hblank' : ∀ x ∈ gap'.takeWhile q, isBlank x := fun x hx =>
      isBlank_of_isSpaceOrTab (hgap' x ((List.takeWhile_prefix q).subset hx))
    rw [hc, hd, takeWhile_append_of_pos hall, takeWhile_append_of_pos hall, htake, htake']
    refine ⟨?_, [], gap.drop (gap.takeWhile q).length, gap'.drop (gap'.takeWhile q).length, ?_, ?_,
      fun x hx => hgap x (mem_of_mem_drop hx), fun x hx => hgap' x (mem_of_mem_drop hx),
      by simp⟩
    · exact (trim_append_of_all (a := []) (by simp) hblank).trans
        (trim_append_of_all (a := []) (by simp) hblank').symm
    · rw [Cursor.rest_drop, hc, length_append, ← drop_drop, drop_left, hdrop,
        nil_append]
    · rw [Cursor.rest_drop, hd, length_append, ← drop_drop, drop_left, hdrop',
        nil_append]

/-- Where all code has been read on the one side, so it has on the other. -/
theorem InLine.exists_gap {post : List Char} (h : InLine s s' c d)
    (hpost : ∀ x ∈ post, isBlank x) (hc : c.rest = post ++ s) :
    ∃ gap', d.rest = gap' ++ s' ∧ ∀ x ∈ gap', isSpaceOrTab x := by
  obtain ⟨code, gap, gap', hrest, hd, hgap, hgap', hlast⟩ := h
  have hcode : code ++ gap = post := by
    have heq : (code ++ gap) ++ s = post ++ s := by rw [append_assoc, ← hrest, hc]
    exact append_cancel_right heq
  obtain rfl : code = [] := by
    by_contra hne
    obtain ⟨x, hx⟩ := Option.ne_none_iff_exists'.1 (mt getLast?_eq_none_iff.1 hne)
    have hmem : x ∈ post := hcode ▸ mem_append_left _ (mem_of_getLast? hx)
    exact absurd (hpost x hmem) (by simp [hlast x hx])
  exact ⟨gap', hd, hgap'⟩

end

/-- The two texts are read side by side: they go on with a common stretch and then a border each, and
nothing that is read leads out of the relation. -/
structure Abreast (stop : Char → Bool) (P : List Char → Prop) (R : Cursor → Cursor → Prop)
    (v v' : View) : Prop where
  borders : Borders stop P
  moves : ∀ c d, R c d → Moves P R c d
  matching : ∀ w c d, isApart stop w = true → R c d → Matches R w c d
  position : ∀ c d, R c d → v.position c.position = v'.position d.position
  spaces : Keeps R R (fun _ _ => True) spaces spaces
  text : Keeps R R (· = ·) (textUntil ';') (textUntil ';')
  name : v.name = v'.name
  literal : v.literal = v'.literal

namespace Abreast

variable {stop : Char → Bool} {P : List Char → Prop} {R : Cursor → Cursor → Prop}
variable {v v' : View} (hR : Abreast stop P R v v')
include hR

/-- A token that stays within the common stretch leads to another place in the line. -/
theorem token {α : Type} {p : Parser α} {V : α → α → Prop} (hp : Local P p) (hV : ∀ a, V a a) :
    Agrees R R p V :=
  (Keeps.of_local hR.moves hp).imp (fun _ _ h => h) fun a _ hab => hab ▸ hV a

theorem symbol {s : String} (hs : s ∈ Grammar.words) :
    Agrees R R (Parsing.symbol s) fun _ _ => True :=
  .symbol (fun c d => hR.matching _ c d (hR.borders.words s hs)) hR.spaces

theorem keyword {w : String} (hw : w ∈ Grammar.words) :
    Agrees R R (Parsing.keyword w) fun _ _ => True :=
  .keyword (fun c d => hR.matching _ c d (hR.borders.words w hw)) hR.spaces fun _ => trivial

theorem lexis : Lexis R R v v' where
  loose_of_tight _ _ h := h
  position := hR.position
  spaces := hR.spaces
  symbol s hs := hR.symbol (mem_append_left _ hs)
  keyword w hw := hR.keyword (mem_append_right _ (mem_append_left _ hw))
  char x hx := by
    refine hR.token (hR.borders.char ?_) fun _ => trivial
    simp only [mem_cons, not_mem_nil, or_false] at hx
    rcases hx with rfl | rfl | rfl <;> decide
  identifier := hR.token (.identifier hR.borders.toDelimits) fun _ => by rw [hR.name]
  number := by
    have hpoint := hR.borders.marks '.' (by decide)
    refine hR.token (local_number hR.borders.toDelimits hpoint) fun _ => ?_
    rw [hR.name]
  string := hR.token (local_stringLiteral hR.borders) fun _ => by rw [hR.literal]
  system := hR.token (local_systemVariable hR.borders) fun _ => by rw [hR.literal]
  comment := hR.token (local_closedComment hR.borders) fun _ => ⟨by rw [hR.literal], Iff.rfl⟩
  labelNumber := hR.token (local_labelNumber hR.borders.toDelimits) fun _ => rfl
  labelEnd := by
    have hend : Local P (Parsing.char ']' <|> Parsing.char ':') :=
      (hR.borders.char (by decide)).orElse (hR.borders.char (by decide))
    exact (hR.token (V := fun _ _ => True) hend fun _ => trivial).imp (fun _ _ _ => trivial)
      fun _ _ h => h

/-- The text of a message, up to its bracket. -/
theorem message : Keeps R R (· = ·)
    (do let text ← textUntil ']'; let _ ← Parsing.symbol "]"; return text)
    (do let text ← textUntil ']'; let _ ← Parsing.symbol "]"; return text) := by
  intro c d hcd
  obtain ⟨code, hcommon, hwithin⟩ := hR.moves c d hcd
  have hread (c : Cursor) : textUntil ']' c =
      .done (String.ofList (trim (c.rest.takeWhile fun x => !(x == ']' || isBreak x))))
        (c.drop (c.rest.takeWhile fun x => !(x == ']' || isBreak x)).length) := rfl
  rw [bind_apply, bind_apply, hread, hread]
  simp only
  rcases hR.borders.takeWhile_cases (q := fun x => !(x == ']' || isBreak x)) (by decide) code with
    ⟨a, x, b, rfl, htaken⟩ | hopen
  · rw [htaken c hcommon.left, htaken d hcommon.right]
    have hbehind : R (c.drop a.length) (d.drop a.length) :=
      hwithin _ _ ⟨a.length, by simp, rfl, rfl⟩
    exact ((hR.symbol (by decide)).pass <| .pure rfl) _ _ hbehind
  · -- The text runs into the borders, where no bracket stands.
    have hnone {c : Cursor} (h : Leads P code c) : matchLength? "]".toList
        (c.drop (c.rest.takeWhile fun x => !(x == ']' || isBreak x)).length).rest = none := by
      rw [show "]".toList = [']'] from rfl, matchLength?_mark (by decide), if_neg]
      intro hhead
      exact absurd (hopen c h _ hhead) (by simp [hR.borders.marks ']' (by decide)])
    simp only [bind_apply, Parsing.symbol, hnone hcommon.left, hnone hcommon.right]
    exact .failed

/-- **Lines that are read side by side are read as the same instruction.** -/
theorem wording : Wording R R v v' where
  toLexis := hR.lexis
  note := (hR.symbol (by decide)).seqRight (hR.text.imp (fun _ _ h => h) fun a b hab => by
    rw [hab, hR.literal])
  remark := (hR.symbol (by decide)).seqRight (hR.text.imp (fun _ _ h => h) fun a b hab => by
    rw [hab, hR.literal])
  message := (hR.keyword (by decide)).seqRight <| (hR.symbol (by decide)).bind fun _ _ _ =>
    hR.message.imp (fun _ _ h => h) fun a b hab => by rw [hab, hR.literal]

end Abreast

/-- In front of line ends, words are found where the tokens are. -/
theorem matches_of_moves_lineEnding {R : Cursor → Cursor → Prop} {c d : Cursor} {w : List Char}
    (hw : isApart isLineEnd w) (h : Moves LineEnding R c d) : Matches R w c d :=
  h.matches delimits_lineEnding not_lineEnding_nil hw

theorem moves_lineRest {R : Cursor → Cursor → Prop} {c d : Cursor} (h : Moves LineEnding R c d) :
    Moves LineRest R c d := by
  obtain ⟨u, hcommon, hR⟩ := h
  exact ⟨u, ⟨hcommon.left.of_imp fun _ => .inr, hcommon.right.of_imp fun _ => .inr⟩, hR⟩

theorem abreast_inLine {s s' : List Char} {v : View} (hs : Closing s) (hs' : Closing s')
    (hplace : ∀ p q, v.position p = v.position q) : Abreast isLineEnd LineRest (InLine s s') v v where
  borders := borders_lineRest
  moves _ _ h := moves_lineRest (h.moves hs hs')
  matching _ _ _ hw h := matches_of_moves_lineEnding hw (h.moves hs hs')
  position c d _ := hplace c.position d.position
  spaces _ _ hcd := .done trivial (hcd.takeWhile hs hs' (by decide)).2
  text c d hcd := by
    obtain ⟨htrim, hrest⟩ :=
      hcd.takeWhile (q := fun x => !(x == ';' || isBreak x)) hs hs' (by decide)
    exact .done (congrArg String.ofList htrim) hrest
  name := rfl
  literal := rfl

/-- **Code is read alike in front of all line ends.** -/
theorem wording_inLine {s s' : List Char} {v : View} (hs : Closing s) (hs' : Closing s')
    (hplace : ∀ p q, v.position p = v.position q) : Wording (InLine s s') (InLine s s') v v :=
  (abreast_inLine hs hs' hplace).wording

end RobotSource.Listing.Grammar
