import RobotSource.Proofs.Parsing.Cursor
/-!
# Merged failures

The alternatives of a grammar are grouped in many ways, and so are the failures that `Failure.merge`
joins. The grouping does not matter: merging two merged failures gives what the failures of both come
to (`MergeOf.merge`), and that is fixed by the failures at the greatest position (`MergeOf.unique`).
-/

namespace RobotSource

open List

theorem Position.lt_trichotomy (p q : Position) : p < q ∨ p = q ∨ q < p := by
  obtain ⟨l, k⟩ := p
  obtain ⟨l', k'⟩ := q
  simp only [lt_iff, mk.injEq]
  omega

namespace Parsing

/-! ## Pooled expectations -/

namespace Failure

theorem pool_append (old new more : List String) :
    pool old (new ++ more) = pool (pool old new) more :=
  foldl_append

theorem pool_cons (old new : List String) (what : String) :
    pool old (what :: new) = pool (pool old [what]) new := rfl

theorem pool_singleton_of_mem {old : List String} {what : String} (h : what ∈ old) :
    pool old [what] = old :=
  if_pos h

theorem pool_singleton_of_notMem {old : List String} {what : String} (h : what ∉ old) :
    pool old [what] = old ++ [what] :=
  if_neg h

/-- Pooling keeps what is there and adds the first of each new expectation. -/
theorem pool_eq (old new : List String) :
    pool old new = old ++ (new.filter (· ∉ old)).eraseDups := by
  induction new generalizing old with
  | nil => simp [pool]
  | cons what new ih =>
    by_cases h : what ∈ old
    · rw [pool_cons, pool_singleton_of_mem h, ih, filter_cons_of_neg (by simpa using h)]
    · rw [pool_cons, pool_singleton_of_notMem h, ih, filter_cons_of_pos (by simpa using h),
        eraseDups_cons, append_assoc, singleton_append, filter_filter]
      congr 4
      funext x
      rw [Bool.eq_iff_iff]
      simp [and_comm]

theorem mem_pool {old new : List String} {what : String} :
    what ∈ pool old new ↔ what ∈ old ∨ what ∈ new := by
  rw [pool_eq, mem_append, mem_eraseDups, mem_filter]
  by_cases h : what ∈ old <;> simp [h]

theorem pool_assoc (old new more : List String) :
    pool old (pool new more) = pool (pool old new) more := by
  induction more generalizing new with
  | nil => rfl
  | cons what more ih =>
    have hone : pool old (pool new [what]) = pool (pool old new) [what] := by
      by_cases h : what ∈ new
      · rw [pool_singleton_of_mem h, pool_singleton_of_mem (mem_pool.2 (.inr h))]
      · rw [pool_singleton_of_notMem h, pool_append]
    rw [pool_cons, ih, hone, ← pool_cons]

theorem pool_eq_nil_iff {old new : List String} : pool old new = [] ↔ old = [] ∧ new = [] := by
  simp [eq_nil_iff_forall_not_mem, mem_pool, not_or, forall_and]

/-! ## Merging -/

/-- What failures at one place come to: the wording is the first one's, unless there are more of them
and any of them expects something. -/
def gathered (first : Failure) (others : List Failure) : Failure :=
  let expected := pool first.expected (others.flatMap (·.expected))
  { cursor := first.cursor
    reason := if others = [] ∨ expected = [] then first.reason else .expecting expected
    expected := expected }

theorem message_gathered (first : Failure) (others : List Failure) :
    (gathered first others).reason.message =
      if others ≠ [] ∧ (gathered first others).expected ≠ [] then
        "expected " ++ " or ".intercalate (gathered first others).expected
      else first.reason.message := by
  by_cases h : others = [] ∨ (gathered first others).expected = []
  · have hreason : (gathered first others).reason = first.reason := if_pos h
    rw [hreason, if_neg fun hboth => h.elim hboth.1 hboth.2]
  · have hreason : (gathered first others).reason =
        .expecting (gathered first others).expected := if_neg h
    rw [hreason, if_pos (not_or.1 h)]
    rfl

/-- Two failures at one place are merged into what the failures of both come to. -/
theorem merge_gathered {a b : Failure} (as bs : List Failure)
    (h : a.cursor.position = b.cursor.position) :
    (gathered a as).merge (gathered b bs) = gathered a (as ++ b :: bs) := by
  have hpool : pool (gathered a as).expected (gathered b bs).expected =
      (gathered a (as ++ b :: bs)).expected := by
    simp only [gathered, flatMap_append, flatMap_cons, pool_append, pool_assoc]
  have hreason : (if (gathered a (as ++ b :: bs)).expected.isEmpty then (gathered a as).reason
      else .expecting (gathered a (as ++ b :: bs)).expected) =
        (gathered a (as ++ b :: bs)).reason := by
    split
    · rename_i hnil
      rw [List.isEmpty_iff] at hnil
      have hfirst : (gathered a as).expected = [] := (pool_eq_nil_iff.1 (hpool.trans hnil)).1
      exact (if_pos (.inr hfirst)).trans (if_pos (.inr hnil)).symm
    · rename_i hne
      rw [List.isEmpty_iff] at hne
      exact (if_neg (not_or.2 ⟨by simp, hne⟩)).symm
  have hposition : (gathered a as).cursor.position = (gathered b bs).cursor.position := h
  simp only [merge, hposition, lt_irrefl, if_false, hpool, hreason]
  rfl

/-- The failure is what those at the greatest position come to. -/
structure MergeOf (fs : List Failure) (f : Failure) : Prop where
  furthest : ∀ g ∈ fs, g.cursor.position ≤ f.cursor.position
  gathered : ∃ first others, fs.filter (·.cursor.position = f.cursor.position) = first :: others ∧
    f = gathered first others

namespace MergeOf

variable {fs gs : List Failure} {f g : Failure}

theorem one (f : Failure) : MergeOf [f] f where
  furthest := by simp
  gathered := ⟨f, [], by simp, by simp [Failure.gathered, pool]⟩

/-- No failure stands behind the furthest one. -/
theorem filter_eq_nil (h : MergeOf fs f) {p : Position} (hp : f.cursor.position < p) :
    fs.filter (·.cursor.position = p) = [] := by
  rw [filter_eq_nil_iff]
  intro g hg
  simpa using ((h.furthest g hg).trans_lt hp).ne

/-- **Merging two merged failures** is merging the failures of both. -/
theorem merge (hf : MergeOf fs f) (hg : MergeOf gs g) : MergeOf (fs ++ gs) (f.merge g) := by
  obtain ⟨a, as, hfilter, hgathered⟩ := hf.gathered
  obtain ⟨b, bs, hfilter', hgathered'⟩ := hg.gathered
  rcases Position.lt_trichotomy f.cursor.position g.cursor.position with hlt | heq | hgt
  · rw [Failure.merge, if_pos hlt]
    refine ⟨fun k hk => ?_, b, bs, ?_, hgathered'⟩
    · rcases mem_append.1 hk with hk | hk
      · exact (hf.furthest k hk).trans hlt.le
      · exact hg.furthest k hk
    · rw [filter_append, hf.filter_eq_nil hlt, nil_append, hfilter']
  · have hab : a.cursor.position = b.cursor.position := by rwa [hgathered, hgathered'] at heq
    have hposition : (f.merge g).cursor.position = f.cursor.position := by
      rw [hgathered, hgathered', merge_gathered as bs hab]
      rfl
    refine ⟨fun k hk => ?_, a, as ++ b :: bs, ?_, ?_⟩
    · rw [hposition]
      rcases mem_append.1 hk with hk | hk
      · exact hf.furthest k hk
      · exact heq ▸ hg.furthest k hk
    · rw [hposition, filter_append, hfilter, heq, hfilter', cons_append]
    · rw [hgathered, hgathered', merge_gathered as bs hab]
  · rw [Failure.merge, if_neg hgt.asymm, if_pos hgt]
    refine ⟨fun k hk => ?_, a, as, ?_, hgathered⟩
    · rcases mem_append.1 hk with hk | hk
      · exact hf.furthest k hk
      · exact (hg.furthest k hk).trans hgt.le
    · rw [filter_append, hg.filter_eq_nil hgt, append_nil, hfilter]

theorem foldl (h : MergeOf fs f) (gs : List Failure) :
    MergeOf (fs ++ gs) (gs.foldl Failure.merge f) := by
  induction gs generalizing fs f with
  | nil => rwa [append_nil]
  | cons g gs ih =>
    have hnext := ih (h.merge (one g))
    rwa [append_assoc, singleton_append] at hnext

theorem unique (h : MergeOf fs f) (h' : MergeOf fs g) : f = g := by
  have mem_filter {fs : List Failure} {f : Failure} (h : MergeOf fs f) :
      ∃ k ∈ fs, k.cursor.position = f.cursor.position := by
    obtain ⟨first, others, hfilter, -⟩ := h.gathered
    have hmem : first ∈ fs.filter (·.cursor.position = f.cursor.position) := by simp [hfilter]
    exact ⟨first, mem_of_mem_filter hmem, by simpa using of_mem_filter hmem⟩
  obtain ⟨k, hk, hkf⟩ := mem_filter h
  obtain ⟨l, hl, hlg⟩ := mem_filter h'
  have hposition : f.cursor.position = g.cursor.position :=
    le_antisymm (hkf ▸ h'.furthest k hk) (hlg ▸ h.furthest l hl)
  obtain ⟨first, others, hfilter, hgathered⟩ := h.gathered
  obtain ⟨first', others', hfilter', hgathered'⟩ := h'.gathered
  rw [hposition, hfilter', List.cons.injEq] at hfilter
  rw [hgathered, hgathered', hfilter.1, hfilter.2]

end MergeOf

end Failure

/-- Of two cursors of a text, the one at the later position has less to read. -/
theorem Cursor.Of.length_le_of_le {text : List Char} {c d : Cursor} (hc : c.Of text)
    (hd : d.Of text) (h : c.position ≤ d.position) : d.rest.length ≤ c.rest.length := by
  obtain ⟨u, hu⟩ := hc
  obtain ⟨v, hv⟩ := hd
  rcases append_eq_append_iff.1 (hu.rest.symm.trans hv.rest) with ⟨w, -, hw⟩ | ⟨w, hw, hrest⟩
  · rw [hw, length_append]
    omega
  · have hpasses : Passes w d c :=
      ⟨hrest, by rw [hu.position, hw, Position.afterAll_append, ← hv.position]⟩
    have hnil : w = [] := of_not_not fun hne => (hpasses.lt hne).not_ge h
    rw [hrest, hnil, nil_append]

/-! ## Groupings -/

/-- Failures in a row, with brackets that say which are merged first. -/
inductive Grouping where
  | one (failure : Failure)
  | both (left right : Grouping)

namespace Grouping

/-- What is left when all brackets are merged. -/
def merged : Grouping → Failure
  | one f => f
  | both l r => l.merged.merge r.merged

/-- The first of the failures. -/
def first : Grouping → Failure
  | one f => f
  | both l _ => l.first

/-- The failures behind the first. -/
def others : Grouping → List Failure
  | one _ => []
  | both l r => l.others ++ r.first :: r.others

/-- All the failures, in their order. -/
def failures (g : Grouping) : List Failure := g.first :: g.others

theorem mergeOf_merged (g : Grouping) : Failure.MergeOf g.failures g.merged := by
  induction g with
  | one f => exact .one f
  | both l r hl hr => exact hl.merge hr

/-- **Failures can be merged in any grouping.** What comes out is what comes out from left to right. It
stands at the greatest position of them all, and in a text nearest to its end. Its expectations are
those of the first failure there and the new ones of the others there, each once. If there are others
and anything is expected, the wording lists the expectations, and otherwise it is the first one's. -/
theorem merged_exact (g : Grouping) :
    g.merged = g.others.foldl Failure.merge g.first ∧
    (∀ f ∈ g.failures, f.cursor.position ≤ g.merged.cursor.position) ∧
    (∀ text, (∀ f ∈ g.failures, f.cursor.Of text) →
      ∀ f ∈ g.failures, g.merged.cursor.rest.length ≤ f.cursor.rest.length) ∧
    ∃ first others,
      g.failures.filter (·.cursor.position = g.merged.cursor.position) = first :: others ∧
      g.merged.cursor = first.cursor ∧
      g.merged.expected = first.expected ++
        ((others.flatMap (·.expected)).filter (· ∉ first.expected)).eraseDups ∧
      g.merged.reason.message =
        if others ≠ [] ∧ g.merged.expected ≠ [] then
          "expected " ++ " or ".intercalate g.merged.expected
        else first.reason.message := by
  have hmerge := g.mergeOf_merged
  obtain ⟨first, others, hfilter, hgathered⟩ := hmerge.gathered
  refine ⟨hmerge.unique (Failure.MergeOf.foldl (.one g.first) g.others), hmerge.furthest, ?_,
    first, others, hfilter, ?_, ?_, ?_⟩
  · intro text hof f hf
    have hfirst : first ∈ g.failures := mem_of_mem_filter (hfilter ▸ mem_cons_self)
    have hcursor : g.merged.cursor = first.cursor := hgathered ▸ rfl
    rw [hcursor]
    exact (hof f hf).length_le_of_le (hof first hfirst) (hcursor ▸ hmerge.furthest f hf)
  · exact hgathered ▸ rfl
  · rw [hgathered]
    exact Failure.pool_eq _ _
  · rw [hgathered]
    exact Failure.message_gathered first others

/-- Two failures behind the first character of a text, with one before it between them. -/
theorem merged_exact_in_text :
    let c := Cursor.ofText "a1"
    let g : Grouping := .both (.one (.expecting (c.drop 1) "letter"))
      (.both (.one (.expecting c "'('")) (.one (.expecting (c.drop 1) "']'")))
    (∀ f ∈ g.failures, f.cursor.Of "a1".toList) ∧
      g.merged.reason.message = "expected letter or ']'" ∧
      ∀ f ∈ g.failures, g.merged.cursor.rest.length ≤ f.cursor.rest.length := by
  intro c g
  have hof : ∀ f ∈ g.failures, f.cursor.Of "a1".toList := by
    intro f hf
    simp only [failures, first, others, g, nil_append, mem_cons, not_mem_nil,
      or_false] at hf
    rcases hf with rfl | rfl | rfl
    · exact ⟨_, .drop 1⟩
    · exact ⟨[], .refl _⟩
    · exact ⟨_, .drop 1⟩
  exact ⟨hof, by decide +kernel, (merged_exact g).2.2.1 _ hof⟩

end Grouping

end Parsing

end RobotSource
