import RobotSource.Table
/-!
# What a table answers

Each operation of a table in terms of what it answers afterwards: `find?_insert`, `find?_erase` and
`find?_union`. An entry of the list and an answer of the table are the same thing
(`mem_entries_iff`), since no key stands there twice.
-/

namespace RobotSource.Table

open List

variable {β : Type} {t new : Table β} {key k : String} {value v : β}
variable {l : List (String × β)}

@[simp] theorem find?_empty : (Table.empty : Table β).find? k = none := rfl

theorem find?_insertEntry (l : List (String × β)) :
    (insertEntry key value l).find? (·.1 == k) =
      if k = key then some (key, value) else l.find? (·.1 == k) := by
  induction l with
  | nil => by_cases h : k = key <;> simp [insertEntry, h, Ne.symm]
  | cons p rest ih =>
    obtain ⟨k', v'⟩ := p
    unfold insertEntry
    split
    · rename_i heq
      subst heq
      by_cases h : k = key
      · simp [h]
      · simp [h, Ne.symm h]
    · split
      · by_cases h : k = key
        · simp [h]
        · simp [h, Ne.symm h]
      · rename_i hne _
        by_cases hk : k' = k
        · have hkey : k ≠ key := fun h => hne (h.symm.trans hk.symm)
          simp [hk, hkey]
        · simp [hk, ih]

/-- **A table answers with what was inserted last.** -/
theorem find?_insert :
    (t.insert key value).find? k = if k = key then some value else t.find? k := by
  rw [find?, insert, find?_insertEntry]
  split <;> rfl

@[simp] theorem find?_insert_self : (t.insert key value).find? key = some value := by
  rw [find?_insert, if_pos rfl]

theorem find?_insert_of_ne (h : k ≠ key) : (t.insert key value).find? k = t.find? k := by
  rw [find?_insert, if_neg h]

theorem find?_erase : (t.erase key).find? k = if k = key then none else t.find? k := by
  rw [find?, erase, find?_filter]
  split
  · rename_i h
    subst h
    simp
  · rename_i h
    rw [find?]
    congr 2
    funext a
    by_cases ha : a.1 = k
    · simp [ha, h]
    · simp [ha]

/-! ## Entries and answers -/

theorem find?_eq_some_of_mem (hs : l.Pairwise fun a b => a.1 < b.1)
    (h : (k, v) ∈ l) : l.find? (·.1 == k) = some (k, v) := by
  induction l with
  | nil => cases h
  | cons p rest ih =>
    obtain ⟨hp, hrest⟩ := pairwise_cons.1 hs
    rcases mem_cons.1 h with rfl | hmem
    · simp
    · have hne : p.1 ≠ k := fun heq => String.lt_irrefl k (by simpa [heq] using hp _ hmem)
      simp [hne, ih hrest hmem]

/-- **The entries of a table are its answers.** -/
theorem mem_entries_iff : (k, v) ∈ t.entries ↔ t.find? k = some v := by
  constructor
  · intro h
    rw [find?, find?_eq_some_of_mem t.sorted h]
    rfl
  · intro h
    obtain ⟨p, hp, hv⟩ := Option.map_eq_some_iff.1 h
    have hmem := mem_of_find?_eq_some hp
    have hk : p.1 = k := by simpa using find?_some hp
    rw [← hk, ← hv]
    exact hmem

theorem insertEntry_of_mem (hs : l.Pairwise fun a b => a.1 < b.1)
    (h : (key, value) ∈ l) : insertEntry key value l = l := by
  induction l with
  | nil => cases h
  | cons p rest ih =>
    obtain ⟨hp, hrest⟩ := pairwise_cons.1 hs
    rcases mem_cons.1 h with rfl | hmem
    · simp [insertEntry]
    · have hlt : p.1 < key := hp _ hmem
      have hne : key ≠ p.1 := fun heq => String.lt_irrefl p.1 (heq ▸ hlt)
      have hnlt : ¬key < p.1 := fun hgt => String.lt_irrefl key (String.lt_trans hgt hlt)
      rw [insertEntry, if_neg hne, if_neg hnlt, ih hrest hmem]

theorem mem_values_iff : v ∈ t.values ↔ ∃ k, t.find? k = some v := by
  simp only [values, mem_map, Prod.exists, exists_eq_right, mem_entries_iff]

theorem keys_pairwise : t.keys.Pairwise (· < ·) :=
  pairwise_map.2 t.sorted

theorem entries_nodup : t.entries.Nodup := by
  refine List.Pairwise.imp ?_ t.sorted
  rintro p q hlt rfl
  exact String.lt_irrefl p.1 hlt

/-- **A table is determined by its answers.** -/
theorem ext_find? {t' : Table β} (h : ∀ k, t.find? k = t'.find? k) : t = t' := by
  have hmem : ∀ p, p ∈ t.entries ↔ p ∈ t'.entries := fun ⟨k, v⟩ => by
    rw [mem_entries_iff, mem_entries_iff, h]
  have hperm := (perm_ext_iff_of_nodup entries_nodup entries_nodup).2 hmem
  have hentries : t.entries = t'.entries :=
    hperm.eq_of_pairwise
      (fun p q _ _ hpq hqp => absurd (String.lt_trans hpq hqp) (String.lt_irrefl p.1))
      t.sorted t'.sorted
  obtain ⟨entries, sorted⟩ := t
  obtain ⟨entries', sorted'⟩ := t'
  obtain rfl : entries = entries' := hentries
  rfl

/-- Inserting what the table answers already changes nothing. -/
theorem insert_of_find? (h : t.find? key = some value) : t.insert key value = t := by
  obtain ⟨entries, sorted⟩ := t
  have hmem : (key, value) ∈ entries := mem_entries_iff.2 h
  simp only [insert, insertEntry_of_mem sorted hmem]

theorem contains_iff : t.contains k ↔ ∃ v, t.find? k = some v := by
  rw [contains, Option.isSome_iff_exists]

theorem contains_insert :
    (t.insert key value).contains k ↔ t.contains k ∨ k = key := by
  rw [contains, contains, find?_insert]
  by_cases h : k = key <;> simp [h]

theorem contains_erase :
    (t.erase key).contains k ↔ t.contains k ∧ k ≠ key := by
  rw [contains, contains, find?_erase]
  by_cases h : k = key <;> simp [h]

/-! ## Two tables together -/

theorem find?_foldl_insert (hs : l.Pairwise fun a b => a.1 < b.1) :
    (l.foldl (fun t (key, value) => t.insert key value) t).find? k =
      ((l.find? (·.1 == k)).map (·.2)).or (t.find? k) := by
  induction l generalizing t with
  | nil => rfl
  | cons p rest ih =>
    obtain ⟨hp, hrest⟩ := pairwise_cons.1 hs
    rw [foldl_cons, ih hrest, find?_insert]
    by_cases hk : p.1 = k
    · have hnone : rest.find? (·.1 == k) = none := by
        rw [find?_eq_none]
        intro q hq heq
        have hqk : q.1 = k := by simpa using heq
        exact String.lt_irrefl k (by simpa [hk, hqk] using hp q hq)
      simp [hnone, hk]
    · simp [hk, Ne.symm hk]

/-- **In the union the second table answers first.** -/
theorem find?_union : (t.union new).find? k = (new.find? k).or (t.find? k) :=
  find?_foldl_insert new.sorted

end RobotSource.Table
