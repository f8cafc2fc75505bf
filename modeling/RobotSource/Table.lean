/-!
# Tables

A table assigns values to text keys. It is kept as the list of its entries in increasing order of
the keys, so that two tables with the same entries are equal, and listing a table lists it in order.
-/

namespace RobotSource

/-- A finite assignment of values to keys. -/
structure Table (β : Type) where
  entries : List (String × β)
  sorted : entries.Pairwise fun a b => a.1 < b.1

namespace Table

variable {β : Type}

/-- The table without entries. -/
def empty : Table β := ⟨[], .nil⟩

instance : Inhabited (Table β) := ⟨empty⟩

/-- The value of a key. -/
def find? (t : Table β) (key : String) : Option β :=
  (t.entries.find? (·.1 == key)).map (·.2)

/-- Whether the table has the key. -/
def contains (t : Table β) (key : String) : Bool :=
  (t.find? key).isSome

/-- Puts an entry into a sorted list, in place of the one of its key. -/
def insertEntry (key : String) (value : β) : List (String × β) → List (String × β)
  | [] => [(key, value)]
  | (k, v) :: rest =>
    if key = k then (key, value) :: rest
    else if key < k then (key, value) :: (k, v) :: rest
    else (k, v) :: insertEntry key value rest

theorem eq_or_mem_of_mem_insertEntry {key : String} {value : β} {p : String × β} :
    ∀ {l : List (String × β)}, p ∈ insertEntry key value l → p = (key, value) ∨ p ∈ l
  | [], h => .inl (by simpa [insertEntry] using h)
  | (k, v) :: rest, h => by
    unfold insertEntry at h
    split at h
    · rcases List.mem_cons.1 h with h | h
      · exact .inl h
      · exact .inr (List.mem_cons_of_mem _ h)
    · split at h
      · rcases List.mem_cons.1 h with h | h
        · exact .inl h
        · exact .inr h
      · rcases List.mem_cons.1 h with h | h
        · exact .inr (h ▸ List.mem_cons_self)
        · rcases eq_or_mem_of_mem_insertEntry h with h | h
          · exact .inl h
          · exact .inr (List.mem_cons_of_mem _ h)

theorem sorted_insertEntry {key : String} {value : β} :
    ∀ {l : List (String × β)}, l.Pairwise (fun a b => a.1 < b.1) →
      (insertEntry key value l).Pairwise fun a b => a.1 < b.1
  | [], _ => List.pairwise_singleton _ _
  | (k, v) :: rest, h => by
    obtain ⟨hk, hrest⟩ := List.pairwise_cons.1 h
    unfold insertEntry
    split
    · rename_i heq
      exact List.pairwise_cons.2 ⟨fun p hp => heq ▸ hk p hp, hrest⟩
    · rename_i hne
      split
      · rename_i hlt
        refine List.pairwise_cons.2 ⟨fun p hp => ?_, h⟩
        rcases List.mem_cons.1 hp with rfl | hp
        · exact hlt
        · exact String.lt_trans hlt (hk p hp)
      · rename_i hnlt
        refine List.pairwise_cons.2 ⟨fun p hp => ?_, sorted_insertEntry hrest⟩
        rcases eq_or_mem_of_mem_insertEntry hp with rfl | hp
        · have : k < key := by grind
          exact this
        · exact hk p hp

/-- Sets the value of a key. -/
def insert (t : Table β) (key : String) (value : β) : Table β :=
  ⟨insertEntry key value t.entries, sorted_insertEntry t.sorted⟩

/-- Removes a key. -/
def erase (t : Table β) (key : String) : Table β :=
  ⟨t.entries.filter (·.1 != key), t.sorted.filter _⟩

/-- The keys, in order. -/
def keys (t : Table β) : List String := t.entries.map (·.1)

/-- The values, in the order of their keys. -/
def values (t : Table β) : List β := t.entries.map (·.2)

/-- The entries of both tables; those of the second win. -/
def union (t new : Table β) : Table β :=
  new.entries.foldl (fun t (key, value) => t.insert key value) t

end Table

end RobotSource
