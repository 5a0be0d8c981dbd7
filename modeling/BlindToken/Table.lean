namespace BlindToken

-- Each key stands in one entry. The view of a table is `get?`; each operation has one equation
-- through it.
structure Table (key value : Type) where
  entries : List (key × value)
  nodup : (entries.map Prod.fst).Nodup

namespace Table

variable {key value : Type} [DecidableEq key]

def empty : Table key value := ⟨[], List.nodup_nil⟩

def get? (table : Table key value) (wanted : key) : Option value := table.entries.lookup wanted

def contains (table : Table key value) (wanted : key) : Bool := (table.get? wanted).isSome

def size (table : Table key value) : Nat := table.entries.length

def keys (table : Table key value) : List key := table.entries.map Prod.fst

def values (table : Table key value) : List value := table.entries.map Prod.snd

def erase (table : Table key value) (old : key) : Table key value where
  entries := table.entries.filter fun entry => entry.1 ≠ old
  nodup := table.nodup.sublist (List.filter_sublist.map _)

theorem not_mem_keys_erase (table : Table key value) (old : key) :
    old ∉ (table.erase old).entries.map Prod.fst := by
  simp [erase]

def insert (table : Table key value) (new : key) (item : value) : Table key value where
  entries := (new, item) :: (table.erase new).entries
  nodup := List.nodup_cons.mpr ⟨table.not_mem_keys_erase new, (table.erase new).nodup⟩

def ofList (entries : List (key × value)) : Table key value :=
  entries.foldl (fun table entry => table.insert entry.1 entry.2) empty

@[simp] theorem get?_empty (wanted : key) : (empty : Table key value).get? wanted = none := rfl

theorem get?_erase (table : Table key value) (old wanted : key) :
    (table.erase old).get? wanted = if wanted = old then none else table.get? wanted := by
  change (table.entries.filter fun entry => entry.1 ≠ old).lookup wanted =
    if wanted = old then none else table.entries.lookup wanted
  induction table.entries with
  | nil => simp
  | cons entry rest ih =>
    obtain ⟨held, item⟩ := entry
    by_cases hold : held = old
    · rw [List.filter_cons_of_neg (by simpa using hold), ih]
      by_cases hwanted : wanted = old
      · simp [hwanted]
      · have hheld : (wanted == held) = false := by simpa [hold] using hwanted
        simp [hwanted, List.lookup_cons, hheld]
    · rw [List.filter_cons_of_pos (by simpa using hold)]
      by_cases hheld : wanted = held
      · subst hheld
        simp [hold]
      · have hheld : (wanted == held) = false := by simpa using hheld
        simp only [List.lookup_cons, hheld, ih]

theorem get?_insert (table : Table key value) (new wanted : key) (item : value) :
    (table.insert new item).get? wanted =
      if wanted = new then some item else table.get? wanted := by
  have herase := table.get?_erase new wanted
  unfold get? at herase ⊢
  by_cases h : wanted = new
  · simp [insert, h]
  · simp only [h, if_false] at herase ⊢
    simp only [insert, List.lookup_cons, show (wanted == new) = false by simpa using h, herase]

end Table

end BlindToken
