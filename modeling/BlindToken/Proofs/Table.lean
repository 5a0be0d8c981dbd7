import BlindToken.Table

namespace BlindToken.Table

variable {key value : Type} [DecidableEq key] (table : Table key value)

theorem contains_eq_false_iff (wanted : key) :
    table.contains wanted = false ↔ table.get? wanted = none := by
  simp only [contains, Option.isSome_eq_false_iff, Option.isNone_iff_eq_none]

private theorem lookup_eq_some_iff {entries : List (key × value)}
    (hnodup : (entries.map Prod.fst).Nodup) (wanted : key) (item : value) :
    entries.lookup wanted = some item ↔ (wanted, item) ∈ entries := by
  induction entries with
  | nil => simp
  | cons entry rest ih =>
    obtain ⟨held, other⟩ := entry
    obtain ⟨hheld, hrest⟩ := List.nodup_cons.mp hnodup
    by_cases hwanted : wanted = held
    · subst hwanted
      have hnot : (wanted, item) ∉ rest := fun hmem => hheld (List.mem_map.mpr ⟨_, hmem, rfl⟩)
      simp [hnot, eq_comm]
    · have hbeq : (wanted == held) = false := by simpa using hwanted
      rw [List.lookup_cons, hbeq]
      simp [ih hrest, hwanted]

theorem get?_eq_some_iff (wanted : key) (item : value) :
    table.get? wanted = some item ↔ (wanted, item) ∈ table.entries :=
  lookup_eq_some_iff table.nodup wanted item

theorem mem_keys_iff (wanted : key) :
    wanted ∈ table.entries.map Prod.fst ↔ ∃ item, table.get? wanted = some item := by
  simp only [List.mem_map, Prod.exists, exists_and_right, exists_eq_right, get?_eq_some_iff]

theorem mem_values_iff (item : value) :
    item ∈ table.values ↔ ∃ wanted, table.get? wanted = some item := by
  simp only [values, List.mem_map, Prod.exists, exists_eq_right, get?_eq_some_iff]

omit [DecidableEq key] in
theorem nodup_entries : table.entries.Nodup :=
  List.Pairwise.of_map Prod.fst (fun _ _ hkeys hsame => hkeys (congrArg Prod.fst hsame)) table.nodup

-- Two tables have the same view exactly if they have the same entries.
theorem entries_perm_iff {first second : Table key value} :
    first.entries.Perm second.entries ↔ ∀ wanted, first.get? wanted = second.get? wanted := by
  rw [List.perm_ext_iff_of_nodup first.nodup_entries second.nodup_entries]
  constructor
  · intro hmem wanted
    refine Option.ext fun item => ?_
    rw [get?_eq_some_iff, get?_eq_some_iff, hmem]
  · rintro hview ⟨wanted, item⟩
    rw [← get?_eq_some_iff, ← get?_eq_some_iff, hview]

theorem entries_insert {new : key} (item : value) (hnew : new ∉ table.entries.map Prod.fst) :
    (table.insert new item).entries = (new, item) :: table.entries := by
  have hkeep : table.entries.filter (fun entry => entry.1 ≠ new) = table.entries := by
    rw [List.filter_eq_self]
    intro entry hentry
    have hother : entry.1 ≠ new := fun hsame => hnew (hsame ▸ List.mem_map_of_mem hentry)
    simpa using hother
  simp only [insert, erase, hkeep]

-- Each new entry goes to the front.
private theorem entries_foldl_insert {entries : List (key × value)}
    (hnodup : (entries.map Prod.fst).Nodup)
    (hnew : ∀ entry ∈ entries, entry.1 ∉ table.entries.map Prod.fst) :
    (entries.foldl (fun table entry => table.insert entry.1 entry.2) table).entries =
      entries.reverse ++ table.entries := by
  induction entries generalizing table with
  | nil => rfl
  | cons entry rest ih =>
    obtain ⟨hentry, hrest⟩ := List.nodup_cons.mp hnodup
    have hinsert := table.entries_insert entry.2 (hnew entry List.mem_cons_self)
    rw [List.foldl_cons, ih _ hrest, hinsert, List.reverse_cons, List.append_assoc]
    · rfl
    · intro next hnext
      rw [hinsert, List.map_cons, List.mem_cons, not_or]
      have hother : next.1 ≠ entry.1 := fun hsame => hentry (hsame ▸ List.mem_map_of_mem hnext)
      exact ⟨hother, hnew next (List.mem_cons_of_mem _ hnext)⟩

theorem entries_ofList {entries : List (key × value)} (hnodup : (entries.map Prod.fst).Nodup) :
    (ofList entries).entries = entries.reverse := by
  have hempty : ∀ entry ∈ entries, entry.1 ∉ (empty : Table key value).entries.map Prod.fst :=
    fun _ _ => List.not_mem_nil
  rw [ofList, entries_foldl_insert _ hnodup hempty]
  exact List.append_nil _

end BlindToken.Table
