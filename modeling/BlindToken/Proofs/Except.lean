import Mathlib.Data.List.Forall2

namespace BlindToken

theorem bind_eq_ok_iff {ε α β : Type} {first : Except ε α} {next : α → Except ε β} {result : β} :
    first >>= next = .ok result ↔ ∃ value, first = .ok value ∧ next value = .ok result := by
  cases first with
  | error error => exact ⟨nofun, fun ⟨_, h, _⟩ => nomatch h⟩
  | ok value => exact ⟨fun h => ⟨value, rfl, h⟩, fun ⟨_, h, hnext⟩ => Except.ok.inj h ▸ hnext⟩

theorem bind_eq_error_iff {ε α β : Type} {first : Except ε α} {next : α → Except ε β} {error : ε} :
    first >>= next = .error error ↔
      first = .error error ∨ ∃ value, first = .ok value ∧ next value = .error error := by
  cases first with
  | error failure =>
    exact ⟨fun h => .inl (congrArg Except.error (Except.error.inj h)),
      fun h => h.elim (fun h => congrArg Except.error (Except.error.inj h))
        fun ⟨_, h, _⟩ => nomatch h⟩
  | ok value =>
    exact ⟨fun h => .inr ⟨value, rfl, h⟩,
      fun h => h.elim nofun fun ⟨_, h, hnext⟩ => Except.ok.inj h ▸ hnext⟩

theorem toOption_eq_some_iff {ε α : Type} {result : Except ε α} {value : α} :
    result.toOption = some value ↔ result = .ok value := by
  cases result <;> simp [Except.toOption]

theorem eq_ok_get {ε α : Type} {result : Except ε α} (h : result.toOption.isSome) :
    result = .ok (result.toOption.get h) :=
  toOption_eq_some_iff.mp (Option.some_get h).symm

section Rows

variable {ε α β : Type} {items : List α} {results : List β}

theorem forall_mem_of_forall₂ {R : α → β → Prop} {p : α → Prop} (h : List.Forall₂ R items results)
    (hp : ∀ item result, R item result → p item) : ∀ item ∈ items, p item :=
  ((List.forall₂_and_left _ _).mp (h.imp fun item result hR => ⟨hp item result hR, hR⟩)).1

theorem exists_forall₂ {R : α → β → Prop} (h : ∀ item ∈ items, ∃ result, R item result) :
    ∃ results, List.Forall₂ R items results := by
  induction items with
  | nil => exact ⟨[], .nil⟩
  | cons item rest ih =>
    obtain ⟨⟨result, hitem⟩, hrest⟩ := List.forall_mem_cons.mp h
    obtain ⟨results, hresults⟩ := ih hrest
    exact ⟨result :: results, .cons hitem hresults⟩

theorem mapM_eq_some_iff {f : α → Option β} :
    items.mapM f = some results ↔
      List.Forall₂ (fun item result => f item = some result) items results := by
  induction items generalizing results with
  | nil => simp [eq_comm]
  | cons item rest ih =>
    rw [List.mapM_cons, List.forall₂_cons_left_iff]
    constructor
    · intro h
      obtain ⟨result, hitem, h⟩ := Option.bind_eq_some_iff.mp h
      obtain ⟨others, hrest, h⟩ := Option.bind_eq_some_iff.mp h
      exact ⟨result, others, hitem, ih.mp hrest, (Option.some.inj h).symm⟩
    · rintro ⟨result, others, hitem, hrest, rfl⟩
      simp [hitem, ih.mpr hrest]

theorem mapM_eq_ok_iff {f : α → Except ε β} :
    items.mapM f = .ok results ↔
      List.Forall₂ (fun item result => f item = .ok result) items results := by
  induction items generalizing results with
  | nil => simp [pure, Except.pure, eq_comm]
  | cons item rest ih =>
    rw [List.mapM_cons, List.forall₂_cons_left_iff]
    constructor
    · intro h
      obtain ⟨result, hitem, h⟩ := bind_eq_ok_iff.mp h
      obtain ⟨others, hrest, h⟩ := bind_eq_ok_iff.mp h
      exact ⟨result, others, hitem, ih.mp hrest, (Except.ok.inj h).symm⟩
    · rintro ⟨result, others, hitem, hrest, rfl⟩
      exact bind_eq_ok_iff.mpr ⟨_, hitem, bind_eq_ok_iff.mpr ⟨_, ih.mpr hrest, rfl⟩⟩

-- The first item that fails decides the error.
theorem mapM_eq_error_iff {f : α → Except ε β} {error : ε} :
    items.mapM f = .error error ↔ ∃ front item back, items = front ++ item :: back ∧
      (∀ other ∈ front, ∃ result, f other = .ok result) ∧ f item = .error error := by
  induction items with
  | nil => simp [pure, Except.pure]
  | cons item rest ih =>
    rw [List.mapM_cons]
    cases hitem : f item with
    | error failure =>
      constructor
      · intro h
        obtain rfl := Except.error.inj h
        exact ⟨[], item, rest, rfl, by simp, hitem⟩
      · rintro ⟨front, last, back, hsplit, hfront, hlast⟩
        cases front with
        | nil =>
          obtain ⟨rfl, -⟩ := List.cons.inj hsplit
          obtain rfl := Except.error.inj (hitem.symm.trans hlast)
          rfl
        | cons first more =>
          obtain ⟨rfl, -⟩ := List.cons.inj hsplit
          obtain ⟨result, hresult⟩ := hfront item List.mem_cons_self
          cases hitem.symm.trans hresult
    | ok result =>
      have hrest : (Except.ok result >>= fun first => rest.mapM f >>= fun others =>
          pure (first :: others)) = .error error ↔ rest.mapM f = .error error := by
        cases rest.mapM f with
        | error failure => exact ⟨fun h => h, fun h => h⟩
        | ok others => exact ⟨nofun, nofun⟩
      rw [hrest, ih]
      constructor
      · rintro ⟨front, last, back, rfl, hfront, hlast⟩
        exact ⟨item :: front, last, back, rfl,
          List.forall_mem_cons.mpr ⟨⟨result, hitem⟩, hfront⟩, hlast⟩
      · rintro ⟨front, last, back, hsplit, hfront, hlast⟩
        cases front with
        | nil =>
          obtain ⟨rfl, -⟩ := List.cons.inj hsplit
          cases hitem.symm.trans hlast
        | cons first more =>
          obtain ⟨rfl, rfl⟩ := List.cons.inj hsplit
          exact ⟨more, last, back, rfl, (List.forall_mem_cons.mp hfront).2, hlast⟩

end Rows

end BlindToken
