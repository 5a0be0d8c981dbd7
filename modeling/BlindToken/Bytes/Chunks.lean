namespace BlindToken

def chunksFrom {α : Type} (size : Nat) : (fuel : Nat) → List α → List (List α) → List (List α)
  | 0, _, done => done.reverse
  | _ + 1, [], done => done.reverse
  | fuel + 1, items, done => chunksFrom size fuel (items.drop size) (items.take size :: done)

-- The items in pieces of the given size; the last piece may be shorter.
def chunks {α : Type} (size : Nat) (items : List α) : List (List α) :=
  chunksFrom size items.length items []

private theorem chunksFrom_done {α : Type} (size fuel : Nat) (items : List α)
    (done : List (List α)) :
    chunksFrom size fuel items done = done.reverse ++ chunksFrom size fuel items [] := by
  induction fuel generalizing items done with
  | zero => simp [chunksFrom]
  | succ fuel ih =>
    cases items with
    | nil => simp [chunksFrom]
    | cons item rest =>
      simp only [chunksFrom]
      rw [ih _ (_ :: done), ih _ [_]]
      simp

private theorem chunksFrom_fuel {α : Type} (size : Nat) (hsize : 0 < size) (fuel more : Nat)
    (items : List α) (hfuel : items.length ≤ fuel) :
    chunksFrom size (fuel + more) items [] = chunksFrom size fuel items [] := by
  induction fuel generalizing items with
  | zero =>
    obtain rfl := List.length_eq_zero_iff.mp (Nat.le_zero.mp hfuel)
    cases more <;> rfl
  | succ fuel ih =>
    cases items with
    | nil => simp [Nat.succ_add, chunksFrom]
    | cons item rest =>
      rw [Nat.succ_add]
      simp only [chunksFrom]
      rw [chunksFrom_done, chunksFrom_done _ fuel, ih]
      simp only [List.length_drop, List.length_cons] at hfuel ⊢
      omega

@[simp] theorem chunks_nil {α : Type} (size : Nat) : chunks size ([] : List α) = [] := rfl

theorem chunks_of_ne_nil {α : Type} {size : Nat} (hsize : 0 < size) {items : List α}
    (hitems : items ≠ []) :
    chunks size items = items.take size :: chunks size (items.drop size) := by
  obtain ⟨item, rest, rfl⟩ := List.exists_cons_of_ne_nil hitems
  have hlen : rest.length = ((item :: rest).drop size).length + (size - 1)
      ∨ (item :: rest).drop size = [] := by
    rcases Nat.lt_or_ge rest.length (size - 1) with h | h
    · right
      simp
      omega
    · left
      simp
      omega
  simp only [chunks, List.length_cons, chunksFrom]
  rw [chunksFrom_done]
  rcases hlen with h | h
  · rw [h, chunksFrom_fuel size hsize _ _ _ (Nat.le_refl _)]
    rfl
  · rw [h]
    cases rest <;> rfl

end BlindToken
