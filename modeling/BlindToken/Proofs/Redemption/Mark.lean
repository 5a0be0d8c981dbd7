import BlindToken.Redemption.Verifier

namespace BlindToken

namespace NonceMark

-- A nonce that has a mark keeps it.
def reserve (mark : Option NonceMark) : Option NonceMark := mark.or (some .reserved)

-- Only a reservation is undone.
def release : Option NonceMark → Option NonceMark
  | some .reserved => none
  | mark => mark

-- What the next step of a verification makes of the mark of its nonce.
def after : Progress → Option NonceMark → Option NonceMark
  | .reserving, mark => reserve mark
  | .storing, _ => some .stored
  | .releasing, mark => release mark
  | .answered _, mark => mark

-- What a call from outside makes of the mark of its nonce.
def called : StoreCall → Option NonceMark → Option NonceMark
  | .contains, mark => mark
  | .reserve, mark => reserve mark
  | .store, _ => some .stored
  | .release, mark => release mark

end NonceMark

-- Where a verification stands after its next step, for a genuine authenticator or a forged one.
def Progress.next (genuine : Bool) : Progress → Option NonceMark → Progress
  | .reserving, none => if genuine then .storing else .releasing
  | .reserving, some _ => .answered false
  | .storing, _ => .answered true
  | .releasing, _ => .answered false
  | .answered valid, _ => .answered valid

namespace NonceStore

def mark (store : NonceStore) (nonce : Nonce) : Option NonceMark := store.marks.get? nonce

theorem contains_eq (store : NonceStore) (nonce : Nonce) :
    store.contains nonce = (store.mark nonce).isSome := rfl

theorem reserve_fst (store : NonceStore) (nonce : Nonce) :
    (store.reserve nonce).1 = (store.mark nonce).isNone := by
  unfold reserve mark
  split <;> simp [*]

theorem mark_reserve (store : NonceStore) (nonce wanted : Nonce) :
    (store.reserve nonce).2.mark wanted =
      if wanted = nonce then NonceMark.reserve (store.mark nonce) else store.mark wanted := by
  unfold reserve mark
  split
  · rename_i hmark
    simp only [Table.get?_insert, hmark, NonceMark.reserve, Option.none_or]
  · rename_i held hmark
    by_cases h : wanted = nonce
    · simp [h, hmark, NonceMark.reserve]
    · simp [h]

theorem mark_store (store : NonceStore) (nonce wanted : Nonce) :
    (store.store nonce).mark wanted = if wanted = nonce then some .stored else store.mark wanted :=
  Table.get?_insert _ _ _ _

theorem mark_release (store : NonceStore) (nonce wanted : Nonce) :
    (store.release nonce).mark wanted =
      if wanted = nonce then NonceMark.release (store.mark nonce) else store.mark wanted := by
  unfold release mark
  split
  · rename_i hmark
    simp only [Table.get?_erase, hmark, NonceMark.release]
  · rename_i hmark
    by_cases h : wanted = nonce
    · subst h
      simp only [if_true]
      unfold NonceMark.release
      split
      · contradiction
      · rfl
    · simp [h]

end NonceStore

theorem StoreCall.mark_run (operation : StoreCall) (store : NonceStore) (nonce wanted : Nonce) :
    (operation.run store nonce).2.mark wanted =
      if wanted = nonce then NonceMark.called operation (store.mark nonce)
      else store.mark wanted := by
  cases operation with
  | contains =>
    by_cases h : wanted = nonce
    · simp [run, NonceMark.called, h]
    · simp [run, h]
  | reserve => exact NonceStore.mark_reserve store nonce wanted
  | store => exact NonceStore.mark_store store nonce wanted
  | release => exact NonceStore.mark_release store nonce wanted

namespace NonceStores

variable {name : Type} [DecidableEq name]

def mark (stores : NonceStores name) (store : name) (nonce : Nonce) : Option NonceMark :=
  (stores.get store).mark nonce

theorem mark_empty (store : name) (nonce : Nonce) :
    (empty : NonceStores name).mark store nonce = none := rfl

-- A store that is put back with another mark for one nonce differs in that mark alone.
theorem mark_put (stores : NonceStores name) (changed wanted : name) (store : NonceStore)
    (nonce other : Nonce) (mark : Option NonceMark)
    (hstore : ∀ other, store.mark other =
      if other = nonce then mark else stores.mark changed other) :
    (stores.put changed store).mark wanted other =
      if wanted = changed ∧ other = nonce then mark else stores.mark wanted other := by
  unfold NonceStores.mark
  rw [get_put]
  by_cases h : wanted = changed
  · subst h
    simp only [if_true, true_and]
    exact hstore other
  · simp [h]

end NonceStores

namespace Verification

variable {name : Type} [DecidableEq name]

-- The verification is of a token with the nonce, at a verifier that uses the store.
def Concerns (verification : Verification name) (store : name) (nonce : Nonce) : Prop :=
  store = verification.verifier.store ∧ nonce = verification.token.nonce

instance (verification : Verification name) (store : name) (nonce : Nonce) :
    Decidable (verification.Concerns store nonce) := by
  unfold Concerns
  infer_instance

def mark (verification : Verification name) (stores : NonceStores name) : Option NonceMark :=
  stores.mark verification.verifier.store verification.token.nonce

theorem Concerns.mark_eq {verification : Verification name} {store : name} {nonce : Nonce}
    (h : verification.Concerns store nonce) (stores : NonceStores name) :
    verification.mark stores = stores.mark store nonce := by
  obtain ⟨rfl, rfl⟩ := h
  rfl

theorem step_fst (verification : Verification name) (stores : NonceStores name) :
    (verification.step stores).1 = { verification with
      progress := verification.progress.next
        (verification.verifier.publicKey.authenticates verification.token)
        (verification.mark stores) } := by
  obtain ⟨verifier, token, progress⟩ := verification
  cases progress with
  | reserving =>
    have hwon := (stores.get verifier.store).reserve_fst token.nonce
    simp only [step, hwon]
    cases hmark : (stores.get verifier.store).mark token.nonce <;>
      simp [Progress.next, mark, NonceStores.mark, hmark]
  | storing => rfl
  | releasing => rfl
  | answered valid => rfl

theorem concerns_step {verification : Verification name} {store : name} {nonce : Nonce}
    (stores : NonceStores name) :
    (verification.step stores).1.Concerns store nonce ↔ verification.Concerns store nonce := by
  rw [step_fst]
  rfl

theorem mark_step (verification : Verification name) (stores : NonceStores name) (store : name)
    (nonce : Nonce) :
    (verification.step stores).2.mark store nonce =
      if verification.Concerns store nonce then
        NonceMark.after verification.progress (verification.mark stores)
      else stores.mark store nonce := by
  obtain ⟨verifier, token, progress⟩ := verification
  cases progress with
  | reserving => exact stores.mark_put _ _ _ _ _ _ (NonceStore.mark_reserve _ _)
  | storing => exact stores.mark_put _ _ _ _ _ _ (NonceStore.mark_store _ _)
  | releasing => exact stores.mark_put _ _ _ _ _ _ (NonceStore.mark_release _ _)
  | answered valid =>
    by_cases h : store = verifier.store ∧ nonce = token.nonce
    · obtain ⟨rfl, rfl⟩ := h
      simp [step, Concerns, NonceMark.after, mark]
    · simp [step, Concerns, h]

end Verification

end BlindToken
