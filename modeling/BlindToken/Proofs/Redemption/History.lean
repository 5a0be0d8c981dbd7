import Mathlib.Data.Set.Card
import BlindToken.Proofs.Redemption.Mark
import BlindToken.Proofs.Table

namespace BlindToken

-- One call to a store.
structure NonceCall where
  nonce : Nonce
  operation : StoreCall
deriving DecidableEq

-- The operations on one nonce, in their order.
def operations (nonce : Nonce) (calls : List NonceCall) : List StoreCall :=
  (calls.filter (·.nonce = nonce)).map NonceCall.operation

-- Some reservation has not been followed by a release.
def IsHeld (operations : List StoreCall) : Prop :=
  ∃ before later, operations = before ++ .reserve :: later ∧ .release ∉ later

theorem not_isHeld_nil : ¬IsHeld [] := by
  rintro ⟨before, later, hnil, -⟩
  simp at hnil

theorem isHeld_concat {operations : List StoreCall} {last : StoreCall} :
    IsHeld (operations ++ [last]) ↔ last = .reserve ∨ last ≠ .release ∧ IsHeld operations := by
  constructor
  · rintro ⟨before, later, heq, hrelease⟩
    rcases List.eq_nil_or_concat later with rfl | ⟨later, final, rfl⟩
    · exact .inl (List.singleton_inj.mp (List.append_inj_right' heq rfl))
    · rw [List.concat_eq_append] at heq hrelease
      rw [← List.cons_append, ← List.append_assoc] at heq
      obtain ⟨rfl, hlast⟩ := List.append_inj' heq rfl
      obtain rfl := List.singleton_inj.mp hlast
      rw [List.mem_append, List.mem_singleton, not_or] at hrelease
      exact .inr ⟨Ne.symm hrelease.2, before, later, rfl, hrelease.1⟩
  · rintro (rfl | ⟨hlast, before, later, rfl, hrelease⟩)
    · exact ⟨operations, [], rfl, List.not_mem_nil⟩
    · refine ⟨before, later ++ [last], by simp, ?_⟩
      rw [List.mem_append, List.mem_singleton, not_or]
      exact ⟨hrelease, Ne.symm hlast⟩

namespace NonceMark

-- The mark of a nonce after operations on it.
def history (mark : Option NonceMark) (operations : List StoreCall) : Option NonceMark :=
  operations.foldl (fun mark operation => called operation mark) mark

theorem history_concat (mark : Option NonceMark) (operations : List StoreCall)
    (last : StoreCall) :
    history mark (operations ++ [last]) = called last (history mark operations) :=
  List.foldl_concat ..

-- Nothing undoes that a nonce has been stored.
theorem history_eq_stored_iff (operations : List StoreCall) :
    history none operations = some .stored ↔ .store ∈ operations := by
  induction operations using List.reverseRecOn with
  | nil => simp [history]
  | append_singleton before last ih =>
    rw [history_concat, List.mem_append, List.mem_singleton, ← ih]
    cases last <;> cases hmark : history none before with
    | none => simp [called, reserve, release]
    | some held => cases held <;> simp [called, reserve, release]

-- A nonce that has not been stored is known from a reservation to the next release.
theorem history_ne_none_iff (operations : List StoreCall) :
    history none operations ≠ none ↔ .store ∈ operations ∨ IsHeld operations := by
  induction operations using List.reverseRecOn with
  | nil => simp [history, not_isHeld_nil]
  | append_singleton before last ih =>
    have hstored := history_eq_stored_iff before
    rw [history_concat, List.mem_append, List.mem_singleton, isHeld_concat]
    cases last with
    | contains => simpa [called] using ih
    | reserve => cases hmark : history none before <;> simp [called, reserve]
    | store => simp [called]
    | release =>
      cases hmark : history none before with
      | none => simpa [called, release, hmark] using hstored
      | some held => cases held <;> simpa [called, release, hmark] using hstored

end NonceMark

namespace NonceStore

-- What the store returns to the call. Only two of the operations return anything.
def answer (store : NonceStore) (call : NonceCall) : Option Bool :=
  (call.operation.run store call.nonce).1

def run (store : NonceStore) (calls : List NonceCall) : NonceStore :=
  calls.foldl (fun store call => (call.operation.run store call.nonce).2) store

variable (store : NonceStore) (calls : List NonceCall) (nonce : Nonce)

theorem answer_contains : store.answer ⟨nonce, .contains⟩ = some (store.mark nonce).isSome := rfl

theorem answer_reserve : store.answer ⟨nonce, .reserve⟩ = some (store.mark nonce).isNone :=
  congrArg some (store.reserve_fst nonce)

-- A call for another nonce does not change the mark.
theorem mark_run :
    (store.run calls).mark nonce = NonceMark.history (store.mark nonce) (operations nonce calls) := by
  induction calls generalizing store with
  | nil => rfl
  | cons call rest ih =>
    have hmark := call.operation.mark_run store call.nonce nonce
    rw [run, List.foldl_cons, ← run, ih, hmark]
    by_cases hown : call.nonce = nonce
    · subst hown
      simp [operations, NonceMark.history]
    · simp [operations, hown, Ne.symm hown]

theorem mark_run_filter :
    (store.run calls).mark nonce = (store.run (calls.filter (·.nonce = nonce))).mark nonce := by
  rw [mark_run, mark_run, operations, operations, List.filter_filter]
  simp only [Bool.and_self]

theorem mem_operations_iff (operation : StoreCall) :
    operation ∈ operations nonce calls ↔ ⟨nonce, operation⟩ ∈ calls := by
  simp only [operations, List.mem_map, List.mem_filter, decide_eq_true_eq]
  constructor
  · rintro ⟨call, ⟨hcall, rfl⟩, rfl⟩
    exact hcall
  · exact fun hcall => ⟨_, ⟨hcall, rfl⟩, rfl⟩

theorem operations_append (first second : List NonceCall) :
    operations nonce (first ++ second) = operations nonce first ++ operations nonce second := by
  simp only [operations, List.filter_append, List.map_append]

theorem mark_run_stored_iff :
    (empty.run calls).mark nonce = some .stored ↔ ⟨nonce, .store⟩ ∈ calls := by
  rw [mark_run, ← mem_operations_iff]
  exact NonceMark.history_eq_stored_iff _

theorem mark_run_ne_none_iff :
    (empty.run calls).mark nonce ≠ none ↔
      ⟨nonce, .store⟩ ∈ calls ∨ IsHeld (operations nonce calls) := by
  rw [mark_run, ← mem_operations_iff]
  exact NonceMark.history_ne_none_iff _

-- What is reserved is known until it is released, so it cannot be reserved again before that.
theorem release_mem_of_absent {before between : List NonceCall} {nonce : Nonce}
    (habsent : (empty.run (before ++ ⟨nonce, .reserve⟩ :: between)).mark nonce = none) :
    ⟨nonce, .release⟩ ∈ between ∧ ⟨nonce, .store⟩ ∉ between := by
  obtain ⟨hstore, hheld⟩ := not_or.mp (mt (mark_run_ne_none_iff _ _).mpr (not_not.mpr habsent))
  have hsplit : operations nonce (before ++ ⟨nonce, .reserve⟩ :: between) =
      operations nonce before ++ .reserve :: operations nonce between := by
    rw [operations_append]
    simp [operations]
  constructor
  · rw [← mem_operations_iff]
    exact not_not.mp fun hrelease => hheld ⟨_, _, hsplit, hrelease⟩
  · exact fun hbetween => hstore (List.mem_append_right _ (List.mem_cons_of_mem _ hbetween))

-- No nonce stands in a store twice.
theorem encard_known : {nonce | store.answer ⟨nonce, .contains⟩ = some true}.encard = store.size := by
  have hknown : {nonce | store.answer ⟨nonce, .contains⟩ = some true} =
      ((store.marks.entries.map Prod.fst).toFinset : Set Nonce) := by
    ext nonce
    simp only [Set.mem_ofPred_eq, List.coe_toFinset, store.marks.mem_keys_iff, answer_contains,
      Option.some.injEq, Option.isSome_iff_exists]
    rfl
  rw [hknown, Set.encard_coe_eq_coe_finsetCard, List.toFinset_card_of_nodup store.marks.nodup,
    List.length_map]
  rfl

end NonceStore

namespace StoreHandle

variable {name : Type} [DecidableEq name]

-- The store that all calls are passed on to in the end.
def target : StoreHandle name → name
  | store name => name
  | shared handle => handle.target

def run (stores : NonceStores name) (calls : List (StoreHandle name × NonceCall)) :
    NonceStores name :=
  calls.foldl (fun stores call => (call.1.call stores call.2.nonce call.2.operation).2) stores

theorem call_eq (handle : StoreHandle name) (stores : NonceStores name) (call : NonceCall) :
    handle.call stores call.nonce call.operation =
      ((stores.get handle.target).answer call,
        stores.put handle.target ((stores.get handle.target).run [call])) := by
  induction handle with
  | store name => rfl
  | shared handle ih => exact ih

-- A store that is called through handles has seen the calls of all handles that point to it.
theorem get_run (stores : NonceStores name) (calls : List (StoreHandle name × NonceCall))
    (store : name) :
    (run stores calls).get store =
      (stores.get store).run ((calls.filter (·.1.target = store)).map Prod.snd) := by
  induction calls generalizing stores with
  | nil => rfl
  | cons call rest ih =>
    obtain ⟨handle, call⟩ := call
    rw [run, List.foldl_cons, ← run, ih, call_eq, NonceStores.get_put]
    by_cases hown : handle.target = store
    · subst hown
      simp [NonceStore.run]
    · simp [hown, Ne.symm hown]

end StoreHandle

-- What is known of a nonce after any calls depends on the calls for this nonce alone, a stored
-- nonce stays, reservations of one nonce are apart from each other, and all this is seen through
-- every handle of a store.
theorem nonce_histories {name : Type} [DecidableEq name] :
    let after := NonceStore.empty.run
    (∀ calls nonce,
      (after calls).mark nonce = (after (calls.filter (·.nonce = nonce))).mark nonce) ∧
    (∀ before nonce later,
      let stored := after (before ++ ⟨nonce, .store⟩ :: later)
      stored.answer ⟨nonce, .contains⟩ = some true ∧
        stored.answer ⟨nonce, .reserve⟩ = some false) ∧
    (∀ before nonce between,
      (after before).answer ⟨nonce, .reserve⟩ = some true →
      (after (before ++ ⟨nonce, .reserve⟩ :: between)).answer ⟨nonce, .reserve⟩ = some true →
      ⟨nonce, .release⟩ ∈ between ∧ ⟨nonce, .store⟩ ∉ between) ∧
    (∀ calls nonce, (after calls).answer ⟨nonce, .reserve⟩ = some true ↔
      (after calls).answer ⟨nonce, .contains⟩ = some false) ∧
    (∀ calls,
      {nonce | (after calls).answer ⟨nonce, .contains⟩ = some true}.encard = (after calls).size) ∧
    ∀ (calls : List (StoreHandle name × NonceCall)) (handle : StoreHandle name),
      let shared := StoreHandle.run .empty calls
      let direct := after ((calls.filter (·.1.target = handle.target)).map Prod.snd)
      shared.get handle.target = direct ∧
        ∀ call, (handle.call shared call.nonce call.operation).1 = direct.answer call := by
  intro after
  refine ⟨fun calls nonce => NonceStore.mark_run_filter _ calls nonce, ?_, ?_, ?_,
    fun calls => (after calls).encard_known, ?_⟩
  · intro before nonce later stored
    have hmark : stored.mark nonce = some .stored :=
      (NonceStore.mark_run_stored_iff _ nonce).mpr (by simp)
    exact ⟨by rw [NonceStore.answer_contains, hmark]; rfl,
      by rw [NonceStore.answer_reserve, hmark]; rfl⟩
  · intro before nonce between _ hlast
    rw [NonceStore.answer_reserve, Option.some.injEq, Option.isNone_iff_eq_none] at hlast
    exact NonceStore.release_mem_of_absent hlast
  · intro calls nonce
    simp [NonceStore.answer_reserve, NonceStore.answer_contains]
  · intro calls handle shared direct
    have hshared : shared.get handle.target = direct := StoreHandle.get_run .empty calls _
    exact ⟨hshared, fun call => by rw [StoreHandle.call_eq, hshared]⟩

end BlindToken
