import Mathlib.Data.Set.Function
import BlindToken.Proofs.Issuance.Redemption

namespace BlindToken

namespace Tally

-- All there can be to a nonce that only verifications use, by its mark before they began.
inductive Accounts : Option NonceMark → Tally → Prop where
  | foreign (mark : NonceMark) : Accounts (some mark) ⟨some mark, 0, 0⟩
  | unused : Accounts none ⟨none, 0, 0⟩
  | reserved : Accounts none ⟨some .reserved, 1, 0⟩
  | spent : Accounts none ⟨some .stored, 0, 1⟩

section Accounts

variable {initial : Option NonceMark} {tally : Tally} (h : Accounts initial tally)

include h

theorem Accounts.reserved_iff :
    (tally.mark = some .reserved ∧ initial ≠ some .reserved) ↔ 0 < tally.holders := by
  cases h <;> simp

theorem Accounts.stored_iff :
    tally.mark = some .stored ↔ initial = some .stored ∨ 0 < tally.accepted := by
  cases h <;> simp

theorem Accounts.holders_le_one : tally.holders ≤ 1 := by
  cases h <;> simp

theorem Accounts.accepted_le_one : tally.accepted ≤ 1 := by
  cases h <;> simp

theorem Accounts.of_known (hinitial : initial = none) (hmark : tally.mark ≠ none) :
    0 < tally.holders ∨ 0 < tally.accepted := by
  cases h <;> simp_all

theorem Accounts.mark_of_initial {mark : NonceMark} (hinitial : initial = some mark) :
    tally.mark = some mark := by
  cases h <;> simp_all

theorem Accounts.accepted_of_initial (hinitial : initial ≠ none) : tally.accepted = 0 := by
  cases h <;> simp_all

theorem Accounts.mark_of_free (hfree : tally.holders = 0) :
    tally.mark = if 0 < tally.accepted then some .stored else initial := by
  cases h <;> simp_all

end Accounts

theorem Step.accounts {initial : Option NonceMark} {before after : Tally} (h : Step before after)
    (hbefore : Accounts initial before) : Accounts initial after := by
  obtain ⟨mark, holders, accepted⟩ := after
  cases h with
  | idle hmark hholders haccepted =>
    obtain rfl : Tally.mk mark holders accepted = before := Tally.ext hmark hholders haccepted
    exact hbefore
  | win habsent hmark hholders haccepted =>
    cases hbefore with
    | unused =>
      obtain ⟨rfl, rfl, rfl⟩ := And.intro hmark (And.intro hholders haccepted)
      exact .reserved
    | foreign | reserved | spent => simp at habsent
  | commit hmark hholders haccepted =>
    cases hbefore with
    | reserved =>
      obtain ⟨rfl, hfree, rfl⟩ := And.intro hmark (And.intro hholders haccepted)
      obtain rfl : holders = 0 := by simpa using hfree
      exact .spent
    | foreign | unused | spent => simp at hholders
  | abort hmark hholders haccepted =>
    cases hbefore with
    | reserved =>
      obtain ⟨rfl, hfree, rfl⟩ := And.intro hmark (And.intro hholders haccepted)
      obtain rfl : holders = 0 := by simpa using hfree
      exact .unused
    | foreign | unused | spent => simp at hholders

end Tally

-- The store that the verification asks, and the nonce that it asks for.
def Verification.entry {name : Type} (verification : Verification name) : name × Nonce :=
  (verification.verifier.store, verification.token.nonce)

namespace Redemptions

variable {name : Type} [DecidableEq name]

theorem accounts_run (initial : NonceStores name) {events : List (Event name)}
    (hinside : ∀ event ∈ events, ¬event.IsOutside) (store : name) (nonce : Nonce) :
    Tally.Accounts (initial.mark store nonce)
      (((ofStores initial).run events).tally store nonce) := by
  refine (along_of_forall _ hinside).run_invariant
    (fun current => Tally.Accounts (initial.mark store nonce) (current.tally store nonce)) ?_ ?_
  · intro current event hcurrent hevent
    exact (current.tally_own hevent store nonce).accounts hcurrent
  · rw [tally_ofStores]
    cases initial.mark store nonce with
    | none => exact .unused
    | some mark => exact .foreign mark

-- Without releases by callers no task is ever marked as recovered.
theorem caller_ne_recovered (current : Redemptions name) {event : Event name}
    (hinside : ¬event.IsOutside) (hcurrent : ∀ task ∈ current.tasks, task.caller ≠ .recovered) :
    ∀ task ∈ (current.apply event).tasks, task.caller ≠ .recovered := by
  intro task htask
  cases event with
  | start verifier token =>
    rcases List.mem_append.mp htask with hold | hnew
    · exact hcurrent task hold
    · obtain rfl := List.mem_singleton.mp hnew
      simp
  | resume index =>
    rcases current.resume_cases index with hsame | ⟨old, hcaller, hreplaces⟩
    · exact hcurrent task (hsame ▸ htask)
    · rcases hreplaces.mem_tasks htask with hold | rfl
      · exact hcurrent task hold
      · simp [hcaller]
  | drop index =>
    rcases current.drop_cases index with hsame | ⟨old, -, -, hreplaces⟩
    · exact hcurrent task (hsame ▸ htask)
    · rcases hreplaces.mem_tasks htask with hold | rfl
      · exact hcurrent task hold
      · simp
  | recover index => exact absurd trivial hinside
  | call changed other operation => exact absurd trivial hinside

theorem holds_iff_hasReserved (initial : NonceStores name) {events : List (Event name)}
    (hinside : ∀ event ∈ events, ¬event.IsOutside) {task : Task name}
    (htask : task ∈ ((ofStores initial).run events).tasks) : task.Holds ↔ task.HasReserved := by
  have hcaller := (along_of_forall (ofStores initial) hinside).run_invariant
    (fun current => ∀ task ∈ current.tasks, task.caller ≠ .recovered)
    (fun current event hcurrent hevent => current.caller_ne_recovered hevent hcurrent)
    (by simp [ofStores])
  simp [Task.Holds, hcaller task htask]

private theorem not_lt_of_countP_le_one {α : Type} {p : α → Bool} {items : List α}
    (hcount : items.countP p ≤ 1) {first second : Nat} (hfirst : first < items.length)
    (hsecond : second < items.length) (hp : p items[first]) (hq : p items[second]) :
    ¬first < second := by
  intro hlt
  have hsplit := congrArg (List.countP p) (List.take_append_drop second items)
  have hbefore : 0 < (items.take second).countP p :=
    List.countP_pos_iff.mpr ⟨items[first], List.mem_take_iff_getElem.mpr ⟨first, by omega, rfl⟩, hp⟩
  have hafter : 0 < (items.drop second).countP p :=
    List.countP_pos_iff.mpr
      ⟨items[second], List.mem_drop_iff_getElem.mpr ⟨0, by omega, by simp⟩, hq⟩
  rw [List.countP_append] at hsplit
  omega

-- Where at most one item has the property, it stands in one place.
theorem index_eq_of_countP_le_one {α : Type} {p : α → Bool} {items : List α}
    (hcount : items.countP p ≤ 1) {first second : Nat} (hfirst : first < items.length)
    (hsecond : second < items.length) (hp : p items[first]) (hq : p items[second]) :
    first = second := by
  have hle := not_lt_of_countP_le_one hcount hsecond hfirst hq hp
  have hge := not_lt_of_countP_le_one hcount hfirst hsecond hp hq
  omega

-- A reservation that was not there before belongs to one verification.
theorem bijOn_entry (initial : NonceStores name) {events : List (Event name)}
    (hinside : ∀ event ∈ events, ¬event.IsOutside) :
    let final := (ofStores initial).run events
    Set.BijOn (fun index : Fin final.tasks.length => final.tasks[index].entry)
      {index | final.tasks[index].HasReserved}
      {entry | final.stores.mark entry.1 entry.2 = some .reserved ∧
        initial.mark entry.1 entry.2 ≠ some .reserved} := by
  intro final
  have haccounts := accounts_run initial hinside
  have hholds {task : Task name} (htask : task ∈ final.tasks) : task.Holds ↔ task.HasReserved :=
    holds_iff_hasReserved initial hinside htask
  refine ⟨?_, ?_, ?_⟩
  · intro index hreserved
    have htask : final.tasks[index] ∈ final.tasks := List.getElem_mem index.isLt
    refine (haccounts _ _).reserved_iff.mpr ((holders_pos_iff final _ _).mpr ?_)
    exact ⟨_, htask, ⟨rfl, rfl⟩, (hholds htask).mpr hreserved⟩
  · intro first hfirst second hsecond hentry
    have hcount := (haccounts final.tasks[first].verifier.store
      final.tasks[first].token.nonce).holders_le_one
    have hconcerns : final.tasks[second].Concerns final.tasks[first].verifier.store
        final.tasks[first].token.nonce := Prod.mk.inj hentry
    refine Fin.ext (index_eq_of_countP_le_one hcount first.isLt second.isLt ?_ ?_)
    · exact decide_eq_true ⟨⟨rfl, rfl⟩, (hholds (List.getElem_mem _)).mpr hfirst⟩
    · exact decide_eq_true ⟨hconcerns, (hholds (List.getElem_mem _)).mpr hsecond⟩
  · rintro ⟨store, nonce⟩ hmark
    obtain ⟨task, htask, ⟨rfl, rfl⟩, hheld⟩ :=
      (holders_pos_iff final _ _).mp ((haccounts store nonce).reserved_iff.mp hmark)
    obtain ⟨index, hindex, rfl⟩ := List.mem_iff_getElem.mp htask
    exact ⟨⟨index, hindex⟩, (hholds htask).mp hheld, rfl⟩

theorem holders_eq_zero {current : Redemptions name}
    (hanswered : ∀ task ∈ current.tasks, task.progress.isAnswer) (store : name) (nonce : Nonce) :
    current.holders store nonce = 0 := by
  refine Nat.eq_zero_of_not_pos fun hpos => ?_
  obtain ⟨task, htask, -, hheld | hheld, -⟩ := (holders_pos_iff current store nonce).mp hpos
  · simpa [hheld, Progress.isAnswer] using hanswered task htask
  · simpa [hheld, Progress.isAnswer] using hanswered task htask

-- While only verifications use the stores, the new reservations are exactly those of verifications
-- between their two calls, the new stored nonces are exactly the accepted ones, and no mark from
-- before is touched.
theorem reservations_accounted (initial : NonceStores name) (events : List (Event name))
    (hinside : ∀ event ∈ events, ¬event.IsOutside) :
    let final := (ofStores initial).run events
    Set.BijOn (fun index : Fin final.tasks.length => final.tasks[index].entry)
        {index | final.tasks[index].HasReserved}
        {entry | final.stores.mark entry.1 entry.2 = some .reserved ∧
          initial.mark entry.1 entry.2 ≠ some .reserved} ∧
      (∀ store nonce, final.stores.mark store nonce = some .stored ↔
        initial.mark store nonce = some .stored ∨
          ∃ task ∈ final.tasks, task.Concerns store nonce ∧ task.progress = .answered true) ∧
      (∀ store nonce mark, initial.mark store nonce = some mark →
        final.stores.mark store nonce = some mark) ∧
      ((∀ task ∈ final.tasks, task.progress.isAnswer) →
        ∀ store nonce, final.stores.mark store nonce =
          if ∃ task ∈ final.tasks, task.Concerns store nonce ∧ task.progress = .answered true
          then some .stored else initial.mark store nonce) := by
  intro final
  have haccounts := accounts_run initial hinside
  refine ⟨bijOn_entry initial hinside, ?_, ?_, ?_⟩
  · intro store nonce
    rw [← accepted_pos_iff]
    exact (haccounts store nonce).stored_iff
  · intro store nonce mark hmark
    exact (haccounts store nonce).mark_of_initial hmark
  · intro hanswered store nonce
    simp only [← accepted_pos_iff]
    exact (haccounts store nonce).mark_of_free (holders_eq_zero hanswered store nonce)

-- A verification that is dropped where it would store its nonce, while another one waits.
theorem smooth_reservation_accounted :
    let events : List (Event Unit) :=
      [.start smoothVerifier smoothToken, .resume 0, .start smoothVerifier smoothToken, .drop 0]
    (∀ event ∈ events, ¬event.IsOutside) ∧
      ((ofStores .empty).run events).stores.mark () smoothToken.nonce = some .reserved := by
  intro events
  have hinside : ∀ event ∈ events, ¬event.IsOutside := by simp [events, Event.IsOutside]
  refine ⟨hinside, ?_⟩
  obtain ⟨task, hfound, hown, hprogress, -⟩ :=
    exists_dropped (ofStores .empty) smoothToken_genuine (NonceStores.mark_empty _ _)
      (length_ofStores .empty)
  obtain ⟨hindex, htask⟩ := List.getElem?_eq_some_iff.mp hfound
  have hreserved : ((ofStores .empty).run events).tasks[0].HasReserved := by
    rw [htask]
    exact .inl hprogress
  have hentry : ((ofStores .empty).run events).tasks[0].entry = ((), smoothToken.nonce) := by
    rw [htask]
    exact Prod.ext rfl hown.2.symm
  obtain ⟨hmark, -⟩ :=
    (reservations_accounted .empty events hinside).1.mapsTo (x := ⟨0, hindex⟩) hreserved
  simpa only [Fin.getElem_fin, hentry] using hmark

end Redemptions

end BlindToken
