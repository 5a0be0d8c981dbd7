import BlindToken.Proofs.Redemption.Forgery
import BlindToken.Proofs.Table

namespace BlindToken

namespace NonceStores

variable {name : Type} [DecidableEq name]

-- Every store has the same entries. Their order is not part of a store.
def Same (first second : NonceStores name) : Prop :=
  ∀ store, (first.get store).marks.entries.Perm (second.get store).marks.entries

theorem same_iff {first second : NonceStores name} :
    first.Same second ↔ ∀ store nonce, first.mark store nonce = second.mark store nonce :=
  forall_congr' fun _ => Table.entries_perm_iff

end NonceStores

namespace Progress

-- How many calls to the store can still come.
def callsLeft : Progress → Nat
  | reserving => 2
  | storing => 1
  | releasing => 1
  | answered _ => 0

theorem callsLeft_le (progress : Progress) : progress.callsLeft ≤ 2 := by
  cases progress <;> simp [callsLeft]

theorem callsLeft_next_le {progress : Progress} {calls : Nat} (h : progress.callsLeft ≤ calls + 1)
    (genuine : Bool) (mark : Option NonceMark) :
    (progress.next genuine mark).callsLeft ≤ calls := by
  cases progress with
  | reserving => cases mark <;> cases genuine <;> simp_all [next, callsLeft]
  | storing | releasing | answered => simp [next, callsLeft]

theorem isAnswer_of_callsLeft {progress : Progress} (h : progress.callsLeft ≤ 0) :
    progress.isAnswer := by
  cases progress with
  | answered valid => rfl
  | reserving | storing | releasing => simp [callsLeft] at h

end Progress

namespace Task

variable {name : Type} [DecidableEq name] {task : Task name} {calls : Nat}

-- The caller waits, and the answer is at most so many steps away.
structure Within (calls : Nat) (task : Task name) : Prop where
  waiting : task.caller = .waiting
  near : task.progress.callsLeft ≤ calls

theorem Within.next (h : task.Within (calls + 1)) (stores : NonceStores name) :
    (task.advance stores).Within calls := by
  refine ⟨h.waiting, ?_⟩
  rw [advance_eq]
  exact Progress.callsLeft_next_le h.near _ _

theorem Within.advance (h : task.Within calls) (stores : NonceStores name) :
    (task.advance stores).Within calls :=
  Within.next ⟨h.waiting, Nat.le_succ_of_le h.near⟩ stores

end Task

namespace Redemptions

variable {name : Type} [DecidableEq name] {current : Redemptions name}
  {initial : NonceStores name} {asked : List (Verifier name × Token)} {events : List (Event name)}
  {store : name} {nonce : Nonce} {index calls : Nat}

-- A verification that is resumed somewhere in a run comes a step nearer to its answer.
theorem found_resumed (hgoes : ∀ event ∈ events, event.GoesOn) (hresumed : .resume index ∈ events)
    (hfound : ∃ task, current.tasks[index]? = some task ∧ task.Within (calls + 1)) :
    ∃ task, (current.run events).tasks[index]? = some task ∧ task.Within calls := by
  obtain ⟨before, after, rfl⟩ := List.append_of_mem hresumed
  obtain ⟨hbefore, hafter⟩ := List.forall_mem_append.mp hgoes
  obtain ⟨task, htask, hnear⟩ := found_run (fun _ stores h => h.advance stores) hbefore hfound
  have hnext := (replaces_advance htask hnear.waiting).found_new
  rw [run_append, run_cons]
  exact found_run (fun _ stores h => h.advance stores) (List.forall_mem_cons.mp hafter).2
    ⟨_, hnext, hnear.next _⟩

-- The events start each of the verifications once, in any order, and take all of them to their
-- answers; nobody drops or disturbs one.
structure Completes (initial : NonceStores name) (asked : List (Verifier name × Token))
    (events : List (Event name)) : Prop where
  goesOn : ∀ event ∈ events, event.GoesOn
  starts : (events.flatMap Event.asked).Perm asked
  answered : ∀ task ∈ ((ofStores initial).run events).tasks, task.progress.isAnswer

-- The verification in this place is one of the nonce and has returned true.
def Accepts (current : Redemptions name) (index : Nat) (store : name) (nonce : Nonce) : Prop :=
  (∃ task, current.tasks[index]? = some task ∧ task.Concerns store nonce) ∧
    current.answer? index = some true

-- Every verification that has been started is at most two steps away from its answer.
theorem Steady.exists_within {mark : Option NonceMark} (h : Steady mark store nonce current)
    (hindex : index < current.tasks.length) :
    ∃ task, current.tasks[index]? = some task ∧ task.Within 2 := by
  have hfound := List.getElem?_eq_getElem hindex
  exact ⟨_, hfound, (h.undisturbed hfound).waiting, Progress.callsLeft_le _⟩

theorem length_run (initial : NonceStores name) (hgoes : ∀ event ∈ events, event.GoesOn) :
    ((ofStores initial).run events).tasks.length = (events.flatMap Event.asked).length := by
  have hasked := congrArg List.length (asked_run (ofStores initial) hgoes)
  simpa [length_ofStores] using hasked

-- Two turns are enough for any verifications.
theorem completes_turns (initial : NonceStores name) (asked : List (Verifier name × Token)) :
    let turn := (List.range asked.length).map Event.resume
    Completes initial asked (asked.map (fun ask => Event.start ask.1 ask.2) ++ turn ++ turn) := by
  intro turn
  let starts : List (Event name) := asked.map fun ask => Event.start ask.1 ask.2
  have hstarts : ∀ event ∈ starts, event.GoesOn :=
    List.forall_mem_map.mpr fun _ _ => trivial
  have hturn : ∀ event ∈ turn, event.GoesOn :=
    List.forall_mem_map.mpr fun _ _ => trivial
  have hgoes : ∀ event ∈ starts ++ turn ++ turn, event.GoesOn :=
    List.forall_mem_append.mpr ⟨List.forall_mem_append.mpr ⟨hstarts, hturn⟩, hturn⟩
  have hasked : starts.flatMap Event.asked = asked := by
    simp [starts, List.flatMap_map, Event.asked]
  have hall : (starts ++ turn ++ turn).flatMap Event.asked = asked := by
    simp [hasked, turn, List.flatMap_map, Event.asked]
  have hlength : ((ofStores initial).run starts).tasks.length = asked.length := by
    rw [length_run initial hstarts, hasked]
  refine ⟨hgoes, .of_eq hall, fun task htask => ?_⟩
  obtain ⟨index, hindex⟩ := List.mem_iff_getElem?.mp htask
  have hlt : index < asked.length := by
    have hplace := (List.getElem?_eq_some_iff.mp hindex).1
    rwa [length_run initial hgoes, hall] at hplace
  have hresumed : Event.resume index ∈ turn := List.mem_map_of_mem (List.mem_range.mpr hlt)
  have hstarted := ((Steady.ofStores initial task.verifier.store task.token.nonce).run
    hstarts).exists_within (hlength ▸ hlt)
  obtain ⟨last, hlast, hwithin⟩ :=
    found_resumed hturn hresumed (found_resumed hturn hresumed hstarted)
  rw [run_append, run_append, hlast] at hindex
  obtain rfl := Option.some.inj hindex
  exact Progress.isAnswer_of_callsLeft hwithin.near

theorem completes_roundRobin (initial : NonceStores name) (verifier : Verifier name)
    (tokens : List Token) :
    Completes initial (tokens.map (verifier, ·)) (roundRobin verifier tokens) := by
  have hturns := completes_turns initial (tokens.map (verifier, ·))
  rwa [List.length_map, List.map_map] at hturns

-- A verification meets a forged token only where one has been started.
theorem MeetsForged.exists_not_isAuthentic (hgoes : ∀ event ∈ events, event.GoesOn)
    (h : (ofStores initial).MeetsForged events store nonce index) :
    ∃ ask ∈ events.flatMap Event.asked, isAuthentic ask = false := by
  obtain ⟨before, after, rfl, task, -, -, -, -, other, hother, -, hforged, -⟩ := h
  have hbefore := (List.forall_mem_append.mp hgoes).1
  have hmem : other.asked ∈ before.flatMap Event.asked := by
    have hasked := asked_run (ofStores initial) hbefore
    rw [show (ofStores initial).tasks.map Task.asked = [] from rfl, List.nil_append] at hasked
    exact hasked ▸ List.mem_map_of_mem hother
  refine ⟨other.asked, ?_, by simpa [isAuthentic, Task.asked, Verification.isForged] using hforged⟩
  rw [List.flatMap_append]
  exact List.mem_append_left _ hmem

namespace Completes

variable (h : Completes initial asked events)

include h

theorem perm_asked : (((ofStores initial).run events).tasks.map Task.asked).Perm asked := by
  rw [asked_run _ h.goesOn]
  exact h.starts

theorem exists_concerns_iff :
    (∃ task ∈ ((ofStores initial).run events).tasks, task.Concerns store nonce) ↔
      ∃ ask ∈ asked, store = ask.1.store ∧ nonce = ask.2.nonce := by
  constructor
  · rintro ⟨task, htask, hown⟩
    exact ⟨task.asked, h.perm_asked.subset (List.mem_map_of_mem htask), hown⟩
  · rintro ⟨ask, hask, hown⟩
    obtain ⟨task, htask, rfl⟩ := List.mem_map.mp (h.perm_asked.mem_iff.mpr hask)
    exact ⟨task, htask, hown⟩

theorem genuine (hgenuine : ∀ ask ∈ asked, ask.1.Genuine ask.2) {task : Task name}
    (htask : task ∈ ((ofStores initial).run events).tasks) :
    task.verifier.Genuine task.token :=
  hgenuine task.asked (h.perm_asked.subset (List.mem_map_of_mem htask))

-- If none were accepted, the first to reserve the nonce would have been.
theorem accepted_pos (hgenuine : ∀ ask ∈ asked, ask.1.Genuine ask.2)
    (habsent : initial.mark store nonce = none)
    (hasked : ∃ ask ∈ asked, store = ask.1.store ∧ nonce = ask.2.nonce) :
    0 < ((ofStores initial).run events).accepted store nonce := by
  obtain ⟨task, htask, hown⟩ := h.exists_concerns_iff.mpr hasked
  obtain ⟨valid, hvalid⟩ := Progress.exists_of_isAnswer (h.answered task htask)
  rw [accepted_pos_iff]
  cases valid with
  | true => exact ⟨task, htask, hown, hvalid⟩
  | false =>
    have htoken := h.genuine hgenuine htask
    have hforged : task.isForged = false := by simp [Verification.isForged, htoken.authentic]
    obtain ⟨index, hfound⟩ := List.mem_iff_getElem?.mp htask
    rcases cause_of_rejected initial habsent h.goesOn h.answered hfound ⟨hown, hforged, hvalid⟩
      htoken.expected with hmeets | ⟨other, rival, -, hother, hrival, haccepted⟩
    · obtain ⟨ask, hask, hnot⟩ := hmeets.exists_not_isAuthentic h.goesOn
      have hauthentic := (hgenuine ask (h.starts.subset hask)).authentic
      simp [isAuthentic, hauthentic] at hnot
    · exact ⟨rival, List.mem_of_getElem? hother, hrival, haccepted⟩

theorem mark_run (hgenuine : ∀ ask ∈ asked, ask.1.Genuine ask.2) (store : name) (nonce : Nonce) :
    ((ofStores initial).run events).stores.mark store nonce =
      if initial.mark store nonce = none ∧
          ∃ ask ∈ asked, store = ask.1.store ∧ nonce = ask.2.nonce then
        some .stored
      else initial.mark store nonce := by
  have haccounts := ((Steady.ofStores initial store nonce).run h.goesOn).accounts
  have hmark := haccounts.mark_of_free (holders_eq_zero h.answered store nonce)
  split
  · rename_i hfirst
    exact hmark.trans (if_pos (h.accepted_pos hgenuine hfirst.1 hfirst.2))
  · rename_i hnot
    refine hmark.trans (if_neg fun haccepted => ?_)
    cases hinitial : initial.mark store nonce with
    | none =>
      obtain ⟨task, htask, hown, -⟩ := (accepted_pos_iff ..).mp haccepted
      exact hnot ⟨hinitial, h.exists_concerns_iff.mp ⟨task, htask, hown⟩⟩
    | some mark =>
      have hnone := haccounts.accepted_of_initial (by simp [hinitial])
      omega

theorem accepts_iff :
    (∃ task, ((ofStores initial).run events).tasks[index]? = some task ∧
      task.Concerns store nonce ∧ task.progress = .answered true) ↔
      ((ofStores initial).run events).Accepts index store nonce := by
  have hsteady := (Steady.ofStores initial store nonce).run h.goesOn
  constructor
  · rintro ⟨task, hfound, hown, haccepted⟩
    refine ⟨⟨task, hfound, hown⟩, ?_⟩
    rw [hsteady.answer?_eq hfound, haccepted]
    rfl
  · rintro ⟨⟨task, hfound, hown⟩, htrue⟩
    rw [hsteady.answer?_eq hfound, Progress.answer?_eq_some_iff] at htrue
    exact ⟨task, hfound, hown, htrue⟩

theorem existsUnique_accepts (haccepted : 0 < ((ofStores initial).run events).accepted store nonce) :
    ∃! index, ((ofStores initial).run events).Accepts index store nonce := by
  obtain ⟨task, htask, hown, htrue⟩ := (accepted_pos_iff ..).mp haccepted
  obtain ⟨index, hfound⟩ := List.mem_iff_getElem?.mp htask
  refine ⟨index, h.accepts_iff.mp ⟨task, hfound, hown, htrue⟩, fun other hother => ?_⟩
  obtain ⟨rival, hplace, hrival, hrivals⟩ := h.accepts_iff.mpr hother
  exact ((Steady.ofStores initial store nonce).run h.goesOn).index_eq_of_accepted hplace hfound
    hrival hown hrivals htrue

theorem not_accepts (hknown : initial.mark store nonce ≠ none) :
    ¬((ofStores initial).run events).Accepts index store nonce := by
  intro haccepts
  obtain ⟨task, hfound, hown, htrue⟩ := h.accepts_iff.mpr haccepts
  have hnone := ((Steady.ofStores initial store nonce).run h.goesOn).accounts.accepted_of_initial
    hknown
  have hpos := (accepted_pos_iff ..).mpr ⟨task, List.mem_of_getElem? hfound, hown, htrue⟩
  exact absurd hnone (Nat.ne_of_gt hpos)

end Completes

-- Every schedule that takes all verifications to their answers leaves the same stores, and of the
-- verifications of one nonce exactly one is accepted if the nonce was not known before, and none if
-- it was.
theorem genuine_in_any_order (initial : NonceStores name) (asked : List (Verifier name × Token))
    (hgenuine : ∀ ask ∈ asked, ask.1.Genuine ask.2) :
    (∀ first second, Completes initial asked first → Completes initial asked second →
      ((ofStores initial).run first).stores.Same ((ofStores initial).run second).stores) ∧
    ∀ events, Completes initial asked events →
      let final := (ofStores initial).run events
      (final.tasks.map Task.asked).Perm asked ∧
      (∀ store nonce, final.stores.mark store nonce =
        if initial.mark store nonce = none ∧
            ∃ ask ∈ asked, store = ask.1.store ∧ nonce = ask.2.nonce then
          some .stored
        else initial.mark store nonce) ∧
      ∀ ask ∈ asked,
        (initial.mark ask.1.store ask.2.nonce = none →
          ∃! index, final.Accepts index ask.1.store ask.2.nonce) ∧
        (initial.mark ask.1.store ask.2.nonce ≠ none →
          ∀ index, ¬final.Accepts index ask.1.store ask.2.nonce) := by
  refine ⟨fun first second hfirst hsecond => ?_, fun events hevents => ?_⟩
  · rw [NonceStores.same_iff]
    intro store nonce
    rw [hfirst.mark_run hgenuine, hsecond.mark_run hgenuine]
  · refine ⟨hevents.perm_asked, hevents.mark_run hgenuine, fun ask hask => ⟨?_, ?_⟩⟩
    · intro habsent
      exact hevents.existsUnique_accepts
        (hevents.accepted_pos hgenuine habsent ⟨ask, hask, rfl, rfl⟩)
    · exact fun hknown index => hevents.not_accepts hknown

-- Of two verifications of one token in turn, one is accepted.
theorem smooth_accepted_by_one :
    let asked := [(smoothVerifier, smoothToken), (smoothVerifier, smoothToken)]
    let events := roundRobin smoothVerifier [smoothToken, smoothToken]
    (∀ ask ∈ asked, ask.1.Genuine ask.2) ∧ Completes .empty asked events ∧
      ∃! index, ((ofStores .empty).run events).Accepts index () smoothToken.nonce := by
  intro asked events
  have hgenuine : ∀ ask ∈ asked, ask.1.Genuine ask.2 := by
    simp [asked, smoothToken_genuine]
  have hcompletes : Completes .empty asked events :=
    completes_roundRobin .empty smoothVerifier [smoothToken, smoothToken]
  obtain ⟨-, -, haccepts⟩ := (genuine_in_any_order .empty asked hgenuine).2 events hcompletes
  exact ⟨hgenuine, hcompletes,
    (haccepts _ List.mem_cons_self).1 (NonceStores.mark_empty _ _)⟩

end Redemptions

end BlindToken
