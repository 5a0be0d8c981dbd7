import BlindToken.Proofs.Redemption.Mark
import BlindToken.Redemption.Schedule

namespace BlindToken

-- The verification has reserved its nonce, and its call after that has not been made.
def Verification.HasReserved {name : Type} (verification : Verification name) : Prop :=
  verification.progress = .storing ∨ verification.progress = .releasing

instance {name : Type} (verification : Verification name) : Decidable verification.HasReserved := by
  unfold Verification.HasReserved
  infer_instance

-- A caller who has released the nonce of a dropped verification has given its reservation up.
def Task.Holds {name : Type} (task : Task name) : Prop :=
  task.HasReserved ∧ task.caller ≠ .recovered

instance {name : Type} (task : Task name) : Decidable task.Holds := by
  unfold Task.Holds
  infer_instance

@[ext] structure Tally where
  mark : Option NonceMark
  holders : Nat
  accepted : Nat

namespace Tally

-- What verifications do. A reservation given up by its owner's caller counts as an abort.
inductive Step (before after : Tally) : Prop where
  | idle (mark : after.mark = before.mark) (holders : after.holders = before.holders)
      (accepted : after.accepted = before.accepted)
  | win (absent : before.mark = none) (mark : after.mark = some .reserved)
      (holders : after.holders = before.holders + 1) (accepted : after.accepted = before.accepted)
  | commit (mark : after.mark = some .stored) (holders : before.holders = after.holders + 1)
      (accepted : after.accepted = before.accepted + 1)
  | abort (mark : after.mark = NonceMark.release before.mark)
      (holders : before.holders = after.holders + 1) (accepted : after.accepted = before.accepted)

-- What a call to the store does that no verification makes.
structure Call (operation : StoreCall) (before after : Tally) : Prop where
  mark : after.mark = NonceMark.called operation before.mark
  holders : after.holders = before.holders
  accepted : after.accepted = before.accepted

theorem Step.refl (tally : Tally) : Step tally tally := .idle rfl rfl rfl

end Tally

-- The event is not a step of a verification and not its end.
def Event.IsOutside {name : Type} : Event name → Prop
  | .recover _ => True
  | .call _ _ _ => True
  | _ => False

namespace Redemptions

variable {name : Type} [DecidableEq name]

-- How many verifications of tokens with the nonce hold a reservation of it.
def holders (current : Redemptions name) (store : name) (nonce : Nonce) : Nat :=
  current.tasks.countP fun task => task.Concerns store nonce ∧ task.Holds

-- How many verifications of tokens with the nonce have returned true.
def accepted (current : Redemptions name) (store : name) (nonce : Nonce) : Nat :=
  current.tasks.countP fun task => task.Concerns store nonce ∧ task.progress = .answered true

def tally (current : Redemptions name) (store : name) (nonce : Nonce) : Tally where
  mark := current.stores.mark store nonce
  holders := current.holders store nonce
  accepted := current.accepted store nonce

omit [DecidableEq name] in
theorem length_ofStores (stores : NonceStores name) : (ofStores stores).tasks.length = 0 := rfl

theorem tally_ofStores (stores : NonceStores name) (store : name) (nonce : Nonce) :
    (ofStores stores).tally store nonce = ⟨stores.mark store nonce, 0, 0⟩ := rfl

theorem holders_pos_iff (current : Redemptions name) (store : name) (nonce : Nonce) :
    0 < current.holders store nonce ↔
      ∃ task ∈ current.tasks, task.Concerns store nonce ∧ task.Holds := by
  simp only [holders, List.countP_pos_iff, decide_eq_true_eq]

theorem accepted_pos_iff (current : Redemptions name) (store : name) (nonce : Nonce) :
    0 < current.accepted store nonce ↔
      ∃ task ∈ current.tasks, task.Concerns store nonce ∧ task.progress = .answered true := by
  simp only [accepted, List.countP_pos_iff, decide_eq_true_eq]

private theorem countP_set_add {α : Type} (p : α → Bool) {items : List α} {index : Nat}
    {old : α} (new : α) (hold : items[index]? = some old) :
    (items.set index new).countP p + (if p old then 1 else 0) =
      items.countP p + (if p new then 1 else 0) := by
  obtain ⟨hindex, rfl⟩ := List.getElem?_eq_some_iff.mp hold
  have hle : (if p items[index] then 1 else 0) ≤ items.countP p :=
    List.boole_getElem_le_countP hindex
  rw [List.countP_set hindex]
  omega

-- One task goes on, about the same token at the same verifier as before, and the mark of its nonce
-- becomes the given one.
structure Replaces (current : Redemptions name) (index : Nat) (old new : Task name)
    (mark : Option NonceMark) (next : Redemptions name) : Prop where
  found : current.tasks[index]? = some old
  tasks : next.tasks = current.tasks.set index new
  verifier : new.verifier = old.verifier
  token : new.token = old.token
  marks : ∀ store nonce, next.stores.mark store nonce =
    if old.Concerns store nonce then mark else current.stores.mark store nonce

namespace Replaces

variable {current next : Redemptions name} {index : Nat} {old new : Task name}
  {mark : Option NonceMark} {store : name} {nonce : Nonce}

theorem concerns_iff (h : Replaces current index old new mark next) :
    new.Concerns store nonce ↔ old.Concerns store nonce := by
  simp only [Verification.Concerns, h.verifier, h.token]

theorem found_new (h : Replaces current index old new mark next) :
    next.tasks[index]? = some new := by
  have hlt := (List.getElem?_eq_some_iff.mp h.found).1
  rw [h.tasks]
  simp [hlt]

theorem found_other (h : Replaces current index old new mark next) {other : Nat}
    (hother : other ≠ index) : next.tasks[other]? = current.tasks[other]? := by
  rw [h.tasks]
  exact List.getElem?_set_ne hother.symm

theorem length_tasks (h : Replaces current index old new mark next) :
    next.tasks.length = current.tasks.length := by
  rw [h.tasks, List.length_set]

theorem mem_tasks (h : Replaces current index old new mark next) {task : Task name}
    (htask : task ∈ next.tasks) : task ∈ current.tasks ∨ task = new := by
  rw [h.tasks] at htask
  exact List.mem_or_eq_of_mem_set htask

theorem count_add (h : Replaces current index old new mark next) (store : name) (nonce : Nonce)
    (p : Task name → Prop) [DecidablePred p] :
    next.tasks.countP (fun task => task.Concerns store nonce ∧ p task) +
        (if old.Concerns store nonce ∧ p old then 1 else 0) =
      current.tasks.countP (fun task => task.Concerns store nonce ∧ p task) +
        (if old.Concerns store nonce ∧ p new then 1 else 0) := by
  have hcount :=
    countP_set_add (fun task => decide (task.Concerns store nonce ∧ p task)) new h.found
  simpa only [h.tasks, decide_eq_true_eq, h.concerns_iff] using hcount

theorem tally_eq (h : Replaces current index old new mark next)
    (hother : ¬old.Concerns store nonce) : next.tally store nonce = current.tally store nonce := by
  have hholders := h.count_add store nonce Task.Holds
  have haccepted := h.count_add store nonce (·.progress = .answered true)
  simp only [hother, false_and, if_false, Nat.add_zero] at hholders haccepted
  simp only [tally, holders, accepted, hholders, haccepted, h.marks, hother, if_false]

theorem mark_eq (h : Replaces current index old new mark next)
    (hown : old.Concerns store nonce) : (next.tally store nonce).mark = mark := by
  simp only [tally, h.marks, hown, if_true]

theorem holders_add (h : Replaces current index old new mark next)
    (hown : old.Concerns store nonce) :
    (next.tally store nonce).holders + (if old.Holds then 1 else 0) =
      (current.tally store nonce).holders + (if new.Holds then 1 else 0) := by
  simpa only [tally, holders, hown, true_and] using
    h.count_add store nonce Task.Holds

theorem accepted_add (h : Replaces current index old new mark next)
    (hown : old.Concerns store nonce) :
    (next.tally store nonce).accepted + (if old.progress = .answered true then 1 else 0) =
      (current.tally store nonce).accepted + (if new.progress = .answered true then 1 else 0) := by
  simpa only [tally, accepted, hown, true_and] using
    h.count_add store nonce (·.progress = .answered true)

end Replaces

section Events

variable {current : Redemptions name} {index : Nat} {task : Task name}

theorem replaces_resume (hfound : current.tasks[index]? = some task)
    (hcaller : task.caller = .waiting) :
    Replaces current index task
      { task with toVerification := (task.toVerification.step current.stores).1 }
      (NonceMark.after task.progress (task.mark current.stores))
      (current.apply (.resume index)) where
  found := hfound
  tasks := by simp [apply, hfound, hcaller]
  verifier := by simp [Verification.step_fst]
  token := by simp [Verification.step_fst]
  marks store nonce := by
    simpa [apply, hfound, hcaller] using task.mark_step current.stores store nonce

theorem replaces_drop (hfound : current.tasks[index]? = some task)
    (hcaller : task.caller = .waiting) (hpending : task.progress.isAnswer = false) :
    Replaces current index task { task with caller := .gone } (task.mark current.stores)
      (current.apply (.drop index)) where
  found := hfound
  tasks := by simp [apply, hfound, hcaller, hpending]
  verifier := rfl
  token := rfl
  marks store nonce := by
    by_cases hown : task.Concerns store nonce
    · simp [apply, hfound, hcaller, hpending, hown, hown.mark_eq]
    · simp [apply, hfound, hcaller, hpending, hown]

theorem replaces_recover (hfound : current.tasks[index]? = some task)
    (hcaller : task.caller = .gone) :
    Replaces current index task { task with caller := .recovered }
      (NonceMark.release (task.mark current.stores)) (current.apply (.recover index)) where
  found := hfound
  tasks := by simp [apply, hfound, hcaller]
  verifier := rfl
  token := rfl
  marks store nonce := by
    simp only [apply, hfound, hcaller]
    exact current.stores.mark_put _ _ _ _ _ _ (NonceStore.mark_release _ _)

-- What each of the three events can be: one task goes on, or nothing happens.
theorem resume_cases (current : Redemptions name) (index : Nat) :
    current.apply (.resume index) = current ∨ ∃ task, task.caller = .waiting ∧
      Replaces current index task
        { task with toVerification := (task.toVerification.step current.stores).1 }
        (NonceMark.after task.progress (task.mark current.stores))
        (current.apply (.resume index)) := by
  cases hfound : current.tasks[index]? with
  | none => exact .inl (by simp only [apply, hfound])
  | some task =>
    by_cases hcaller : task.caller = .waiting
    · exact .inr ⟨task, hcaller, replaces_resume hfound hcaller⟩
    · exact .inl (by simp [apply, hfound, hcaller])

theorem drop_cases (current : Redemptions name) (index : Nat) :
    current.apply (.drop index) = current ∨ ∃ task, task.caller = .waiting ∧
      task.progress.isAnswer = false ∧
      Replaces current index task { task with caller := .gone } (task.mark current.stores)
        (current.apply (.drop index)) := by
  cases hfound : current.tasks[index]? with
  | none => exact .inl (by simp only [apply, hfound])
  | some task =>
    by_cases hidle : task.caller ≠ .waiting ∨ task.progress.isAnswer
    · exact .inl (by simp only [apply, hfound, hidle, if_true])
    · obtain ⟨hcaller, hpending⟩ : task.caller = .waiting ∧ task.progress.isAnswer = false := by
        simpa using hidle
      exact .inr ⟨task, hcaller, hpending, replaces_drop hfound hcaller hpending⟩

theorem recover_cases (current : Redemptions name) (index : Nat) :
    current.apply (.recover index) = current ∨ ∃ task, task.caller = .gone ∧
      Replaces current index task { task with caller := .recovered }
        (NonceMark.release (task.mark current.stores)) (current.apply (.recover index)) := by
  cases hfound : current.tasks[index]? with
  | none => exact .inl (by simp only [apply, hfound])
  | some task =>
    by_cases hcaller : task.caller = .gone
    · exact .inr ⟨task, hcaller, replaces_recover hfound hcaller⟩
    · exact .inl (by simp [apply, hfound, hcaller])

section Others

variable {other : Nat} (hfound : current.tasks[index]? = some task)

include hfound

theorem found_start (verifier : Verifier name) (token : Token) :
    (current.apply (.start verifier token)).tasks[index]? = some task := by
  have hlt := (List.getElem?_eq_some_iff.mp hfound).1
  simp only [apply, List.getElem?_append_left hlt, hfound]

theorem found_resume (hother : index ≠ other) :
    (current.apply (.resume other)).tasks[index]? = some task := by
  rcases current.resume_cases other with hsame | ⟨old, -, hreplaces⟩
  · rwa [hsame]
  · rw [hreplaces.found_other hother, hfound]

theorem found_recover (hother : index ≠ other) :
    (current.apply (.recover other)).tasks[index]? = some task := by
  rcases current.recover_cases other with hsame | ⟨old, -, hreplaces⟩
  · rwa [hsame]
  · rw [hreplaces.found_other hother, hfound]

end Others

end Events

-- A verification that has just been started has neither reserved nor accepted anything.
theorem tally_start (current : Redemptions name) (verifier : Verifier name) (token : Token)
    (store : name) (nonce : Nonce) :
    (current.apply (.start verifier token)).tally store nonce = current.tally store nonce := by
  by_cases h : verifier.Expects token <;>
    simp [tally, apply, holders, accepted, Task.Holds, Verification.HasReserved,
      Verification.start, h]

-- The one place where a step of a verification meets a step of a tally.
theorem Replaces.step {current next : Redemptions name} {index : Nat} {task : Task name}
    {store : name} {nonce : Nonce} (hcaller : task.caller = .waiting)
    (hown : task.Concerns store nonce)
    (h : Replaces current index task
      { task with toVerification := (task.toVerification.step current.stores).1 }
      (NonceMark.after task.progress (task.mark current.stores)) next) :
    Tally.Step (current.tally store nonce) (next.tally store nonce) := by
  have hmark := h.mark_eq hown
  have hholders := h.holders_add hown
  have haccepted := h.accepted_add hown
  have hbefore : task.mark current.stores = (current.tally store nonce).mark :=
    hown.mark_eq current.stores
  simp only [Task.Holds, Verification.HasReserved, Verification.step_fst, hcaller, hbefore]
    at hmark hholders haccepted
  cases hprogress : task.progress with
  | reserving =>
    cases habsent : (current.tally store nonce).mark with
    | none =>
      refine .win habsent ?_ ?_ ?_
      · rw [hmark, hprogress, habsent]
        rfl
      · cases hgenuine : task.verifier.publicKey.authenticates task.token <;>
          simpa [hprogress, habsent, hgenuine, Progress.next] using hholders
      · cases hgenuine : task.verifier.publicKey.authenticates task.token <;>
          simpa [hprogress, habsent, hgenuine, Progress.next] using haccepted
    | some held =>
      refine .idle ?_ ?_ ?_
      · rw [hmark, hprogress, habsent]
        rfl
      · simpa [hprogress, habsent, Progress.next] using hholders
      · simpa [hprogress, habsent, Progress.next] using haccepted
  | storing =>
    refine .commit ?_ ?_ ?_
    · rw [hmark, hprogress]
      rfl
    · simpa [hprogress, Progress.next] using hholders.symm
    · simpa [hprogress, Progress.next] using haccepted
  | releasing =>
    refine .abort ?_ ?_ ?_
    · rw [hmark, hprogress]
      rfl
    · simpa [hprogress, Progress.next] using hholders.symm
    · simpa [hprogress, Progress.next] using haccepted
  | answered valid =>
    refine .idle ?_ ?_ ?_
    · rw [hmark, hprogress]
      rfl
    · simpa [hprogress, Progress.next] using hholders
    · simpa [hprogress, Progress.next] using haccepted

theorem tally_resume (current : Redemptions name) (index : Nat) (store : name) (nonce : Nonce) :
    Tally.Step (current.tally store nonce) ((current.apply (.resume index)).tally store nonce) := by
  rcases current.resume_cases index with hsame | ⟨task, hcaller, hreplaces⟩
  · rw [hsame]
    exact .refl _
  · by_cases hown : task.Concerns store nonce
    · exact hreplaces.step hcaller hown
    · rw [hreplaces.tally_eq hown]
      exact .refl _

theorem tally_drop (current : Redemptions name) (index : Nat) (store : name) (nonce : Nonce) :
    (current.apply (.drop index)).tally store nonce = current.tally store nonce := by
  rcases current.drop_cases index with hsame | ⟨task, hcaller, -, hreplaces⟩
  · rw [hsame]
  · by_cases hown : task.Concerns store nonce
    · have hmark := hreplaces.mark_eq hown
      have hholders := hreplaces.holders_add hown
      have haccepted := hreplaces.accepted_add hown
      rw [hown.mark_eq] at hmark
      have hholds : ({ task with caller := .gone } : Task name).Holds ↔ task.Holds := by
        simp [Task.Holds, hcaller, Verification.HasReserved]
      simp only [hholds] at hholders
      exact Tally.ext hmark (Nat.add_right_cancel hholders) (Nat.add_right_cancel haccepted)
    · exact hreplaces.tally_eq hown

theorem tally_own (current : Redemptions name) {event : Event name} (h : ¬event.IsOutside)
    (store : name) (nonce : Nonce) :
    Tally.Step (current.tally store nonce) ((current.apply event).tally store nonce) := by
  cases event with
  | start verifier token =>
    rw [tally_start]
    exact .refl _
  | resume index => exact tally_resume current index store nonce
  | drop index =>
    rw [tally_drop]
    exact .refl _
  | recover index => exact absurd trivial h
  | call changed other operation => exact absurd trivial h

-- A caller whose verification held a reservation gives that one up. One whose verification was
-- dropped before it could reserve anything makes a release that is not its own.
theorem tally_recover (current : Redemptions name) (index : Nat) (store : name) (nonce : Nonce) :
    Tally.Step (current.tally store nonce) ((current.apply (.recover index)).tally store nonce) ∨
      ∃ task, current.tasks[index]? = some task ∧ task.caller = .gone ∧
        task.Concerns store nonce ∧ ¬task.Holds ∧
        Tally.Call .release (current.tally store nonce)
          ((current.apply (.recover index)).tally store nonce) := by
  rcases current.recover_cases index with hsame | ⟨task, hgone, hreplaces⟩
  · left
    rw [hsame]
    exact .refl _
  · by_cases hown : task.Concerns store nonce
    · have hmark := hreplaces.mark_eq hown
      have hholders := hreplaces.holders_add hown
      have haccepted := Nat.add_right_cancel (hreplaces.accepted_add hown)
      rw [hown.mark_eq] at hmark
      have hnew : ¬({ task with caller := .recovered } : Task name).Holds := by simp [Task.Holds]
      simp only [hnew, if_false, Nat.add_zero] at hholders
      by_cases hholds : task.Holds
      · left
        exact .abort hmark (by simpa [hholds] using hholders.symm) haccepted
      · right
        have hcall : Tally.Call .release (current.tally store nonce)
            ((current.apply (.recover index)).tally store nonce) :=
          ⟨hmark, by simpa [hholds] using hholders, haccepted⟩
        exact ⟨task, hreplaces.found, hgone, hown, hholds, hcall⟩
    · left
      rw [hreplaces.tally_eq hown]
      exact .refl _

theorem tally_call (current : Redemptions name) (changed store : name) (other nonce : Nonce)
    (operation : StoreCall) :
    Tally.Step (current.tally store nonce)
        ((current.apply (.call changed other operation)).tally store nonce) ∨
      Tally.Call operation (current.tally store nonce)
        ((current.apply (.call changed other operation)).tally store nonce) := by
  have hmark : (current.apply (.call changed other operation)).stores.mark store nonce =
      if store = changed ∧ nonce = other then
        NonceMark.called operation (current.stores.mark changed other)
      else current.stores.mark store nonce :=
    current.stores.mark_put _ _ _ _ _ _ (operation.mark_run _ _)
  by_cases h : store = changed ∧ nonce = other
  · right
    rw [if_pos h] at hmark
    obtain ⟨rfl, rfl⟩ := h
    exact ⟨hmark, rfl, rfl⟩
  · left
    rw [if_neg h] at hmark
    exact .idle hmark rfl rfl

@[simp] theorem run_nil (current : Redemptions name) : current.run [] = current := rfl

@[simp] theorem run_cons (current : Redemptions name) (event : Event name)
    (rest : List (Event name)) : current.run (event :: rest) = (current.apply event).run rest := rfl

theorem run_append (current : Redemptions name) (first second : List (Event name)) :
    current.run (first ++ second) = (current.run first).run second := List.foldl_append

-- Every event of a run is allowed where it happens.
def Along (allowed : Redemptions name → Event name → Prop) :
    Redemptions name → List (Event name) → Prop
  | _, [] => True
  | current, event :: rest => allowed current event ∧ Along allowed (current.apply event) rest

theorem along_of_forall {allowed : Event name → Prop} (current : Redemptions name)
    {events : List (Event name)} (h : ∀ event ∈ events, allowed event) :
    Along (fun _ => allowed) current events := by
  induction events generalizing current with
  | nil => trivial
  | cons event rest ih =>
    exact ⟨h event List.mem_cons_self, ih _ fun next hnext => h next (List.mem_cons_of_mem _ hnext)⟩

theorem Along.append {allowed : Redemptions name → Event name → Prop}
    {current : Redemptions name} {first second : List (Event name)}
    (hfirst : Along allowed current first) (hsecond : Along allowed (current.run first) second) :
    Along allowed current (first ++ second) := by
  induction first generalizing current with
  | nil => exact hsecond
  | cons event rest ih => exact ⟨hfirst.1, ih hfirst.2 hsecond⟩

-- What each allowed event keeps, a run of allowed events keeps.
theorem Along.run_invariant {allowed : Redemptions name → Event name → Prop}
    (invariant : Redemptions name → Prop)
    (hstep : ∀ current event, invariant current → allowed current event →
      invariant (current.apply event))
    {current : Redemptions name} {events : List (Event name)} (h : Along allowed current events)
    (hcurrent : invariant current) : invariant (current.run events) := by
  induction events generalizing current with
  | nil => exact hcurrent
  | cons event rest ih =>
    obtain ⟨hevent, hrest⟩ := h
    exact ih hrest (hstep current event hcurrent hevent)

end Redemptions

end BlindToken
