import BlindToken.Proofs.Redemption.Accounting

namespace BlindToken

-- The authenticator does not sign the token under the verifier's key.
def Verification.isForged {name : Type} (verification : Verification name) : Bool :=
  !verification.verifier.publicKey.authenticates verification.token

namespace Event

variable {name : Type}

-- The event belongs to a verification that neither its caller nor anyone else disturbs.
def GoesOn : Event name → Prop
  | .start _ _ => True
  | .resume _ => True
  | _ => False

theorem GoesOn.not_isOutside {event : Event name} (h : event.GoesOn) : ¬event.IsOutside := by
  cases event with
  | start | resume | drop => exact id
  | recover | call => exact absurd h id

end Event

namespace Progress

variable {progress : Progress} {genuine : Bool} {mark : Option NonceMark}

-- Only the step that has reserved the nonce looks at whether the token is genuine.
theorem genuine_of_next_storing (h : progress.next genuine mark = .storing) : genuine = true := by
  cases progress with
  | reserving => cases mark <;> cases genuine <;> simp_all [Progress.next]
  | storing | releasing | answered => simp [Progress.next] at h

theorem forged_of_next_releasing (h : progress.next genuine mark = .releasing) :
    genuine = false := by
  cases progress with
  | reserving => cases mark <;> cases genuine <;> simp_all [Progress.next]
  | storing | releasing | answered => simp [Progress.next] at h

def answer? : Progress → Option Bool
  | .answered valid => some valid
  | _ => none

theorem answer?_eq_some_iff {valid : Bool} :
    progress.answer? = some valid ↔ progress = .answered valid := by
  cases progress <;> simp [answer?]

theorem exists_of_isAnswer (h : progress.isAnswer) : ∃ valid, progress = .answered valid := by
  cases progress with
  | answered valid => exact ⟨valid, rfl⟩
  | reserving | storing | releasing => cases h

end Progress

-- The task after its next step.
def Task.advance {name : Type} [DecidableEq name] (task : Task name) (stores : NonceStores name) :
    Task name :=
  { task with toVerification := (task.toVerification.step stores).1 }

namespace Task

variable {name : Type} [DecidableEq name] (task : Task name) (stores : NonceStores name)

theorem advance_eq : task.advance stores = { task with
    progress := task.progress.next (!task.isForged) (task.mark stores) } := by
  simp [advance, Verification.step_fst, Verification.isForged]

@[simp] theorem caller_advance : (task.advance stores).caller = task.caller := rfl

@[simp] theorem isForged_advance : (task.advance stores).isForged = task.isForged := by
  simp [advance_eq, Verification.isForged]

@[simp] theorem concerns_advance (store : name) (nonce : Nonce) :
    (task.advance stores).Concerns store nonce ↔ task.Concerns store nonce := by
  simp only [advance_eq, Verification.Concerns]

theorem advance_of_answered {valid : Bool} (hanswered : task.progress = .answered valid) :
    task.advance stores = task := by
  obtain ⟨⟨verifier, token, progress⟩, caller⟩ := task
  obtain rfl : progress = .answered valid := hanswered
  exact advance_eq ..

-- The caller waits for an answer that is there or one step away.
structure HeadsFor (valid : Bool) (task : Task name) : Prop where
  waiting : task.caller = .waiting
  near : task.progress = .answered valid ∨ task.progress = if valid then .storing else .releasing

theorem HeadsFor.advance {valid : Bool} {task : Task name} (h : task.HeadsFor valid)
    (stores : NonceStores name) : (task.advance stores).HeadsFor valid := by
  refine ⟨h.waiting, .inl ?_⟩
  rw [advance_eq]
  rcases h.near with hanswered | hnear
  · rw [hanswered]
    rfl
  · rw [hnear]
    cases valid <;> rfl

-- The caller waits, and the verification goes on to store or to release its nonce by whether the
-- token is genuine.
structure Undisturbed (task : Task name) : Prop where
  waiting : task.caller = .waiting
  storing : task.progress = .storing → task.isForged = false
  releasing : task.progress = .releasing → task.isForged = true

omit [DecidableEq name] in
theorem undisturbed_start (verifier : Verifier name) (token : Token) :
    Undisturbed { Verification.start verifier token with caller := .waiting } := by
  by_cases hexpects : verifier.Expects token
  · exact ⟨rfl, by simp [Verification.start, hexpects], by simp [Verification.start, hexpects]⟩
  · exact ⟨rfl, by simp [Verification.start, hexpects], by simp [Verification.start, hexpects]⟩

variable {task}

theorem Undisturbed.advance (h : task.Undisturbed) : (task.advance stores).Undisturbed := by
  refine ⟨h.waiting, fun hstoring => ?_, fun hreleasing => ?_⟩
  · rw [advance_eq] at hstoring
    simpa using Progress.genuine_of_next_storing hstoring
  · rw [advance_eq] at hreleasing
    simpa using Progress.forged_of_next_releasing hreleasing

end Task

namespace Redemptions

variable {name : Type} [DecidableEq name] {current : Redemptions name} {event : Event name}
  {index : Nat} {task : Task name} {store : name} {nonce : Nonce}

theorem replaces_advance (hfound : current.tasks[index]? = some task)
    (hcaller : task.caller = .waiting) :
    Replaces current index task (task.advance current.stores)
      (NonceMark.after task.progress (task.mark current.stores))
      (current.apply (.resume index)) :=
  replaces_resume hfound hcaller

-- A property that steps keep is kept by a task in its place.
theorem found_apply {P : Task name → Prop} (hstep : ∀ task stores, P task → P (task.advance stores))
    (hgoes : event.GoesOn) (hfound : ∃ task, current.tasks[index]? = some task ∧ P task) :
    ∃ task, (current.apply event).tasks[index]? = some task ∧ P task := by
  obtain ⟨task, hfound, htask⟩ := hfound
  cases event with
  | start verifier token => exact ⟨task, found_start hfound verifier token, htask⟩
  | resume other =>
    by_cases hother : index = other
    · subst hother
      rcases current.resume_cases index with hsame | ⟨old, -, hreplaces⟩
      · rw [hsame]
        exact ⟨task, hfound, htask⟩
      · obtain rfl := Option.some.inj (hfound.symm.trans hreplaces.found)
        exact ⟨_, hreplaces.found_new, hstep task _ htask⟩
    · exact ⟨task, found_resume hfound hother, htask⟩
  | drop | recover | call => exact absurd hgoes id

theorem found_run {P : Task name → Prop} (hstep : ∀ task stores, P task → P (task.advance stores))
    {events : List (Event name)} (hgoes : ∀ event ∈ events, event.GoesOn)
    (hfound : ∃ task, current.tasks[index]? = some task ∧ P task) :
    ∃ task, (current.run events).tasks[index]? = some task ∧ P task := by
  induction events generalizing current with
  | nil => exact hfound
  | cons event rest ih =>
    obtain ⟨hevent, hrest⟩ := List.forall_mem_cons.mp hgoes
    exact ih hrest (found_apply hstep hevent hfound)

omit [DecidableEq name] in
theorem answer?_eq (hfound : current.tasks[index]? = some task) (hcaller : task.caller = .waiting) :
    current.answer? index = task.progress.answer? := by
  obtain ⟨⟨verifier, token, progress⟩, caller⟩ := task
  obtain rfl : caller = .waiting := hcaller
  rw [answer?, hfound]
  cases progress <;> rfl

omit [DecidableEq name] in
theorem answer?_ne (hfound : current.tasks[index]? = some task) {valid : Bool}
    (hheads : task.HeadsFor valid) : current.answer? index ≠ some (!valid) := by
  rw [answer?_eq hfound hheads.waiting]
  rcases hheads.near with hanswered | hnear
  · simp [hanswered, Progress.answer?]
  · rw [hnear]
    cases valid <;> simp [Progress.answer?]

-- What holds of the tasks and of one nonce as long as nobody disturbs the verifications.
structure Steady (initial : Option NonceMark) (store : name) (nonce : Nonce)
    (current : Redemptions name) : Prop where
  tasks : ∀ task ∈ current.tasks, task.Undisturbed
  accounts : Tally.Accounts initial (current.tally store nonce)

namespace Steady

variable {initial : Option NonceMark}

theorem ofStores (stores : NonceStores name) (store : name) (nonce : Nonce) :
    Steady (stores.mark store nonce) store nonce (ofStores stores) := by
  refine ⟨fun _ htask => absurd htask List.not_mem_nil, ?_⟩
  have hnone : ∀ event ∈ ([] : List (Event name)), ¬event.IsOutside := by simp
  exact accounts_run stores hnone store nonce

theorem undisturbed (h : Steady initial store nonce current)
    (hfound : current.tasks[index]? = some task) : task.Undisturbed :=
  h.tasks task (List.mem_of_getElem? hfound)

theorem apply (h : Steady initial store nonce current) (hgoes : event.GoesOn) :
    Steady initial store nonce (current.apply event) := by
  refine ⟨?_, (current.tally_own hgoes.not_isOutside store nonce).accounts h.accounts⟩
  intro task htask
  cases event with
  | start verifier token =>
    rcases List.mem_append.mp htask with hold | hnew
    · exact h.tasks task hold
    · obtain rfl := List.mem_singleton.mp hnew
      exact Task.undisturbed_start verifier token
  | resume index =>
    rcases current.resume_cases index with hsame | ⟨old, -, hreplaces⟩
    · exact h.tasks task (hsame ▸ htask)
    · rcases hreplaces.mem_tasks htask with hold | rfl
      · exact h.tasks task hold
      · exact (h.undisturbed hreplaces.found).advance _
  | drop | recover | call => exact absurd hgoes id

theorem run (h : Steady initial store nonce current) {events : List (Event name)}
    (hgoes : ∀ event ∈ events, event.GoesOn) : Steady initial store nonce (current.run events) := by
  refine (along_of_forall current hgoes).run_invariant (Steady initial store nonce) ?_ h
  intro current event hcurrent hevent
  exact hcurrent.apply hevent

theorem answer?_eq (h : Steady initial store nonce current)
    (hfound : current.tasks[index]? = some task) :
    current.answer? index = task.progress.answer? :=
  Redemptions.answer?_eq hfound (h.undisturbed hfound).waiting

theorem holds_iff (h : Steady initial store nonce current) (htask : task ∈ current.tasks) :
    task.Holds ↔ task.HasReserved := by
  simp [Task.Holds, (h.tasks task htask).waiting]

end Steady

end Redemptions

end BlindToken
