import BlindToken.Proofs.Redemption.Tally

namespace BlindToken

namespace Verifier

variable {name : Type}

-- A token that the verifier accepts as long as its nonce is not known.
structure Genuine (verifier : Verifier name) (token : Token) : Prop where
  expected : verifier.Expects token
  authentic : verifier.publicKey.authenticates token = true

variable [DecidableEq name]

-- The two steps take the verification from the start to its answer.
theorem verify_eq_true_iff (verifier : Verifier name) (stores : NonceStores name) (token : Token) :
    (verifier.verify stores token).1 = true ↔
      verifier.Genuine token ∧ stores.mark verifier.store token.nonce = none := by
  have hown : (Verification.start verifier token).Concerns verifier.store token.nonce := ⟨rfl, rfl⟩
  have hmark := hown.mark_eq stores
  simp only [verify, Verification.isValid, Verification.step_fst, hmark, decide_eq_true_eq]
  by_cases hexpected : verifier.Expects token
  · cases hheld : stores.mark verifier.store token.nonce with
    | some held => simp [Verification.start, hexpected, Progress.next]
    | none =>
      cases hauthentic : verifier.publicKey.authenticates token with
      | true =>
        simp only [Verification.start, hexpected, hauthentic, Progress.next, if_true, and_true,
          true_iff]
        exact ⟨hexpected, hauthentic⟩
      | false =>
        simp only [Verification.start, hexpected, hauthentic, Progress.next, if_true,
          Progress.answered.injEq, Bool.false_eq_true, if_false, and_true, false_iff]
        intro hgenuine
        simp [hgenuine.authentic] at hauthentic
  · simp only [Verification.start, hexpected, Progress.next, if_false, Progress.answered.injEq,
      Bool.false_eq_true, false_iff]
    exact fun h => hexpected h.1.expected

theorem mark_of_verify {verifier : Verifier name} {stores : NonceStores name} {token : Token}
    (h : (verifier.verify stores token).1 = true) :
    (verifier.verify stores token).2.mark verifier.store token.nonce = some .stored := by
  obtain ⟨⟨hexpected, hauthentic⟩, habsent⟩ := (verifier.verify_eq_true_iff stores token).mp h
  have hown : (Verification.start verifier token).Concerns verifier.store token.nonce := ⟨rfl, rfl⟩
  have hfirst : ((Verification.start verifier token).step stores).1.progress = .storing := by
    rw [Verification.step_fst, hown.mark_eq, habsent]
    simp [Verification.start, hexpected, hauthentic, Progress.next]
  have hnext := (Verification.concerns_step stores).mpr hown
  simp only [verify, Verification.mark_step, hnext, if_true, hfirst, NonceMark.after]

theorem verify_of_not_expects {verifier : Verifier name} {token : Token}
    (hother : ¬verifier.Expects token) (stores : NonceStores name) :
    verifier.verify stores token = (false, stores) := by
  simp [verify, Verification.start, Verification.step, Verification.isValid, hother]

theorem expects_of_verify {verifier : Verifier name} {stores : NonceStores name} {token : Token}
    (haccepted : (verifier.verify stores token).1 = true) : verifier.Expects token :=
  ((verifier.verify_eq_true_iff stores token).mp haccepted).1.expected

-- A token that is rejected leaves its nonce as it was, even if it had been reserved for it.
theorem mark_of_rejected {verifier : Verifier name} {stores : NonceStores name} {token : Token}
    (h : (verifier.verify stores token).1 = false) :
    (verifier.verify stores token).2.mark verifier.store token.nonce =
      stores.mark verifier.store token.nonce := by
  by_cases hexpected : verifier.Expects token
  · have hown : (Verification.start verifier token).Concerns verifier.store token.nonce :=
      ⟨rfl, rfl⟩
    have hnext := (Verification.concerns_step stores).mpr hown
    have hstart : (Verification.start verifier token).progress = .reserving := if_pos hexpected
    have hprogress := congrArg Verification.progress
      ((Verification.start verifier token).step_fst stores)
    rw [hown.mark_eq, hstart] at hprogress
    simp only [verify, Verification.mark_step, hown, hnext, if_true, hnext.mark_eq, hown.mark_eq,
      hstart]
    cases hheld : stores.mark verifier.store token.nonce with
    | some held =>
      rw [hprogress, hheld]
      rfl
    | none =>
      have hforged : verifier.publicKey.authenticates token = false := by
        refine Bool.eq_false_iff.mpr fun hauthentic => ?_
        rw [(verifier.verify_eq_true_iff stores token).mpr ⟨⟨hexpected, hauthentic⟩, hheld⟩] at h
        cases h
      rw [hprogress, hheld]
      simp [Verification.start, hforged, Progress.next, NonceMark.after, NonceMark.reserve,
        NonceMark.release]
  · rw [verify_of_not_expects hexpected]

-- Only a token that is accepted leaves a trace.
theorem mark_verify (verifier : Verifier name) (stores : NonceStores name) (token : Token)
    (store : name) (nonce : Nonce) :
    (verifier.verify stores token).2.mark store nonce =
      if (verifier.verify stores token).1 = true ∧ store = verifier.store ∧ nonce = token.nonce then
        some .stored
      else stores.mark store nonce := by
  by_cases hown : store = verifier.store ∧ nonce = token.nonce
  · obtain ⟨rfl, rfl⟩ := hown
    cases hvalid : (verifier.verify stores token).1 with
    | true => simpa using mark_of_verify hvalid
    | false => simpa using mark_of_rejected hvalid
  · have hother : ¬(Verification.start verifier token).Concerns store nonce := hown
    have hnext := mt (Verification.concerns_step stores).mp hother
    rw [if_neg fun h => hown h.2, verify, Verification.mark_step, if_neg hnext,
      Verification.mark_step, if_neg hother]

end Verifier

namespace Tally

variable {before after : Tally}

theorem Step.stored (h : Step before after) (hbefore : before.mark = some .stored) :
    after.mark = some .stored := by
  cases h with
  | idle hmark => exact hmark.trans hbefore
  | win habsent => simp [hbefore] at habsent
  | commit hmark => exact hmark
  | abort hmark =>
    rw [hmark, hbefore]
    rfl

theorem Call.stored {operation : StoreCall} (h : Call operation before after)
    (hbefore : before.mark = some .stored) : after.mark = some .stored := by
  rw [h.mark, hbefore]
  cases operation <;> rfl

end Tally

namespace Redemptions

variable {name : Type} [DecidableEq name] {current : Redemptions name} {index : Nat} {store : name}
  {nonce : Nonce}

theorem stored_apply (h : current.stores.mark store nonce = some .stored) (event : Event name) :
    (current.apply event).stores.mark store nonce = some .stored := by
  cases event with
  | start | resume | drop =>
    exact (current.tally_own (by simp [Event.IsOutside]) store nonce).stored h
  | recover index =>
    rcases current.tally_recover index store nonce with hstep | ⟨task, -, -, -, -, hcall⟩
    · exact hstep.stored h
    · exact hcall.stored h
  | call changed other operation =>
    rcases current.tally_call changed store other nonce operation with hstep | hcall
    · exact hstep.stored h
    · exact hcall.stored h

theorem stored_run (h : current.stores.mark store nonce = some .stored)
    (events : List (Event name)) : (current.run events).stores.mark store nonce = some .stored := by
  induction events generalizing current with
  | nil => exact h
  | cons event rest ih => exact ih (stored_apply h event)

-- The verification is about to store the nonce and return true.
def IsStoring (current : Redemptions name) (index : Nat) (store : name) (nonce : Nonce) : Prop :=
  ∃ task, current.tasks[index]? = some task ∧ task.Concerns store nonce ∧
    task.progress = .storing ∧ task.caller = .waiting

theorem IsStoring.accepted_resume (h : current.IsStoring index store nonce) :
    (current.apply (.resume index)).accepted store nonce = current.accepted store nonce + 1 := by
  obtain ⟨task, hfound, hown, hprogress, hcaller⟩ := h
  have haccepted := (replaces_resume hfound hcaller).accepted_add hown
  simpa [tally, hprogress, Verification.step_fst, Progress.next] using haccepted

theorem isStoring_of_reserving {task : Task name} (hfound : current.tasks[index]? = some task)
    (hcaller : task.caller = .waiting) (hprogress : task.progress = .reserving)
    (hgenuine : task.verifier.publicKey.authenticates task.token = true)
    (hown : task.Concerns store nonce) (habsent : current.stores.mark store nonce = none) :
    (current.apply (.resume index)).IsStoring index store nonce ∧
      (current.apply (.resume index)).stores.mark store nonce = some .reserved := by
  have hreplaces := replaces_resume hfound hcaller
  have hmark := hreplaces.mark_eq hown
  rw [hown.mark_eq, habsent, hprogress] at hmark
  refine ⟨⟨_, hreplaces.found_new, hreplaces.concerns_iff.mpr hown, ?_, hcaller⟩, hmark⟩
  simp [Verification.step_fst, hown.mark_eq, habsent, hprogress, hgenuine, Progress.next]

-- A genuine token whose nonce is not known gets as far as storing it.
theorem isStoring_start (current : Redemptions name) {verifier : Verifier name} {token : Token}
    (hgenuine : verifier.Genuine token)
    (habsent : current.stores.mark verifier.store token.nonce = none) :
    let next := current.run [.start verifier token, .resume current.tasks.length]
    next.IsStoring current.tasks.length verifier.store token.nonce ∧
      next.stores.mark verifier.store token.nonce = some .reserved := by
  let task : Task name := { Verification.start verifier token with caller := .waiting }
  have hfound : (current.apply (.start verifier token)).tasks[current.tasks.length]? =
      some task := by simp [apply, task]
  exact isStoring_of_reserving hfound rfl (if_pos hgenuine.expected) hgenuine.authentic ⟨rfl, rfl⟩
    habsent

-- It can be dropped there while another verification of the token waits.
theorem exists_dropped (current : Redemptions name) {verifier : Verifier name} {token : Token}
    (hgenuine : verifier.Genuine token)
    (habsent : current.stores.mark verifier.store token.nonce = none)
    (hlength : current.tasks.length = index) :
    ∃ task, (current.run [.start verifier token, .resume index, .start verifier token,
        .drop index]).tasks[index]? = some task ∧ task.Concerns verifier.store token.nonce ∧
      task.progress = .storing ∧ task.caller = .gone := by
  subst hlength
  obtain ⟨⟨task, hfound, hown, hprogress, hcaller⟩, -⟩ := isStoring_start current hgenuine habsent
  have hpending : task.progress.isAnswer = false := by
    rw [hprogress]
    rfl
  exact ⟨{ task with caller := .gone },
    (replaces_drop (found_start hfound verifier token) hcaller hpending).found_new, hown, hprogress,
    rfl⟩

-- No later call of whatever kind makes the token redeemable again.
theorem redeemed_once {verifier : Verifier name} {stores : NonceStores name} {token : Token}
    (hgenuine : verifier.Genuine token)
    (habsent : stores.mark verifier.store token.nonce = none) :
    (verifier.verify stores token).1 = true ∧ ∀ events,
      let later := (ofStores (verifier.verify stores token).2).run events
      (verifier.verify later.stores token).1 = false := by
  have haccepted := (verifier.verify_eq_true_iff stores token).mpr ⟨hgenuine, habsent⟩
  refine ⟨haccepted, fun events => Bool.eq_false_iff.mpr fun hagain => ?_⟩
  have hstored : (ofStores (verifier.verify stores token).2).stores.mark verifier.store
      token.nonce = some .stored := Verifier.mark_of_verify haccepted
  have hnone := ((verifier.verify_eq_true_iff _ token).mp hagain).2
  simp [stored_run hstored events] at hnone

end Redemptions

end BlindToken
