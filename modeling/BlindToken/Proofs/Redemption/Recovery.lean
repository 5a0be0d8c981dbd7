import BlindToken.Proofs.Redemption.Exclusive

namespace BlindToken

namespace Tally

-- A reserved nonce is not stored as long as only verifications store nonces.
structure Owned (tally : Tally) : Prop extends tally.Exclusive where
  held : 0 < tally.holders → tally.mark = some .reserved

variable {before after : Tally}

theorem Step.owned (h : Step before after) (hbefore : before.Owned) : after.Owned := by
  refine ⟨h.exclusive hbefore.toExclusive, ?_⟩
  have hunique := hbefore.unique
  cases h with
  | idle hmark hholders => rw [hmark, hholders]; exact hbefore.held
  | win _ hmark => exact fun _ => hmark
  | commit _ hholders => exact fun hpos => absurd hpos (by omega)
  | abort _ hholders => exact fun hpos => absurd hpos (by omega)

theorem Call.owned (h : Call .release before after) (hfree : before.holders = 0)
    (hbefore : before.Owned) : after.Owned := by
  refine ⟨h.exclusive (fun _ => hfree) hbefore.toExclusive, ?_⟩
  intro hpos
  rw [h.holders, hfree] at hpos
  exact absurd hpos (Nat.lt_irrefl 0)

end Tally

-- The event calls a store from outside, apart from the release for a dropped verification.
def Event.IsCall {name : Type} : Event name → Prop
  | .call _ _ _ => True
  | _ => False

namespace Redemptions

variable {name : Type} [DecidableEq name]

-- Nobody releases a reservation of another: whoever releases a nonce had it reserved when the
-- verification was dropped, or no verification has it reserved.
def RecoversOwn (current : Redemptions name) : Event name → Prop
  | .recover index => ∀ task, current.tasks[index]? = some task → task.caller = .gone →
      task.HasReserved ∨ current.holders task.verifier.store task.token.nonce = 0
  | .call _ _ _ => False
  | _ => True

theorem recoversOwn_of_hasReserved {current : Redemptions name} {index : Nat} {task : Task name}
    (hfound : current.tasks[index]? = some task) (hreserved : task.HasReserved) :
    current.RecoversOwn (.recover index) := by
  intro found hsame _
  obtain rfl := Option.some.inj (hfound.symm.trans hsame)
  exact .inl hreserved

theorem owned_apply (current : Redemptions name) {event : Event name}
    (hsafe : current.RecoversOwn event) {store : name} {nonce : Nonce}
    (h : (current.tally store nonce).Owned) : ((current.apply event).tally store nonce).Owned := by
  cases event with
  | start | resume | drop =>
    exact (current.tally_own (by simp [Event.IsOutside]) store nonce).owned h
  | recover index =>
    rcases current.tally_recover index store nonce with
      hstep | ⟨task, hfound, hgone, hown, hholds, hcall⟩
    · exact hstep.owned h
    · refine hcall.owned ?_ h
      rcases hsafe task hfound hgone with hreserved | hfree
      · exact absurd ⟨hreserved, by simp [hgone]⟩ hholds
      · obtain ⟨rfl, rfl⟩ := hown
        exact hfree
  | call => exact absurd hsafe id

theorem owned_run (initial : NonceStores name) {events : List (Event name)}
    (hsafe : Along RecoversOwn (ofStores initial) events) (store : name) (nonce : Nonce) :
    (((ofStores initial).run events).tally store nonce).Owned := by
  refine hsafe.run_invariant (fun current => (current.tally store nonce).Owned) ?_ ?_
  · intro current event hcurrent hevent
    exact current.owned_apply hevent hcurrent
  · exact ⟨⟨Nat.zero_le 1, fun _ => rfl, fun hpos => absurd hpos (Nat.lt_irrefl 0)⟩,
      fun hpos => absurd hpos (Nat.lt_irrefl 0)⟩

-- Any other verification that has reserved the nonce goes on to release it, or its caller does.
theorem exists_release {current : Redemptions name} {index : Nat} {task : Task name}
    {store : name} {nonce : Nonce} (hfound : current.tasks[index]? = some task)
    (hown : task.Concerns store nonce) (hholds : task.Holds)
    (hother : ¬(task.progress = .storing ∧ task.caller = .waiting)) :
    ∃ event : Event name, current.RecoversOwn event ∧
      (current.apply event).stores.mark store nonce =
        NonceMark.release (current.stores.mark store nonce) ∧
      ∀ other found, other ≠ index → current.tasks[other]? = some found →
        (current.apply event).tasks[other]? = some found := by
  obtain ⟨hreserved, hcaller⟩ := hholds
  cases hgone : task.caller with
  | recovered => exact absurd hgone hcaller
  | gone =>
    refine ⟨.recover index, recoversOwn_of_hasReserved hfound hreserved, ?_,
      fun other found hne hfound => found_recover hfound hne⟩
    have hmark := (replaces_recover hfound hgone).mark_eq hown
    rwa [hown.mark_eq] at hmark
  | waiting =>
    have hreleasing : task.progress = .releasing :=
      hreserved.resolve_left fun hstoring => hother ⟨hstoring, hgone⟩
    refine ⟨.resume index, trivial, ?_, fun other found hne hfound => found_resume hfound hne⟩
    have hmark := (replaces_resume hfound hgone).mark_eq hown
    rwa [hown.mark_eq, hreleasing] at hmark

section Twice

variable {current : Redemptions name} {verifier : Verifier name} {token : Token}
  (hgenuine : verifier.Genuine token)

include hgenuine

-- Once the reservation of a verification is given up by another, the token is spent twice.
theorem two_le_accepted_of_isStoring {index : Nat}
    (hstoring : current.IsStoring index verifier.store token.nonce)
    (habsent : current.stores.mark verifier.store token.nonce = none) :
    2 ≤ (current.run [.start verifier token, .resume current.tasks.length,
      .resume current.tasks.length, .resume index]).accepted verifier.store token.nonce := by
  obtain ⟨task, hfound, hown, hprogress, hcaller⟩ := hstoring
  have hlt := (List.getElem?_eq_some_iff.mp hfound).1
  have hfirst := (isStoring_start current hgenuine habsent).1.accepted_resume
  have hold : (current.run [.start verifier token, .resume current.tasks.length,
      .resume current.tasks.length]).IsStoring index verifier.store token.nonce :=
    ⟨task, found_resume (found_resume (found_start hfound _ _) (by omega)) (by omega), hown,
      hprogress, hcaller⟩
  have hsecond := hold.accepted_resume
  simp only [run_cons, run_nil] at hfirst hsecond ⊢
  omega

theorem accepted_twice_of_isStoring {index : Nat}
    (hstoring : current.IsStoring index verifier.store token.nonce)
    (habsent : current.stores.mark verifier.store token.nonce = none) :
    ∃ events, Along RecoversOwn current events ∧
      2 ≤ (current.run events).accepted verifier.store token.nonce :=
  ⟨_, by simp [Along, RecoversOwn], two_le_accepted_of_isStoring hgenuine hstoring habsent⟩

-- The caller of a verification that was dropped before it reserved anything releases the nonce that
-- another verification has reserved. A third one then reserves it again, and both store it.
theorem two_le_accepted_of_foreign (habsent : current.stores.mark verifier.store token.nonce = none)
    {index : Nat} (hlength : current.tasks.length = index) :
    2 ≤ (current.run [.start verifier token, .resume index, .start verifier token,
      .drop (index + 1), .recover (index + 1), .start verifier token, .resume (index + 2),
      .resume (index + 2), .resume index]).accepted verifier.store token.nonce := by
  subst hlength
  obtain ⟨⟨task, hfound, hown⟩, hreserved⟩ := isStoring_start current hgenuine habsent
  let waiting : Task name := { Verification.start verifier token with caller := .waiting }
  have hwaiting : waiting.progress.isAnswer = false := by
    simp [waiting, Verification.start, hgenuine.expected, Progress.isAnswer]
  have hconcerns : waiting.Concerns verifier.store token.nonce := ⟨rfl, rfl⟩
  have hnew : (current.apply (.start verifier token)).tasks[current.tasks.length]? =
      some waiting := by simp [apply, waiting]
  have hlength := (replaces_resume hnew rfl).length_tasks
  simp only [run_cons, run_nil] at hfound hreserved ⊢
  generalize (current.apply (.start verifier token)).apply (.resume _) = first at *
  have hfirst : first.tasks.length = current.tasks.length + 1 := by simpa [apply] using hlength
  have hsecond : (first.apply (.start verifier token)).tasks[current.tasks.length + 1]? =
      some waiting := by simp [apply, ← hfirst, waiting]
  have hdrop := replaces_drop hsecond rfl hwaiting
  have hrecover := replaces_recover hdrop.found_new rfl
  have hdropped := (hdrop.mark_eq hconcerns).trans ((hconcerns.mark_eq _).trans hreserved)
  have hreleased := (hrecover.mark_eq hconcerns).trans
    (congrArg NonceMark.release ((hconcerns.mark_eq _).trans hdropped))
  have hstoring := found_start hfound verifier token
  rw [← hdrop.found_other (by omega), ← hrecover.found_other (by omega)] at hstoring
  have hlast := hrecover.length_tasks.trans hdrop.length_tasks
  have htwice := two_le_accepted_of_isStoring hgenuine ⟨task, hstoring, hown⟩ hreleased
  have hcount : (first.apply (.start verifier token)).tasks.length = current.tasks.length + 2 := by
    simp [apply, hfirst]
  simpa only [run_cons, run_nil, hlast, hcount] using htwice

-- The same for a verification in any other state: its own release comes later, and gives up the
-- reservation of the next verification.
theorem accepted_twice_of_holds {index : Nat} {task : Task name}
    (hfound : current.tasks[index]? = some task)
    (hown : task.Concerns verifier.store token.nonce) (hholds : task.Holds)
    (habsent : current.stores.mark verifier.store token.nonce = none) :
    ∃ events, Along RecoversOwn current events ∧
      2 ≤ (current.run events).accepted verifier.store token.nonce := by
  by_cases hstoring : task.progress = .storing ∧ task.caller = .waiting
  · exact accepted_twice_of_isStoring hgenuine ⟨task, hfound, hown, hstoring⟩ habsent
  · have hlt := (List.getElem?_eq_some_iff.mp hfound).1
    obtain ⟨⟨fresh, hfresh, hfreshOwn, hfreshStoring⟩, hreserved⟩ :=
      isStoring_start current hgenuine habsent
    obtain ⟨event, hsafe, hmark, hothers⟩ := exists_release
      (found_resume (found_start hfound verifier token) (Nat.ne_of_lt hlt)) hown hholds hstoring
    rw [← run_nil (apply _ (.resume _)), ← run_cons, ← run_cons, hreserved] at hmark
    obtain ⟨events, hevents, htwice⟩ := accepted_twice_of_isStoring hgenuine
      ⟨fresh, hothers _ _ (Nat.ne_of_gt hlt) hfresh, hfreshOwn, hfreshStoring⟩ hmark
    exact ⟨.start verifier token :: .resume current.tasks.length :: event :: events,
      ⟨trivial, trivial, hsafe, hevents⟩, htwice⟩

end Twice

theorem accepted_twice_of_recover (initial : NonceStores name) {events : List (Event name)}
    (hevents : Along RecoversOwn (ofStores initial) events) {index : Nat} {task : Task name}
    {verifier : Verifier name} {token : Token} (hgenuine : verifier.Genuine token)
    (hfound : ((ofStores initial).run events).tasks[index]? = some task)
    (hown : task.Concerns verifier.store token.nonce)
    (hforeign : ¬((ofStores initial).run events).RecoversOwn (.recover index)) :
    ∃ more, Along RecoversOwn (((ofStores initial).run events).apply (.recover index)) more ∧
      2 ≤ ((((ofStores initial).run events).apply (.recover index)).run more).accepted
        verifier.store token.nonce := by
  generalize hfinal : (ofStores initial).run events = final at *
  obtain ⟨hgone, hidle, hheld⟩ : task.caller = .gone ∧ ¬task.HasReserved ∧
      0 < final.holders task.verifier.store task.token.nonce := by
    simpa [RecoversOwn, hfound, Nat.pos_iff_ne_zero] using hforeign
  rw [← hown.1, ← hown.2] at hheld
  have hreserved : final.stores.mark verifier.store token.nonce = some .reserved := by
    have howned := owned_run initial hevents verifier.store token.nonce
    rw [hfinal] at howned
    exact howned.held hheld
  have hreplaces := replaces_recover hfound hgone
  have habsent : (final.apply (.recover index)).stores.mark verifier.store token.nonce = none := by
    have hmark := hreplaces.mark_eq hown
    rwa [hown.mark_eq, hreserved] at hmark
  obtain ⟨holder, hmem, hholderOwn, hholds⟩ := (holders_pos_iff final _ _).mp hheld
  obtain ⟨other, hother⟩ := List.mem_iff_getElem?.mp hmem
  have hne : other ≠ index := by
    rintro rfl
    obtain rfl := Option.some.inj (hfound.symm.trans hother)
    exact hidle hholds.1
  exact accepted_twice_of_holds hgenuine (found_recover hother hne) hholderOwn hholds habsent

-- A release does not say whose reservation it gives up. If each is made by the caller of a
-- verification that had reserved the nonce, or while no verification has it reserved, no nonce is
-- accepted twice; any other release can lead to a nonce that is.
theorem accepted_once_iff_recoversOwn (initial : NonceStores name) (events : List (Event name))
    (hevents : Along RecoversOwn (ofStores initial) events) :
    let final := (ofStores initial).run events
    (∀ store nonce, final.accepted store nonce ≤ 1) ∧
      ∀ (verifier : Verifier name) (token : Token) (index : Nat) (task : Task name),
        verifier.Genuine token → final.tasks[index]? = some task →
        task.Concerns verifier.store token.nonce →
        (final.RecoversOwn (.recover index) ↔
          ∀ more, Along RecoversOwn (final.apply (.recover index)) more →
            ((final.apply (.recover index)).run more).accepted verifier.store token.nonce ≤ 1) := by
  have honce {events : List (Event name)} (h : Along RecoversOwn (ofStores initial) events)
      (store : name) (nonce : Nonce) : ((ofStores initial).run events).accepted store nonce ≤ 1 :=
    Nat.le_trans (Nat.le_add_left _ _) (owned_run initial h store nonce).unique
  refine ⟨honce hevents, fun verifier token index task hgenuine hfound hown => ⟨?_, ?_⟩⟩
  · intro hrecover more hmore
    have hlater : Along RecoversOwn ((ofStores initial).run events) (.recover index :: more) :=
      ⟨hrecover, hmore⟩
    have hall := honce (hevents.append hlater) verifier.store token.nonce
    rwa [run_append] at hall
  · intro hmost
    refine Classical.byContradiction fun hforeign => ?_
    obtain ⟨more, hmore, htwice⟩ :=
      accepted_twice_of_recover initial hevents hgenuine hfound hown hforeign
    have := hmost more hmore
    omega

-- A verification is dropped where it would store its nonce, and its caller releases that while
-- another verification of the token waits.
theorem smooth_accepted_once_after_recovery :
    let events : List (Event Unit) :=
      [.start smoothVerifier smoothToken, .resume 0, .start smoothVerifier smoothToken, .drop 0]
    Along RecoversOwn (ofStores .empty) events ∧
      ∀ more, Along RecoversOwn (((ofStores .empty).run events).apply (.recover 0)) more →
        ((((ofStores .empty).run events).apply (.recover 0)).run more).accepted ()
          smoothToken.nonce ≤ 1 := by
  intro events
  have hevents : Along RecoversOwn (ofStores .empty) events :=
    ⟨trivial, trivial, trivial, trivial, trivial⟩
  obtain ⟨task, hfound, hown, hprogress, -⟩ :=
    exists_dropped (ofStores .empty) smoothToken_genuine (NonceStores.mark_empty _ _)
      (length_ofStores .empty)
  have hrecover := recoversOwn_of_hasReserved hfound (.inl hprogress)
  obtain ⟨-, hiff⟩ := accepted_once_iff_recoversOwn .empty events hevents
  exact ⟨hevents,
    (hiff smoothVerifier smoothToken 0 task smoothToken_genuine hfound hown).mp hrecover⟩

theorem accepted_twice_after_recovery :
    ¬∀ (initial : NonceStores Unit) (events : List (Event Unit)),
      (∀ event ∈ events, ¬event.IsCall) →
      ∀ store nonce, ((ofStores initial).run events).accepted store nonce ≤ 1 := by
  intro honce
  have hmost := honce .empty
    [.start smoothVerifier smoothToken, .resume 0, .start smoothVerifier smoothToken, .drop 1,
      .recover 1, .start smoothVerifier smoothToken, .resume 2, .resume 2, .resume 0]
    (by simp [Event.IsCall]) smoothVerifier.store smoothToken.nonce
  have htwice := two_le_accepted_of_foreign smoothToken_genuine (NonceStores.mark_empty _ _)
    (length_ofStores .empty)
  exact Nat.not_succ_le_self 1 (Nat.le_trans htwice hmost)

end Redemptions

end BlindToken
