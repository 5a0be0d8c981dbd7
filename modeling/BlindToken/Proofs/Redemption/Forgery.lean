import BlindToken.Proofs.Redemption.Twin

namespace BlindToken

-- The authenticator plays no part in what a verifier expects.
theorem Verifier.Expects.replace {name : Type} {verifier : Verifier name} {token : Token}
    (h : verifier.Expects token) (authenticator : Block signatureSize) :
    verifier.Expects { token with authenticator := authenticator } := h

theorem goesOn_roundRobin {name : Type} (verifier : Verifier name) (tokens : List Token) :
    ∀ event ∈ roundRobin verifier tokens, event.GoesOn := by
  intro event hevent
  simp only [roundRobin, List.mem_append, List.mem_map] at hevent
  rcases hevent with (⟨token, -, rfl⟩ | ⟨index, -, rfl⟩) | ⟨index, -, rfl⟩ <;> trivial

namespace Task

variable {name : Type} [DecidableEq name]

-- The token is genuine and has been rejected.
structure Rejected (store : name) (nonce : Nonce) (task : Task name) : Prop where
  concerns : task.Concerns store nonce
  genuine : task.isForged = false
  answered : task.progress = .answered false

theorem Rejected.advance {store : name} {nonce : Nonce} {task : Task name}
    (h : task.Rejected store nonce) (stores : NonceStores name) :
    (task.advance stores).Rejected store nonce := by
  rw [task.advance_of_answered stores h.answered]
  exact h

end Task

namespace Redemptions

variable {name : Type} [DecidableEq name] {current : Redemptions name} {event : Event name}
  {index : Nat} {task : Task name} {store : name} {nonce : Nonce}

section Blocked

variable {initial : Option NonceMark} {full kept : Redemptions name} {events : List (Event name)}

theorem MeetsForged.append (h : current.MeetsForged events store nonce index)
    (more : List (Event name)) : current.MeetsForged (events ++ more) store nonce index := by
  obtain ⟨before, after, rfl, hblocked⟩ := h
  exact ⟨before, after ++ more, by simp, hblocked⟩

-- A verification that is blocked is rejected.
theorem Steady.rejected_of_blocked (h : Steady initial store nonce full)
    (hblocked : full.Blocked store nonce index) :
    ∃ task, (full.apply (.resume index)).tasks[index]? = some task ∧
      task.Rejected store nonce := by
  obtain ⟨task, hfound, hown, hgenuine, hreserving, hother⟩ := hblocked
  have hheld := (h.forged ((forgedHolders_pos_iff full store nonce).mpr hother)).2
  have hcaller := (h.undisturbed hfound).waiting
  refine ⟨_, (replaces_advance hfound hcaller).found_new, ?_, ?_, ?_⟩
  · exact (task.concerns_advance ..).mpr hown
  · rw [Task.isForged_advance, hgenuine]
  · simp [Task.advance_eq, hreserving, hown.mark_eq, hheld, Progress.next]

-- Without the forged tokens it goes on to be accepted.
theorem Twin.headsFor_of_blocked (h : Twin store nonce full kept)
    (hsteady : Steady initial store nonce full) (hblocked : full.Blocked store nonce index) :
    ∃ twin, (kept.apply (.resume (full.place index))).tasks[full.place index]? = some twin ∧
      twin.HeadsFor true := by
  obtain ⟨task, hfound, hown, hgenuine, hreserving, hother⟩ := hblocked
  have hpos := (forgedHolders_pos_iff full store nonce).mpr hother
  obtain ⟨twin, htwin, hseen⟩ := h.exists_found hfound hgenuine
  obtain ⟨hverifier, htoken, hsame, hprogress⟩ := (Task.seen_eq_iff ..).mp hseen
  have hcaller : twin.caller = .waiting :=
    hsame.trans (hsteady.undisturbed hfound).waiting
  have hkept : twin.Concerns store nonce := by
    simpa only [Verification.Concerns, hverifier, htoken] using hown
  have hforged : twin.isForged = false := by
    simpa only [Verification.isForged, hverifier, htoken] using hgenuine
  have habsent : twin.mark kept.stores = none := by
    rw [hkept.mark_eq, h.mark, if_pos hpos]
  refine ⟨_, (replaces_advance htwin hcaller).found_new, hcaller, .inr ?_⟩
  simp [Task.advance_eq, hprogress hown, hreserving, habsent, hforged, Progress.next]

-- After the first verification that is blocked, the two runs differ in its answer.
theorem Twin.exists_ne (h : Twin store nonce full kept) (hsteady : Steady initial store nonce full)
    (hgoes : ∀ event ∈ events, event.GoesOn) (hmeets : full.MeetsForged events store nonce index) :
    ∃ index task, (full.run events).tasks[index]? = some task ∧ task.Concerns store nonce ∧
      task.isForged = false ∧
      (kept.run (full.withoutForged events)).answer? ((full.run events).place index) ≠
        (full.run events).answer? index := by
  induction events generalizing full kept with
  | nil =>
    obtain ⟨before, after, hevents, -⟩ := hmeets
    simp at hevents
  | cons event rest ih =>
    obtain ⟨hevent, hrest⟩ := List.forall_mem_cons.mp hgoes
    rw [withoutForged, run_append, run_cons]
    by_cases hhere : ∃ index, event = .resume index ∧ full.Blocked store nonce index
    · obtain ⟨index, rfl, hblocked⟩ := hhere
      have hrejected := hsteady.rejected_of_blocked hblocked
      have haccepted := h.headsFor_of_blocked hsteady hblocked
      obtain ⟨task, hfound, -, hgenuine, -⟩ := hblocked
      have hremaining : full.remaining (.resume index) = [.resume (full.place index)] := by
        simp [remaining, isForged, Event.move, hfound, hgenuine]
      have hindex := Nat.le_of_lt (List.getElem?_eq_some_iff.mp hfound).1
      have hplace : (full.run (.resume index :: rest)).place index = full.place index :=
        place_run hgoes hindex
      rw [run_cons] at hplace
      obtain ⟨last, hlast, hrejected⟩ := found_run (fun _ _ h => h.advance _) hrest hrejected
      obtain ⟨twin, htwin, haccepted⟩ :=
        found_run (fun _ _ h => h.advance _) (goesOn_withoutForged hrest) haccepted
      have hanswer := ((hsteady.apply hevent).run hrest).answer?_eq hlast
      refine ⟨index, last, hlast, hrejected.concerns, hrejected.genuine, ?_⟩
      rw [hanswer, hrejected.answered, hplace, hremaining]
      exact answer?_ne htwin haccepted
    · have hnext := h.apply hsteady hevent
        fun index hsame hblocked => hhere ⟨index, hsame, hblocked⟩
      refine ih hnext (hsteady.apply hevent) hrest ?_
      rcases (meetsForged_cons ..).mp hmeets with hnow | hlater
      · exact absurd ⟨index, hnow⟩ hhere
      · exact hlater

-- A nonce that was not known before is reserved or stored by a verification.
theorem Steady.forged_or_headsFor (h : Steady none store nonce current)
    (hmark : current.stores.mark store nonce ≠ none) :
    (∃ task ∈ current.tasks, task.Concerns store nonce ∧ task.isForged ∧ task.HasReserved) ∨
      ∃ (index : Nat) (task : Task name), current.tasks[index]? = some task ∧
        task.Concerns store nonce ∧ task.HeadsFor true := by
  rcases h.accounts.of_known rfl hmark with hheld | haccepted
  · obtain ⟨task, hmem, hown, hholds⟩ := (holders_pos_iff current store nonce).mp hheld
    have hreserved := (h.holds_iff hmem).mp hholds
    cases hforged : task.isForged with
    | true => exact .inl ⟨task, hmem, hown, hforged, hreserved⟩
    | false =>
      have hstoring : task.progress = .storing := by
        refine hreserved.resolve_right fun hreleasing => ?_
        have hreleases := (h.tasks task hmem).releasing hreleasing
        simp [hforged] at hreleases
      obtain ⟨index, hindex⟩ := List.mem_iff_getElem?.mp hmem
      exact .inr ⟨index, task, hindex, hown, (h.tasks task hmem).waiting, .inr hstoring⟩
  · obtain ⟨task, hmem, hown, hanswered⟩ := (accepted_pos_iff current store nonce).mp haccepted
    obtain ⟨index, hindex⟩ := List.mem_iff_getElem?.mp hmem
    exact .inr ⟨index, task, hindex, hown, (h.tasks task hmem).waiting, .inl hanswered⟩

-- Only the step that has to reserve the nonce can reject a genuine token.
theorem Steady.rejected_advance (h : Steady none store nonce current)
    (hfound : current.tasks[index]? = some task)
    (hrejected : (task.advance current.stores).Rejected store nonce) :
    task.advance current.stores = task ∨ current.Blocked store nonce index ∨
      ∃ (other : Nat) (rival : Task name), current.tasks[other]? = some rival ∧
        rival.Concerns store nonce ∧ rival.HeadsFor true := by
  have hgenuine : task.isForged = false := by simpa using hrejected.genuine
  have hown : task.Concerns store nonce := (task.concerns_advance ..).mp hrejected.concerns
  have hanswered : task.progress.next true (task.mark current.stores) = .answered false := by
    simpa [Task.advance_eq, hgenuine] using hrejected.answered
  cases hprogress : task.progress with
  | reserving =>
    rw [hprogress, hown.mark_eq] at hanswered
    have hmark : current.stores.mark store nonce ≠ none := by
      intro habsent
      simp [habsent, Progress.next] at hanswered
    rcases h.forged_or_headsFor hmark with hforged | hheads
    · exact .inr (.inl ⟨task, hfound, hown, hgenuine, hprogress, hforged⟩)
    · exact .inr (.inr hheads)
  | storing => simp [hprogress, Progress.next] at hanswered
  | releasing =>
    have hreleases := (h.undisturbed hfound).releasing hprogress
    simp [hgenuine] at hreleases
  | answered valid => exact .inl (task.advance_of_answered _ hprogress)

theorem Steady.rejected_cases (h : Steady none store nonce current) (hgoes : event.GoesOn)
    (hfound : (current.apply event).tasks[index]? = some task)
    (hrejected : task.Rejected store nonce) (hexpects : task.verifier.Expects task.token) :
    current.tasks[index]? = some task ∨
      (event = .resume index ∧ current.Blocked store nonce index) ∨
      ∃ (other : Nat) (rival : Task name), current.tasks[other]? = some rival ∧
        rival.Concerns store nonce ∧ rival.HeadsFor true := by
  cases event with
  | start verifier token =>
    left
    rcases Nat.lt_or_ge index current.tasks.length with hlt | hge
    · rw [← hfound]
      exact (List.getElem?_append_left hlt).symm
    · -- a verification that has just been started has no answer yet
      have hnew := (List.getElem?_append_right hge).symm.trans hfound
      obtain rfl := List.mem_singleton.mp (List.mem_of_getElem? hnew)
      have hanswered := hrejected.answered
      simp [Verification.start, show verifier.Expects token from hexpects] at hanswered
  | resume other =>
    by_cases hother : index = other
    · subst hother
      rcases current.resume_cases index with hsame | ⟨old, -, hreplaces⟩
      · exact .inl (hsame ▸ hfound)
      · obtain rfl := Option.some.inj (hfound.symm.trans hreplaces.found_new)
        rcases h.rejected_advance hreplaces.found hrejected with hstays | hblocked | hheads
        · exact .inl (hreplaces.found.trans (congrArg some hstays.symm))
        · exact .inr (.inl ⟨rfl, hblocked⟩)
        · exact .inr (.inr hheads)
    · left
      rcases current.resume_cases other with hsame | ⟨old, -, hreplaces⟩
      · exact hsame ▸ hfound
      · rw [← hreplaces.found_other hother]
        exact hfound
  | drop | recover | call => exact absurd hgoes id

-- A genuine token with an unknown nonce is rejected for a forged one or for an accepted one.
theorem meetsForged_or_headsFor (initial : NonceStores name)
    (habsent : initial.mark store nonce = none) (hgoes : ∀ event ∈ events, event.GoesOn)
    (hfound : ((ofStores initial).run events).tasks[index]? = some task)
    (hrejected : task.Rejected store nonce) (hexpects : task.verifier.Expects task.token) :
    (ofStores initial).MeetsForged events store nonce index ∨
      ∃ (other : Nat) (rival : Task name),
        ((ofStores initial).run events).tasks[other]? = some rival ∧
        rival.Concerns store nonce ∧ rival.HeadsFor true := by
  induction events using List.reverseRecOn generalizing task with
  | nil => simp [ofStores, run] at hfound
  | append_singleton before event ih =>
    obtain ⟨hbefore, hevent⟩ := List.forall_mem_append.mp hgoes
    have hevent : event.GoesOn := hevent event List.mem_cons_self
    have hsteady : Steady none store nonce ((ofStores initial).run before) :=
      habsent ▸ (Steady.ofStores initial store nonce).run hbefore
    have hlast : (ofStores initial).run (before ++ [event]) =
        ((ofStores initial).run before).apply event := by
      rw [run_append]
      rfl
    -- one that is about to be accepted stays so
    have hkeep : (∃ (other : Nat) (rival : Task name),
          ((ofStores initial).run before).tasks[other]? = some rival ∧
          rival.Concerns store nonce ∧ rival.HeadsFor true) →
        ∃ (other : Nat) (rival : Task name),
          ((ofStores initial).run (before ++ [event])).tasks[other]? = some rival ∧
          rival.Concerns store nonce ∧ rival.HeadsFor true := by
      rintro ⟨other, hrival⟩
      rw [hlast]
      refine ⟨other, found_apply (fun rival stores h => ⟨?_, h.2.advance _⟩) hevent hrival⟩
      exact (rival.concerns_advance ..).mpr h.1
    rw [hlast] at hfound
    rcases hsteady.rejected_cases hevent hfound hrejected hexpects with
      hold | ⟨rfl, hblocked⟩ | hheads
    · rcases ih hbefore hold hrejected hexpects with hmeets | hheads
      · exact .inl (hmeets.append [event])
      · exact .inr (hkeep hheads)
    · exact .inl ⟨before, [], rfl, hblocked⟩
    · exact .inr (hkeep hheads)

-- What has been rejected for a forged token stays so.
theorem Steady.rejected_of_meetsForged (h : Steady initial store nonce current)
    (hgoes : ∀ event ∈ events, event.GoesOn)
    (hmeets : current.MeetsForged events store nonce index) :
    ∃ task, (current.run events).tasks[index]? = some task ∧ task.Rejected store nonce := by
  obtain ⟨before, after, rfl, hblocked⟩ := hmeets
  obtain ⟨hbefore, hafter⟩ := List.forall_mem_append.mp hgoes
  have hrejected := (h.run hbefore).rejected_of_blocked hblocked
  rw [run_append, run_cons]
  exact found_run (fun _ _ h => h.advance _) (List.forall_mem_cons.mp hafter).2 hrejected

-- Only one verification of a nonce is accepted.
theorem Steady.index_eq_of_accepted (h : Steady initial store nonce current) {other : Nat}
    {rival : Task name} (hfound : current.tasks[index]? = some task)
    (hother : current.tasks[other]? = some rival) (hown : task.Concerns store nonce)
    (hrival : rival.Concerns store nonce) (haccepted : task.progress = .answered true)
    (hrivals : rival.progress = .answered true) : index = other := by
  obtain ⟨hindex, rfl⟩ := List.getElem?_eq_some_iff.mp hfound
  obtain ⟨hplace, rfl⟩ := List.getElem?_eq_some_iff.mp hother
  exact index_eq_of_countP_le_one h.accounts.accepted_le_one hindex hplace
    (decide_eq_true ⟨hown, haccepted⟩) (decide_eq_true ⟨hrival, hrivals⟩)

-- A genuine token with an unknown nonce that has been rejected met a forged one, or another
-- verification of its nonce was accepted.
theorem cause_of_rejected (initial : NonceStores name) (habsent : initial.mark store nonce = none)
    (hgoes : ∀ event ∈ events, event.GoesOn)
    (hanswers : ∀ task ∈ ((ofStores initial).run events).tasks, task.progress.isAnswer)
    (hfound : ((ofStores initial).run events).tasks[index]? = some task)
    (hrejected : task.Rejected store nonce) (hexpects : task.verifier.Expects task.token) :
    (ofStores initial).MeetsForged events store nonce index ∨
      ∃ other rival, other ≠ index ∧ ((ofStores initial).run events).tasks[other]? = some rival ∧
        rival.Concerns store nonce ∧ rival.progress = .answered true := by
  rcases meetsForged_or_headsFor initial habsent hgoes hfound hrejected hexpects with
    hmeets | ⟨other, rival, hother, hrival, hheads⟩
  · exact .inl hmeets
  · -- the other one has its answer by now
    have haccepted : rival.progress = .answered true := by
      refine hheads.near.resolve_right fun hstoring => ?_
      have hanswer := hanswers rival (List.mem_of_getElem? hother)
      simp [hstoring, Progress.isAnswer] at hanswer
    refine .inr ⟨other, rival, ?_, hother, hrival, haccepted⟩
    rintro rfl
    obtain rfl := Option.some.inj (hfound.symm.trans hother)
    simp [hrejected.answered] at haccepted

theorem rejected_iff (initial : NonceStores name) (habsent : initial.mark store nonce = none)
    (hgoes : ∀ event ∈ events, event.GoesOn) {full : Redemptions name}
    (hfull : (ofStores initial).run events = full)
    (hanswers : ∀ task ∈ full.tasks, task.progress.isAnswer)
    (hfound : full.tasks[index]? = some task) (hown : task.Concerns store nonce)
    (hgenuine : task.verifier.Genuine task.token) :
    full.answer? index = some false ↔
      (ofStores initial).MeetsForged events store nonce index ∨
        ∃ other rival, other ≠ index ∧ full.tasks[other]? = some rival ∧
          rival.Concerns store nonce ∧ full.answer? other = some true := by
  subst hfull
  have hsteady := (Steady.ofStores initial store nonce).run hgoes
  constructor
  · intro hfalse
    rw [hsteady.answer?_eq hfound, Progress.answer?_eq_some_iff] at hfalse
    have hforged : task.isForged = false := by
      simp [Verification.isForged, hgenuine.authentic]
    rcases cause_of_rejected initial habsent hgoes hanswers hfound ⟨hown, hforged, hfalse⟩
      hgenuine.expected with hmeets | ⟨other, rival, hne, hother, hrival, haccepted⟩
    · exact .inl hmeets
    · refine .inr ⟨other, rival, hne, hother, hrival, ?_⟩
      rw [hsteady.answer?_eq hother, haccepted]
      rfl
  · rintro (hmeets | ⟨other, rival, hne, hother, hrival, htrue⟩)
    · obtain ⟨last, hlast, hrejected⟩ :=
        (Steady.ofStores initial store nonce).rejected_of_meetsForged hgoes hmeets
      rw [hsteady.answer?_eq hlast, hrejected.answered]
      rfl
    · rw [hsteady.answer?_eq hother, Progress.answer?_eq_some_iff] at htrue
      obtain ⟨valid, hvalid⟩ :=
        Progress.exists_of_isAnswer (hanswers task (List.mem_of_getElem? hfound))
      rw [hsteady.answer?_eq hfound, hvalid]
      cases valid with
      | false => rfl
      | true =>
        have hsame := hsteady.index_eq_of_accepted hfound hother hown hrival hvalid htrue
        exact absurd hsame.symm hne

-- Taking the verifications of forged tokens out of a run changes the answer of a genuine one
-- exactly if, for some verification of its nonce, the nonce was reserved by a forged one when it
-- was its turn to be reserved.
theorem answers_unchanged_iff (initial : NonceStores name) (events : List (Event name))
    (hgoes : ∀ event ∈ events, event.GoesOn) (store : name) (nonce : Nonce) :
    let full := (ofStores initial).run events
    let kept := (ofStores initial).run ((ofStores initial).withoutForged events)
    kept.tasks.map Task.asked = full.genuine.map Task.asked ∧
      ((∀ index task, full.tasks[index]? = some task → task.Concerns store nonce →
          task.isForged = false → kept.answer? (full.place index) = full.answer? index) ↔
        ∀ index, ¬(ofStores initial).MeetsForged events store nonce index) ∧
      (initial.mark store nonce = none → (∀ task ∈ full.tasks, task.progress.isAnswer) →
        ∀ index task, full.tasks[index]? = some task → task.Concerns store nonce →
          task.verifier.Genuine task.token →
          (full.answer? index = some false ↔
            (ofStores initial).MeetsForged events store nonce index ∨
              ∃ other rival, other ≠ index ∧ full.tasks[other]? = some rival ∧
                rival.Concerns store nonce ∧ full.answer? other = some true)) := by
  intro full kept
  have hsteady := Steady.ofStores initial store nonce
  have htwin := Twin.ofStores initial store nonce
  refine ⟨?_, ⟨?_, ?_⟩, ?_⟩
  · rw [asked_run _ (goesOn_withoutForged hgoes), asked_withoutForged _ hgoes, asked_genuine,
      asked_run _ hgoes]
    rfl
  · intro hsame index hmeets
    obtain ⟨place, task, hfound, hown, hgenuine, hne⟩ := htwin.exists_ne hsteady hgoes hmeets
    exact hne (hsame place task hfound hown hgenuine)
  · intro hfree index task hfound hown hgenuine
    exact (htwin.run hsteady hgoes hfree).answer?_eq (hsteady.run hgoes) hfound hown hgenuine
  · intro habsent hanswers index task hfound hown hgenuine
    exact rejected_iff initial habsent hgoes rfl hanswers hfound hown hgenuine

end Blocked

section RoundRobin

variable {verifier : Verifier name} {asked : List (Token × Progress)} {mark : Option NonceMark}
  {token forged : Token} {progress : Progress} {genuine : Bool}

-- All tasks are at one verifier, which has this mark for the nonce.
structure Shows (verifier : Verifier name) (nonce : Nonce) (asked : List (Token × Progress))
    (mark : Option NonceMark) (current : Redemptions name) : Prop where
  tasks : current.tasks = asked.map fun ask => ⟨⟨verifier, ask.1, ask.2⟩, .waiting⟩
  mark : current.stores.mark verifier.store nonce = mark

theorem Shows.start (h : Shows verifier nonce asked mark current)
    (hexpects : verifier.Expects token) :
    Shows verifier nonce (asked ++ [(token, .reserving)]) mark
      (current.apply (.start verifier token)) := by
  refine ⟨?_, h.mark⟩
  simp [Redemptions.apply, h.tasks, Verification.start, hexpects]

theorem Shows.resume (h : Shows verifier nonce asked mark current) (index : Nat)
    (hasked : asked[index]? = some (token, progress)) (hnonce : nonce = token.nonce)
    (hgenuine : verifier.publicKey.authenticates token = genuine) :
    Shows verifier nonce (asked.set index (token, progress.next genuine mark))
      (NonceMark.after progress mark) (current.apply (.resume index)) := by
  let task : Task name := ⟨⟨verifier, token, progress⟩, .waiting⟩
  have hfound : current.tasks[index]? = some task := by
    rw [h.tasks, List.getElem?_map, hasked]
    rfl
  have hown : task.Concerns verifier.store nonce := ⟨rfl, hnonce⟩
  have hreplaces := replaces_advance hfound rfl
  refine ⟨?_, ?_⟩
  · rw [hreplaces.tasks, h.tasks, Task.advance_eq, hown.mark_eq, h.mark, List.map_set]
    simp [task, Verification.isForged, hgenuine]
  · rw [hreplaces.marks, if_pos hown, hown.mark_eq, h.mark]

theorem Shows.answer?_eq (h : Shows verifier nonce asked mark current) (index : Nat) :
    current.answer? index = asked[index]?.bind (·.2.answer?) := by
  cases hasked : asked[index]? with
  | none => simp [answer?, h.tasks, hasked]
  | some ask =>
    have hfound : current.tasks[index]? = some ⟨⟨verifier, ask.1, ask.2⟩, .waiting⟩ := by
      simp [h.tasks, hasked]
    exact Redemptions.answer?_eq hfound rfl

theorem Shows.isAnswer (h : Shows verifier nonce asked mark current)
    (hasked : ∀ ask ∈ asked, ask.2.isAnswer) :
    ∀ task ∈ current.tasks, task.progress.isAnswer := by
  intro task htask
  rw [h.tasks] at htask
  obtain ⟨ask, hask, rfl⟩ := List.mem_map.mp htask
  exact hasked ask hask

-- A forged and a genuine token with the same nonce in turn, and the genuine one alone.
theorem shows_roundRobin (initial : NonceStores name) (hgenuine : verifier.Genuine token)
    (hexpects : verifier.Expects forged)
    (hforged : verifier.publicKey.authenticates forged = false)
    (hnonce : token.nonce = forged.nonce)
    (habsent : initial.mark verifier.store token.nonce = none) :
    let events := roundRobin verifier [forged, token]
    let full := (ofStores initial).run events
    Shows verifier token.nonce [(forged, .answered false), (token, .answered false)] none full ∧
      full.place 1 = 0 ∧ Shows verifier token.nonce [(token, .answered true)] (some .stored)
        ((ofStores initial).run ((ofStores initial).withoutForged events)) := by
  intro events full
  have hturn : events = [.start verifier forged, .start verifier token, .resume 0, .resume 1,
      .resume 0, .resume 1] := rfl
  have hempty : Shows verifier token.nonce [] none (ofStores initial) := ⟨rfl, habsent⟩
  have hfirst := hempty.start hexpects
  have hstarted := hfirst.start hgenuine.expected
  have hheld := hstarted.resume 0 rfl hnonce hforged
  have hrejected := hheld.resume 1 rfl rfl hgenuine.authentic
  have hreleased := hrejected.resume 0 rfl hnonce hforged
  have hfull : Shows verifier token.nonce [(forged, .answered false), (token, .answered false)]
      none full := by
    have hlast := hreleased.resume 1 rfl rfl hgenuine.authentic
    simp only [full, hturn, run_cons, run_nil]
    exact hlast
  have hevents : (ofStores initial).withoutForged events =
      [.start verifier token, .resume 0, .resume 0] := by
    simp [hturn, withoutForged, remaining, isForged, Event.move, place, hforged,
      hgenuine.authentic, hstarted.tasks, hheld.tasks, hrejected.tasks, hreleased.tasks,
      Verification.isForged]
  refine ⟨hfull, ?_, ?_⟩
  · simp [place, hfull.tasks, Verification.isForged, hforged]
  · have hstoring := (hempty.start hgenuine.expected).resume 0 rfl rfl hgenuine.authentic
    rw [hevents]
    exact hstoring.resume 0 rfl rfl hgenuine.authentic

theorem rejected_beside_forged (initial : NonceStores name) (hgenuine : verifier.Genuine token)
    (hexpects : verifier.Expects forged)
    (hforged : verifier.publicKey.authenticates forged = false)
    (hnonce : token.nonce = forged.nonce)
    (habsent : initial.mark verifier.store token.nonce = none) :
    let events := roundRobin verifier [forged, token]
    let full := (ofStores initial).run events
    let kept := (ofStores initial).run ((ofStores initial).withoutForged events)
    (∀ task ∈ full.tasks, task.progress.isAnswer) ∧ full.answer? 0 = some false ∧
      full.answer? 1 = some false ∧ kept.answer? (full.place 1) = some true := by
  intro events full kept
  obtain ⟨hfull, hplace, hkept⟩ :=
    shows_roundRobin initial hgenuine hexpects hforged hnonce habsent
  refine ⟨hfull.isAnswer (by simp [Progress.isAnswer]), hfull.answer?_eq 0, hfull.answer?_eq 1, ?_⟩
  rw [hplace]
  exact hkept.answer?_eq 0

end RoundRobin

-- The token with another authenticator.
def smoothForgery : Token := { smoothToken with authenticator := Block.ofNat signatureSize 0 }

theorem not_authenticates_smoothForgery :
    smoothVerifier.publicKey.authenticates smoothForgery = false := by
  decide +kernel

theorem smoothForgery_expected : smoothVerifier.Expects smoothForgery :=
  smoothToken_genuine.expected.replace _

-- Both tokens are rejected, but the genuine one is accepted without the forged one.
theorem genuine_rejected_beside_forged :
    let events := roundRobin smoothVerifier [smoothForgery, smoothToken]
    let full := (ofStores .empty).run events
    let kept := (ofStores .empty).run ((ofStores .empty).withoutForged events)
    smoothVerifier.Genuine smoothToken ∧ (∀ event ∈ events, event.GoesOn) ∧
      (∀ task ∈ full.tasks, task.progress.isAnswer) ∧ full.answer? 0 = some false ∧
      full.answer? 1 = some false ∧ kept.answer? (full.place 1) = some true := by
  have hrejected := rejected_beside_forged .empty smoothToken_genuine smoothForgery_expected
    not_authenticates_smoothForgery rfl (NonceStores.mark_empty _ _)
  exact ⟨smoothToken_genuine, goesOn_roundRobin _ _, hrejected⟩

-- The genuine one had to be reserved while the forged one had the nonce.
theorem smooth_meetsForged :
    let events := roundRobin smoothVerifier [smoothForgery, smoothToken]
    (∀ event ∈ events, event.GoesOn) ∧
      (ofStores .empty).MeetsForged events () smoothToken.nonce 1 := by
  intro events
  obtain ⟨hfull, -, -⟩ := shows_roundRobin .empty smoothToken_genuine smoothForgery_expected
    not_authenticates_smoothForgery rfl (NonceStores.mark_empty _ _)
  obtain ⟨-, -, hrejected⟩ := answers_unchanged_iff .empty events (goesOn_roundRobin _ _) ()
    smoothToken.nonce
  refine ⟨goesOn_roundRobin _ _, ?_⟩
  have hanswers : ∀ task ∈ ((ofStores .empty).run events).tasks, task.progress.isAnswer :=
    hfull.isAnswer (by simp [Progress.isAnswer])
  have hfound : ((ofStores .empty).run events).tasks[1]? =
      some ⟨⟨smoothVerifier, smoothToken, .answered false⟩, .waiting⟩ := by
    rw [hfull.tasks]
    rfl
  rcases (hrejected (NonceStores.mark_empty _ _) hanswers 1 _ hfound ⟨rfl, rfl⟩
    smoothToken_genuine).mp (hfull.answer?_eq 1) with hmeets | ⟨other, -, -, -, -, haccepted⟩
  · exact hmeets
  · -- no answer is true
    have hnone := (hfull.answer?_eq other).symm.trans haccepted
    rcases other with _ | _ | other <;> simp [Progress.answer?] at hnone

end Redemptions

end BlindToken
