import BlindToken.Proofs.Redemption.Steady

namespace BlindToken

section Kept

variable {α : Type} {p : α → Bool} {items : List α} {index : Nat} {old : α}

private theorem exists_append_of_getElem? (hfound : items[index]? = some old) :
    ∃ front back, items = front ++ old :: back ∧ front.length = index := by
  obtain ⟨hindex, rfl⟩ := List.getElem?_eq_some_iff.mp hfound
  refine ⟨items.take index, items.drop (index + 1), ?_, ?_⟩
  · rw [List.getElem_cons_drop, List.take_append_drop]
  · rw [List.length_take, Nat.min_eq_left (Nat.le_of_lt hindex)]

theorem set_eq_self (hfound : items[index]? = some old) : items.set index old = items := by
  obtain ⟨hindex, rfl⟩ := List.getElem?_eq_some_iff.mp hfound
  exact List.set_getElem_self hindex

-- An item that is kept stands behind the kept ones of those before it.
theorem getElem?_filter_of_pos (hfound : items[index]? = some old) (hold : p old) :
    (items.filter p)[(items.take index).countP p]? = some old := by
  obtain ⟨front, back, rfl, rfl⟩ := exists_append_of_getElem? hfound
  simp [hold, List.countP_eq_length_filter]

theorem filter_set_of_pos (hfound : items[index]? = some old) (hold : p old) {new : α}
    (hnew : p new) :
    (items.set index new).filter p = (items.filter p).set ((items.take index).countP p) new := by
  obtain ⟨front, back, rfl, rfl⟩ := exists_append_of_getElem? hfound
  simp [hold, hnew, List.countP_eq_length_filter]

theorem filter_set_of_neg (hfound : items[index]? = some old) (hold : p old = false) {new : α}
    (hnew : p new = false) : (items.set index new).filter p = items.filter p := by
  obtain ⟨front, back, rfl, rfl⟩ := exists_append_of_getElem? hfound
  simp [hold, hnew]

end Kept

namespace Event

variable {name : Type}

-- The same event of a verification that stands in another place.
def move (place : Nat → Nat) : Event name → Event name
  | .start verifier token => .start verifier token
  | .resume index => .resume (place index)
  | .drop index => .drop (place index)
  | .recover index => .recover (place index)
  | .call store nonce operation => .call store nonce operation

-- The verifier and the token of a verification that is started.
def asked : Event name → List (Verifier name × Token)
  | .start verifier token => [(verifier, token)]
  | _ => []

end Event

namespace Redemptions

variable {name : Type}

-- The tasks of genuine tokens, and where a task stands among them.
def genuine (current : Redemptions name) : List (Task name) :=
  current.tasks.filter fun task => !task.isForged

def place (current : Redemptions name) (index : Nat) : Nat :=
  (current.tasks.take index).countP fun task => !task.isForged

-- Whether the event belongs to a verification of a forged token.
def isForged (current : Redemptions name) : Event name → Bool
  | .start verifier token => !verifier.publicKey.authenticates token
  | .resume index => (current.tasks[index]?).any (·.isForged)
  | .drop index => (current.tasks[index]?).any (·.isForged)
  | .recover index => (current.tasks[index]?).any (·.isForged)
  | .call _ _ _ => false

-- What is left of the event when the forged tokens are taken out.
def remaining (current : Redemptions name) (event : Event name) : List (Event name) :=
  if current.isForged event then [] else [event.move current.place]

-- The run with all events of the forged tokens taken out.
def withoutForged [DecidableEq name] (current : Redemptions name) :
    List (Event name) → List (Event name)
  | [] => []
  | event :: rest => current.remaining event ++ withoutForged (current.apply event) rest

end Redemptions

def isAuthentic {name : Type} (asked : Verifier name × Token) : Bool :=
  asked.1.publicKey.authenticates asked.2

namespace Task

variable {name : Type} [DecidableEq name]

def asked {name : Type} (task : Task name) : Verifier name × Token := (task.verifier, task.token)

@[simp] theorem asked_advance (task : Task name) (stores : NonceStores name) :
    (task.advance stores).asked = task.asked := by
  simp [asked, advance_eq]

-- What a task shows of one nonce: whose it is, and how far it is if it concerns the nonce.
def seen (store : name) (nonce : Nonce) (task : Task name) :
    Verifier name × Token × Caller × Option Progress :=
  (task.verifier, task.token, task.caller,
    if task.Concerns store nonce then some task.progress else none)

theorem seen_eq_iff (store : name) (nonce : Nonce) (task other : Task name) :
    task.seen store nonce = other.seen store nonce ↔ task.verifier = other.verifier ∧
      task.token = other.token ∧ task.caller = other.caller ∧
      (other.Concerns store nonce → task.progress = other.progress) := by
  simp only [seen, Prod.mk.injEq]
  constructor
  · rintro ⟨hverifier, htoken, hcaller, hprogress⟩
    refine ⟨hverifier, htoken, hcaller, fun hown => ?_⟩
    have htask : task.Concerns store nonce := by
      simpa only [Verification.Concerns, hverifier, htoken] using hown
    simpa [hown, htask] using hprogress
  · rintro ⟨hverifier, htoken, hcaller, hprogress⟩
    refine ⟨hverifier, htoken, hcaller, ?_⟩
    have hiff : task.Concerns store nonce ↔ other.Concerns store nonce := by
      simp only [Verification.Concerns, hverifier, htoken]
    by_cases hown : other.Concerns store nonce
    · simp [hown, hiff.mpr hown, hprogress hown]
    · simp [hown, mt hiff.mp hown]

end Task

namespace Redemptions

variable {name : Type} [DecidableEq name] {current : Redemptions name} {event : Event name}
  {index : Nat} {task : Task name} {store : name} {nonce : Nonce}

-- What is asked of the tasks is asked of them from their start on.
theorem asked_apply (current : Redemptions name) (hgoes : event.GoesOn) :
    (current.apply event).tasks.map Task.asked = current.tasks.map Task.asked ++ event.asked := by
  cases event with
  | start verifier token => exact List.map_append
  | resume index =>
    refine Eq.trans ?_ (List.append_nil _).symm
    rcases current.resume_cases index with hsame | ⟨task, -, hreplaces⟩
    · rw [hsame]
    · have hasked : (current.tasks.map Task.asked)[index]? =
          some (task.advance current.stores).asked := by simp [hreplaces.found]
      rw [hreplaces.tasks, List.map_set]
      exact set_eq_self hasked
  | drop | recover | call => exact absurd hgoes id

theorem asked_run (current : Redemptions name) {events : List (Event name)}
    (hgoes : ∀ event ∈ events, event.GoesOn) :
    (current.run events).tasks.map Task.asked =
      current.tasks.map Task.asked ++ events.flatMap Event.asked := by
  induction events generalizing current with
  | nil => simp [run]
  | cons event rest ih =>
    obtain ⟨hevent, hrest⟩ := List.forall_mem_cons.mp hgoes
    rw [run_cons, ih _ hrest, asked_apply current hevent, List.flatMap_cons, List.append_assoc]

omit [DecidableEq name] in
theorem asked_genuine (current : Redemptions name) :
    current.genuine.map Task.asked = (current.tasks.map Task.asked).filter isAuthentic := by
  rw [List.filter_map, genuine]
  congr 2
  funext task
  simp [Verification.isForged, Task.asked, isAuthentic]

omit [DecidableEq name] in
theorem place_eq (current : Redemptions name) (index : Nat) :
    current.place index = ((current.tasks.map Task.asked).take index).countP isAuthentic := by
  rw [place, ← List.map_take, List.countP_map]
  congr 1
  funext task
  simp [Verification.isForged, Task.asked, isAuthentic]

theorem place_run {events : List (Event name)} (hgoes : ∀ event ∈ events, event.GoesOn)
    (hindex : index ≤ current.tasks.length) :
    (current.run events).place index = current.place index := by
  have hlength : index ≤ (current.tasks.map Task.asked).length := by simpa using hindex
  rw [place_eq, place_eq, asked_run current hgoes, List.take_append_of_le_length hlength]

-- Exactly the starts of genuine tokens remain.
theorem asked_withoutForged (current : Redemptions name) {events : List (Event name)}
    (hgoes : ∀ event ∈ events, event.GoesOn) :
    (current.withoutForged events).flatMap Event.asked =
      (events.flatMap Event.asked).filter isAuthentic := by
  induction events generalizing current with
  | nil => rfl
  | cons event rest ih =>
    obtain ⟨hevent, hrest⟩ := List.forall_mem_cons.mp hgoes
    rw [withoutForged, List.flatMap_append, ih _ hrest, List.flatMap_cons, List.filter_append]
    congr 1
    cases event with
    | start verifier token =>
      cases hgenuine : verifier.publicKey.authenticates token <;>
        simp [remaining, isForged, Event.move, Event.asked, isAuthentic, hgenuine]
    | resume index =>
      cases hforged : current.isForged (.resume index) <;>
        simp [remaining, hforged, Event.move, Event.asked]
    | drop | recover | call => exact absurd hevent id

theorem goesOn_withoutForged {events : List (Event name)} (hgoes : ∀ event ∈ events, event.GoesOn) :
    ∀ event ∈ current.withoutForged events, event.GoesOn := by
  induction events generalizing current with
  | nil => exact fun _ hevent => absurd hevent List.not_mem_nil
  | cons event rest ih =>
    obtain ⟨hevent, hrest⟩ := List.forall_mem_cons.mp hgoes
    refine List.forall_mem_append.mpr ⟨?_, ih hrest⟩
    intro other hother
    obtain ⟨-, rfl⟩ : current.isForged event = false ∧ other = event.move current.place := by
      simpa [remaining] using hother
    cases event with
    | start | resume => trivial
    | drop | recover | call => exact absurd hevent id

-- How many verifications of forged tokens with the nonce have it reserved.
def forgedHolders (current : Redemptions name) (store : name) (nonce : Nonce) : Nat :=
  current.tasks.countP fun task => task.Concerns store nonce ∧ task.isForged ∧ task.HasReserved

theorem forgedHolders_pos_iff (current : Redemptions name) (store : name) (nonce : Nonce) :
    0 < current.forgedHolders store nonce ↔ ∃ task ∈ current.tasks,
      task.Concerns store nonce ∧ task.isForged ∧ task.HasReserved := by
  simp only [forgedHolders, List.countP_pos_iff, decide_eq_true_eq]

namespace Steady

variable {initial : Option NonceMark}

theorem forgedHolders_le (h : Steady initial store nonce current) :
    current.forgedHolders store nonce ≤ current.holders store nonce := by
  refine List.countP_mono_left fun task htask hforged => ?_
  obtain ⟨hown, -, hreserved⟩ := of_decide_eq_true hforged
  exact decide_eq_true ⟨hown, (h.holds_iff htask).mpr hreserved⟩

-- A forged verification that has the nonce reserved is the only one that has.
theorem forged (h : Steady initial store nonce current)
    (hpos : 0 < current.forgedHolders store nonce) :
    current.forgedHolders store nonce = 1 ∧ current.stores.mark store nonce = some .reserved := by
  have hle := h.forgedHolders_le
  have hone : current.holders store nonce ≤ 1 := h.accounts.holders_le_one
  have hheld : 0 < (current.tally store nonce).holders := Nat.lt_of_lt_of_le hpos hle
  exact ⟨by omega, (h.accounts.reserved_iff.mpr hheld).1⟩

theorem forgedHolders_eq_zero (h : Steady initial store nonce current)
    (hfound : current.tasks[index]? = some task) (hown : task.Concerns store nonce)
    (hgenuine : task.isForged = false) (hreserved : task.HasReserved) :
    current.forgedHolders store nonce = 0 := by
  refine Nat.eq_zero_of_not_pos fun hpos => ?_
  obtain ⟨other, hmem, hotherOwn, hforged, hother⟩ :=
    (forgedHolders_pos_iff current store nonce).mp hpos
  obtain ⟨place, hplace, rfl⟩ := List.mem_iff_getElem.mp hmem
  obtain ⟨hindex, rfl⟩ := List.getElem?_eq_some_iff.mp hfound
  have hsame := index_eq_of_countP_le_one h.accounts.holders_le_one hindex hplace
    (decide_eq_true ⟨hown, (h.holds_iff (List.getElem_mem hindex)).mpr hreserved⟩)
    (decide_eq_true ⟨hotherOwn, (h.holds_iff hmem).mpr hother⟩)
  subst hsame
  rw [hgenuine] at hforged
  cases hforged

end Steady

theorem forgedHolders_resume (hfound : current.tasks[index]? = some task)
    (hcaller : task.caller = .waiting) (hown : task.Concerns store nonce) :
    (current.apply (.resume index)).forgedHolders store nonce +
        (if task.isForged ∧ task.HasReserved then 1 else 0) =
      current.forgedHolders store nonce +
        (if task.isForged ∧ (task.advance current.stores).HasReserved then 1 else 0) := by
  have hcount := (replaces_advance hfound hcaller).count_add store nonce
    (fun task => task.isForged ∧ task.HasReserved)
  simpa only [forgedHolders, hown, true_and, Task.isForged_advance] using hcount

-- Without the reservations of forged verifications, the mark stays when one of these goes on.
theorem Steady.freeMark_resume_forged {initial : Option NonceMark}
    (h : Steady initial store nonce current) (hfound : current.tasks[index]? = some task)
    (hown : task.Concerns store nonce) (hforged : task.isForged = true) :
    (if 0 < (current.apply (.resume index)).forgedHolders store nonce then none
      else (current.apply (.resume index)).stores.mark store nonce) =
      if 0 < current.forgedHolders store nonce then none else current.stores.mark store nonce := by
  have hundisturbed := h.undisturbed hfound
  have hholders := forgedHolders_resume hfound hundisturbed.waiting hown
  have hmark := (replaces_advance hfound hundisturbed.waiting).marks store nonce
  rw [if_pos hown, hown.mark_eq] at hmark
  simp only [hforged, true_and, Verification.HasReserved, Task.advance_eq, hown.mark_eq,
    Bool.not_true] at hholders
  cases hprogress : task.progress with
  | reserving =>
    cases hheld : current.stores.mark store nonce with
    | none =>
      have hlater : (current.apply (.resume index)).forgedHolders store nonce =
          current.forgedHolders store nonce + 1 := by
        simpa [hprogress, hheld, Progress.next] using hholders
      simp [hlater]
    | some held =>
      have hsame : (current.apply (.resume index)).forgedHolders store nonce =
          current.forgedHolders store nonce := by
        simpa [hprogress, hheld, Progress.next] using hholders
      rw [hsame, hmark, hprogress, hheld]
      rfl
  | storing =>
    have hgenuine := hundisturbed.storing hprogress
    simp [hforged] at hgenuine
  | releasing =>
    have hless : (current.apply (.resume index)).forgedHolders store nonce + 1 =
        current.forgedHolders store nonce := by
      simpa [hprogress, Progress.next] using hholders
    have hpos : 0 < current.forgedHolders store nonce := by omega
    obtain ⟨hone, hheld⟩ := h.forged hpos
    have hfree : (current.apply (.resume index)).forgedHolders store nonce = 0 := by omega
    rw [hmark, hprogress, hheld, hone, hfree]
    rfl
  | answered valid =>
    have hsame : (current.apply (.resume index)).forgedHolders store nonce =
        current.forgedHolders store nonce := by
      simpa [hprogress, Progress.next] using hholders
    rw [hsame, hmark, hprogress]
    rfl

-- The two runs show the same of one nonce, except that a reservation of a forged verification is
-- not there in the run without them.
structure Twin (store : name) (nonce : Nonce) (full kept : Redemptions name) : Prop where
  tasks : kept.tasks.map (Task.seen store nonce) = full.genuine.map (Task.seen store nonce)
  mark : kept.stores.mark store nonce =
    if 0 < full.forgedHolders store nonce then none else full.stores.mark store nonce

namespace Twin

theorem ofStores (stores : NonceStores name) (store : name) (nonce : Nonce) :
    Twin store nonce (ofStores stores) (ofStores stores) :=
  ⟨rfl, rfl⟩

variable {initial : Option NonceMark} {full kept : Redemptions name}

theorem start (h : Twin store nonce full kept) (verifier : Verifier name) (token : Token) :
    Twin store nonce (full.apply (.start verifier token))
      (if verifier.publicKey.authenticates token then kept.apply (.start verifier token)
        else kept) := by
  let task : Task name := { Verification.start verifier token with caller := .waiting }
  have htasks : (full.apply (.start verifier token)).genuine =
      full.genuine ++ [task].filter fun task => !task.isForged := List.filter_append ..
  have hreserved : ¬task.HasReserved := by
    by_cases hexpects : verifier.Expects token <;>
      simp [task, Verification.HasReserved, Verification.start, hexpects]
  have hholders : (full.apply (.start verifier token)).forgedHolders store nonce =
      full.forgedHolders store nonce := by
    have hnew : [task].countP (fun task => decide (task.Concerns store nonce ∧ task.isForged ∧
        task.HasReserved)) = 0 := by simp [hreserved]
    exact (List.countP_append ..).trans (congrArg (full.forgedHolders store nonce + ·) hnew)
  cases hgenuine : verifier.publicKey.authenticates token with
  | true =>
    have hforged : task.isForged = false := by
      simp [task, Verification.isForged, Verification.start, hgenuine]
    refine ⟨?_, hholders ▸ h.mark⟩
    rw [htasks, List.filter_cons_of_pos (by simp [hforged]), List.filter_nil, List.map_append,
      ← h.tasks]
    exact List.map_append
  | false =>
    have hforged : task.isForged = true := by
      simp [task, Verification.isForged, Verification.start, hgenuine]
    refine ⟨?_, hholders ▸ h.mark⟩
    rw [htasks, List.filter_cons_of_neg (by simp [hforged]), List.filter_nil, List.append_nil]
    exact h.tasks

-- A step of a forged verification is not seen in the run without it.
theorem resume_forged (h : Twin store nonce full kept)
    (hsteady : Steady initial store nonce full) (hfound : full.tasks[index]? = some task)
    (hforged : task.isForged = true) : Twin store nonce (full.apply (.resume index)) kept := by
  have hreplaces := replaces_advance hfound (hsteady.undisturbed hfound).waiting
  refine ⟨?_, ?_⟩
  · rw [genuine, hreplaces.tasks, filter_set_of_neg hfound (by simp [hforged]) (by simp [hforged])]
    exact h.tasks
  · rw [h.mark]
    by_cases hown : task.Concerns store nonce
    · exact (hsteady.freeMark_resume_forged hfound hown hforged).symm
    · have hholders := hreplaces.count_add store nonce
        (fun task => task.isForged ∧ task.HasReserved)
      have hmark := hreplaces.marks store nonce
      simp only [hown, false_and, if_false, Nat.add_zero] at hholders hmark
      rw [forgedHolders, forgedHolders, hholders, hmark]

theorem exists_found (h : Twin store nonce full kept) (hfound : full.tasks[index]? = some task)
    (hgenuine : task.isForged = false) :
    ∃ twin, kept.tasks[full.place index]? = some twin ∧
      twin.seen store nonce = task.seen store nonce := by
  have hplace : full.genuine[full.place index]? = some task :=
    getElem?_filter_of_pos hfound (by simp [hgenuine])
  have hseen := congrArg (·[full.place index]?) h.tasks
  simp only [List.getElem?_map, hplace, Option.map_some] at hseen
  exact Option.map_eq_some_iff.mp hseen

-- A genuine verification does the same in both runs, unless it has to reserve a nonce that a
-- forged one has reserved.
theorem resume_genuine (h : Twin store nonce full kept)
    (hsteady : Steady initial store nonce full) (hfound : full.tasks[index]? = some task)
    (hgenuine : task.isForged = false)
    (hfree : task.Concerns store nonce → task.progress = .reserving →
      full.forgedHolders store nonce = 0) :
    Twin store nonce (full.apply (.resume index)) (kept.apply (.resume (full.place index))) := by
  have hundisturbed := hsteady.undisturbed hfound
  obtain ⟨twin, htwin, hseen⟩ := h.exists_found hfound hgenuine
  obtain ⟨hverifier, htoken, hcaller, hprogress⟩ := (Task.seen_eq_iff ..).mp hseen
  have hreplaces := replaces_advance hfound hundisturbed.waiting
  have hkept := replaces_advance htwin (hcaller.trans hundisturbed.waiting)
  have hconcerns : twin.Concerns store nonce ↔ task.Concerns store nonce := by
    simp only [Verification.Concerns, hverifier, htoken]
  have hforged : twin.isForged = task.isForged := by
    simp only [Verification.isForged, hverifier, htoken]
  -- where the step looks at the mark or changes it, no forged verification has the nonce reserved
  have hnone (hown : task.Concerns store nonce) : (∃ valid, task.progress = .answered valid) ∨
      full.forgedHolders store nonce = 0 := by
    cases hstands : task.progress with
    | reserving => exact .inr (hfree hown hstands)
    | storing => exact .inr (hsteady.forgedHolders_eq_zero hfound hown hgenuine (.inl hstands))
    | releasing => exact .inr (hsteady.forgedHolders_eq_zero hfound hown hgenuine (.inr hstands))
    | answered valid => exact .inl ⟨valid, rfl⟩
  have hmark (hown : task.Concerns store nonce) (hzero : full.forgedHolders store nonce = 0) :
      twin.mark kept.stores = task.mark full.stores := by
    rw [(hconcerns.mpr hown).mark_eq, hown.mark_eq, h.mark, hzero]
    rfl
  have hholders := hreplaces.count_add store nonce (fun task => task.isForged ∧ task.HasReserved)
  simp only [Task.isForged_advance, hgenuine, Bool.false_eq_true, false_and, and_false, if_false,
    Nat.add_zero] at hholders
  refine ⟨?_, ?_⟩
  · rw [genuine, hreplaces.tasks, hkept.tasks,
      filter_set_of_pos hfound (by simp [hgenuine]) (by simp [hgenuine]), List.map_set,
      List.map_set, h.tasks]
    have hlater : (twin.advance kept.stores).seen store nonce =
        (task.advance full.stores).seen store nonce := by
      refine (Task.seen_eq_iff ..).mpr ⟨?_, ?_, hcaller, fun hown => ?_⟩
      · rw [hkept.verifier, hreplaces.verifier, hverifier]
      · rw [hkept.token, hreplaces.token, htoken]
      · have hown := hreplaces.concerns_iff.mp hown
        rw [Task.advance_eq, Task.advance_eq, hprogress hown, hforged]
        rcases hnone hown with ⟨valid, hanswered⟩ | hzero
        · simp [hanswered, Progress.next]
        · rw [hmark hown hzero]
    rw [hlater]
    rfl
  · rw [hkept.marks, hreplaces.marks, forgedHolders, hholders, ← forgedHolders]
    by_cases hown : task.Concerns store nonce
    · rw [if_pos (hconcerns.mpr hown), if_pos hown, hprogress hown]
      rcases hnone hown with ⟨valid, hanswered⟩ | hzero
      · rw [hanswered, (hconcerns.mpr hown).mark_eq, hown.mark_eq]
        exact h.mark
      · rw [hmark hown hzero, hzero]
        rfl
    · rw [if_neg (mt hconcerns.mp hown), if_neg hown]
      exact h.mark

end Twin

section Blocked

variable {initial : Option NonceMark} {full kept : Redemptions name} {events : List (Event name)}

-- It is the turn of a genuine verification to reserve the nonce, and a forged one has it reserved.
def Blocked (current : Redemptions name) (store : name) (nonce : Nonce) (index : Nat) : Prop :=
  ∃ task, current.tasks[index]? = some task ∧ task.Concerns store nonce ∧
    task.isForged = false ∧ task.progress = .reserving ∧
    ∃ other ∈ current.tasks, other.Concerns store nonce ∧ other.isForged ∧ other.HasReserved

-- This happens to the verification in the course of the run.
def MeetsForged (current : Redemptions name) (events : List (Event name)) (store : name)
    (nonce : Nonce) (index : Nat) : Prop :=
  ∃ before after, events = before ++ .resume index :: after ∧
    (current.run before).Blocked store nonce index

theorem meetsForged_cons (current : Redemptions name) (event : Event name)
    (rest : List (Event name)) (store : name) (nonce : Nonce) (index : Nat) :
    current.MeetsForged (event :: rest) store nonce index ↔
      (event = .resume index ∧ current.Blocked store nonce index) ∨
        (current.apply event).MeetsForged rest store nonce index := by
  constructor
  · rintro ⟨before, after, hevents, hblocked⟩
    cases before with
    | nil =>
      obtain ⟨rfl, -⟩ := List.cons.inj hevents
      exact .inl ⟨rfl, hblocked⟩
    | cons first before =>
      obtain ⟨rfl, hrest⟩ := List.cons.inj hevents
      exact .inr ⟨before, after, hrest, hblocked⟩
  · rintro (⟨rfl, hblocked⟩ | ⟨before, after, rfl, hblocked⟩)
    · exact ⟨[], rest, rfl, hblocked⟩
    · exact ⟨event :: before, after, rfl, hblocked⟩

theorem Twin.apply (h : Twin store nonce full kept) (hsteady : Steady initial store nonce full)
    (hgoes : event.GoesOn)
    (hfree : ∀ index, event = .resume index → ¬full.Blocked store nonce index) :
    Twin store nonce (full.apply event) (kept.run (full.remaining event)) := by
  cases event with
  | start verifier token =>
    have hstart := h.start verifier token
    cases hgenuine : verifier.publicKey.authenticates token with
    | true => simpa [remaining, isForged, Event.move, hgenuine] using hstart
    | false => simpa [remaining, isForged, hgenuine] using hstart
  | resume index =>
    cases hfound : full.tasks[index]? with
    | none =>
      -- there is no such task in either run
      have hlength : kept.tasks.length = full.genuine.length := by
        simpa using congrArg List.length h.tasks
      have hplace : full.place index = full.genuine.length := by
        rw [place, List.take_of_length_le (List.getElem?_eq_none_iff.mp hfound), genuine,
          List.countP_eq_length_filter]
      have hnone : kept.tasks[full.place index]? = none := by
        rw [List.getElem?_eq_none_iff, hplace, hlength]
      simpa [remaining, isForged, Event.move, Redemptions.apply, hfound, hnone] using h
    | some task =>
      cases hforged : task.isForged with
      | true =>
        simpa [remaining, isForged, hfound, hforged] using
          h.resume_forged hsteady hfound hforged
      | false =>
        have hzero (hown : task.Concerns store nonce) (hreserving : task.progress = .reserving) :
            full.forgedHolders store nonce = 0 := by
          refine Nat.eq_zero_of_not_pos fun hpos => hfree index rfl ?_
          exact ⟨task, hfound, hown, hforged, hreserving, (forgedHolders_pos_iff ..).mp hpos⟩
        simpa [remaining, isForged, Event.move, hfound, hforged] using
          h.resume_genuine hsteady hfound hforged hzero
  | drop | recover | call => exact absurd hgoes id

theorem Twin.run (h : Twin store nonce full kept) (hsteady : Steady initial store nonce full)
    (hgoes : ∀ event ∈ events, event.GoesOn)
    (hfree : ∀ index, ¬full.MeetsForged events store nonce index) :
    Twin store nonce (full.run events) (kept.run (full.withoutForged events)) := by
  induction events generalizing full kept with
  | nil => exact h
  | cons event rest ih =>
    obtain ⟨hevent, hrest⟩ := List.forall_mem_cons.mp hgoes
    simp only [meetsForged_cons, not_or, not_and] at hfree
    have hnext := h.apply hsteady hevent fun index hsame => (hfree index).1 hsame
    rw [withoutForged, run_append]
    exact ih hnext (hsteady.apply hevent) hrest fun index => (hfree index).2

theorem Twin.answer?_eq (h : Twin store nonce full kept) (hsteady : Steady initial store nonce full)
    (hfound : full.tasks[index]? = some task) (hown : task.Concerns store nonce)
    (hgenuine : task.isForged = false) :
    kept.answer? (full.place index) = full.answer? index := by
  have hcaller := (hsteady.undisturbed hfound).waiting
  obtain ⟨twin, htwin, hseen⟩ := h.exists_found hfound hgenuine
  obtain ⟨-, -, hsame, hprogress⟩ := (Task.seen_eq_iff ..).mp hseen
  rw [Redemptions.answer?_eq htwin (hsame.trans hcaller), Redemptions.answer?_eq hfound hcaller,
    hprogress hown]

end Blocked

end Redemptions

end BlindToken
