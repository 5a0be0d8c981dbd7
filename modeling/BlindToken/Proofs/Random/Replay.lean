import Mathlib.Data.Nat.Digits.Defs
import BlindToken.Proofs.Bytes
import BlindToken.Random.Replay

namespace BlindToken

-- The bytes of a number with the lowest one first.
theorem Bytes.toNat_reverse (bytes : Bytes) :
    toNat bytes.reverse = Nat.ofDigits 256 (bytes.map UInt8.toNat) := by
  induction bytes with
  | nil => rfl
  | cons first rest ih =>
    rw [List.reverse_cons, toNat_append, List.map_cons, Nat.ofDigits_cons, ih]
    simp [toNat]
    ring

namespace Replay

-- The bytes that were drawn for an answer. A number has its lowest byte first.
def Answer.bytes : Answer → Bytes
  | number width value => (Bytes.ofNat width value).reverse
  | filled bytes => bytes

namespace Call

def size : Call → Nat
  | number32 => 4
  | number64 => 8
  | fill size | tryFill size => size

-- The answer that stands for the bytes.
def answerOf : Call → Bytes → Answer
  | number32, bytes => .number 4 (Nat.ofDigits 256 (bytes.map UInt8.toNat))
  | number64, bytes => .number 8 (Nat.ofDigits 256 (bytes.map UInt8.toNat))
  | fill _, bytes | tryFill _, bytes => .filled bytes

end Call

variable {state : Type} (source : Source state)

-- The state after calls one after another.
def after (replay : Replay state) (calls : List Call) : Replay state :=
  calls.foldl (fun replay call => (replay.answer source call).2) replay

def answers (replay : Replay state) : List Call → List (Option Answer)
  | [] => []
  | call :: rest => (replay.answer source call).1 :: answers (replay.answer source call).2 rest

-- The byte strings that the answered calls have handed out, in their order.
def handed (replay : Replay state) (calls : List Call) : List Bytes :=
  (replay.answers source calls).reduceOption.map Answer.bytes

-- What the next draw gives after so many.
def stepAfter : (count : Nat) → ReplayStep
  | 0 => .nonce
  | 1 => .salt
  | 2 => .blind
  | _ => .additionalBlind

theorem stepAfter_of_le {count : Nat} (h : 3 ≤ count) : stepAfter count = .additionalBlind := by
  obtain ⟨further, rfl⟩ := Nat.exists_eq_add_of_le' h
  rfl

-- The answer to a call when so many of the values have been handed out. A value goes out only to
-- a call of its size, and after the last of them the other source answers.
def expected (values : List Bytes) (count : Nat) (system : state) (call : Call) : Option Answer :=
  match values[count]? with
  | some value => if call.size = value.length then some (call.answerOf value) else none
  | none => (source.draw system call.size).map fun drawn => call.answerOf drawn.1.bytes

theorem handed_cons (replay : Replay state) (call : Call) (rest : List Call) :
    replay.handed source (call :: rest) =
      (replay.answer source call).1.toList.map Answer.bytes ++
        (replay.answer source call).2.handed source rest := by
  simp only [handed, answers]
  cases (replay.answer source call).1 <;> rfl

theorem answers_append (replay : Replay state) (calls later : List Call) :
    replay.answers source (calls ++ later) =
      replay.answers source calls ++ (replay.after source calls).answers source later := by
  induction calls generalizing replay with
  | nil => rfl
  | cons call rest ih => exact congrArg _ (ih _)

section Draw

variable {source} {replay : Replay state} {call : Call}

theorem answerOf_bytes {bytes : Bytes} (h : bytes.length = call.size) :
    (call.answerOf bytes).bytes = bytes := by
  have hnumber {width : Nat} (hwidth : bytes.length = width) :
      (Bytes.ofNat width (Nat.ofDigits 256 (bytes.map UInt8.toNat))).reverse = bytes := by
    rw [← Bytes.toNat_reverse, Bytes.ofNat_toNat _ (List.length_reverse.trans hwidth),
      List.reverse_reverse]
  cases call with
  | number32 => exact hnumber h
  | number64 => exact hnumber h
  | fill size => rfl
  | tryFill size => rfl

-- Every way to ask is the same draw.
theorem answer_eq : replay.answer source call =
    match replay.draw source call.size with
    | some (drawn, next) => (some (call.answerOf drawn.bytes), next)
    | none => (none, replay) := by
  have hnumber (width : Nat) : replay.drawNumber source width =
      (replay.draw source width).map fun drawn =>
        (Nat.ofDigits 256 (drawn.1.bytes.map UInt8.toNat), drawn.2) := by
    rw [drawNumber]
    cases replay.draw source width with
    | none => rfl
    | some drawn => exact congrArg some (congrArg (·, drawn.2) (Bytes.toNat_reverse _))
  cases call with
  | number32 =>
    simp only [answer, hnumber, Call.size]
    cases replay.draw source 4 <;> rfl
  | number64 =>
    simp only [answer, hnumber, Call.size]
    cases replay.draw source 8 <;> rfl
  | fill size =>
    simp only [answer, Call.size]
    cases replay.draw source size <;> rfl
  | tryFill size =>
    simp only [answer, Call.size]
    cases replay.draw source size <;> rfl

theorem answer_snd_of_refused (h : (replay.answer source call).1 = none) :
    (replay.answer source call).2 = replay := by
  rw [answer_eq] at h ⊢
  cases hdrawn : replay.draw source call.size with
  | none => rfl
  | some drawn =>
    rw [hdrawn] at h
    cases h

end Draw

-- What the state shows of the byte strings that have been handed out.
structure Shows (nonce salt blind : Bytes) (given : List Bytes) (replay : Replay state) :
    Prop where
  nonce_eq : replay.nonce = nonce
  salt_eq : replay.salt = salt
  blind_eq : replay.blind = blind
  step_eq : replay.step = stepAfter given.length
  front : given.take 3 = [nonce, salt, blind].take given.length
  additionalBlind_eq : replay.additionalBlind = (given.drop 3).getLast?

namespace Shows

variable {nonce salt blind : Bytes} {given : List Bytes} {replay : Replay state}
  (h : Shows nonce salt blind given replay)

include h

theorem draw_eq (size : Nat) : replay.draw source size =
    match [nonce, salt, blind][given.length]? with
    | some value => (Block.ofBytes? size value).map fun block =>
        (block, { replay with step := stepAfter (given.length + 1) })
    | none => (source.draw replay.system size).map fun drawn =>
        (drawn.1, { replay with additionalBlind := some drawn.1.bytes, system := drawn.2 }) := by
  obtain ⟨rfl, rfl, rfl, hstep, -, -⟩ := h
  match hcount : given.length with
  | 0 | 1 | 2 =>
    simp only [hcount, stepAfter] at hstep
    simp only [draw, hstep]
    exact Option.map_eq_bind.symm
  | count + 3 =>
    simp only [hcount, stepAfter] at hstep
    simp only [draw, hstep]
    exact Option.map_eq_bind.symm

-- What a call can do: nothing at all, hand out the value that is next, or draw an additional blind.
theorem answer_cases (call : Call) :
    (expected source [nonce, salt, blind] given.length replay.system call = none ∧
      replay.answer source call = (none, replay)) ∨
    (∃ value, [nonce, salt, blind][given.length]? = some value ∧ value.length = call.size ∧
      replay.answer source call =
        (some (call.answerOf value), { replay with step := stepAfter (given.length + 1) })) ∨
    (∃ drawn, [nonce, salt, blind][given.length]? = none ∧
      source.draw replay.system call.size = some drawn ∧
      replay.answer source call = (some (call.answerOf drawn.1.bytes),
        { replay with additionalBlind := some drawn.1.bytes, system := drawn.2 })) := by
  rw [answer_eq, h.draw_eq, expected]
  match [nonce, salt, blind][given.length]? with
  | some value =>
    cases hblock : Block.ofBytes? call.size value with
    | none =>
      have hsize : call.size ≠ value.length := by
        rintro hsize
        simp [Block.ofBytes?, hsize] at hblock
      exact .inl ⟨if_neg hsize, by simp only [hblock, Option.map_none]⟩
    | some block =>
      obtain rfl := Block.ofBytes?_eq_some_iff.mp hblock
      exact .inr (.inl ⟨_, rfl, block.length_eq, by simp only [hblock, Option.map_some]⟩)
  | none =>
    cases hdrawn : source.draw replay.system call.size with
    | none => exact .inl ⟨rfl, rfl⟩
    | some drawn => exact .inr (.inr ⟨drawn, rfl, rfl, rfl⟩)

theorem answer_fst (call : Call) : (replay.answer source call).1 =
    expected source [nonce, salt, blind] given.length replay.system call := by
  obtain ⟨hnone, hanswer⟩ | ⟨value, hvalue, hsize, hanswer⟩ | ⟨drawn, hvalue, hdrawn, hanswer⟩ :=
    h.answer_cases source call
  · rw [hanswer, hnone]
  · rw [hanswer, expected, hvalue]
    exact (if_pos hsize.symm).symm
  · rw [hanswer, expected, hvalue, hdrawn]
    rfl

-- One call hands out one byte string or none, and the state goes on to show it.
theorem step (call : Call) : Shows nonce salt blind
    (given ++ (replay.answer source call).1.toList.map Answer.bytes)
    (replay.answer source call).2 := by
  have hfront : given.take 3 = [nonce, salt, blind].take given.length := h.front
  obtain ⟨-, hanswer⟩ | ⟨value, hvalue, hsize, hanswer⟩ | ⟨drawn, hvalue, hdrawn, hanswer⟩ :=
    h.answer_cases source call
  · rw [hanswer]
    exact (List.append_nil given).symm ▸ h
  · rw [hanswer, Option.toList_some, List.map_singleton, answerOf_bytes hsize]
    obtain ⟨hcount, rfl⟩ := List.getElem?_eq_some_iff.mp hvalue
    have hshort : (given ++ [[nonce, salt, blind][given.length]]).length ≤ 3 := by
      rw [List.length_append, List.length_singleton]
      exact hcount
    have hbefore : given.length ≤ 3 := Nat.le_of_lt hcount
    rw [List.take_of_length_le hbefore] at hfront
    exact {
      nonce_eq := h.nonce_eq
      salt_eq := h.salt_eq
      blind_eq := h.blind_eq
      step_eq := by rw [List.length_append, List.length_singleton]
      front := by
        rw [List.take_of_length_le hshort, List.length_append, List.length_singleton,
          ← List.take_append_getElem hcount, ← hfront]
      additionalBlind_eq := by
        rw [List.drop_of_length_le hshort, h.additionalBlind_eq, List.drop_of_length_le hbefore] }
  · rw [hanswer, Option.toList_some, List.map_singleton, answerOf_bytes drawn.1.length_eq]
    have hlong : 3 ≤ given.length := List.getElem?_eq_none_iff.mp hvalue
    have hlonger : 3 ≤ (given ++ [drawn.1.bytes]).length := by
      rw [List.length_append]
      omega
    exact {
      nonce_eq := h.nonce_eq
      salt_eq := h.salt_eq
      blind_eq := h.blind_eq
      step_eq := by rw [h.step_eq, stepAfter_of_le hlong, stepAfter_of_le hlonger]
      front := by
        rw [List.take_append_of_le_length hlong, hfront, List.take_of_length_le hlong,
          List.take_of_length_le hlonger]
      additionalBlind_eq := by
        rw [List.drop_append_of_le_length hlong, List.getLast?_concat] }

-- A run of calls hands out one byte string after another.
theorem run (calls : List Call) : Shows nonce salt blind (given ++ replay.handed source calls)
    (replay.after source calls) := by
  induction calls generalizing given replay with
  | nil => exact (List.append_nil given).symm ▸ h
  | cons call rest ih =>
    have hrest := ih (h.step source call)
    rw [handed_cons, ← List.append_assoc]
    exact hrest

end Shows

theorem shows_ofValues (nonce salt blind : Bytes) (system : state) :
    Shows nonce salt blind [] (ofValues nonce salt blind system) := ⟨rfl, rfl, rfl, rfl, rfl, rfl⟩

-- Whatever has been asked for, what was handed out starts with the nonce, the salt and the blind,
-- and it decides the step, the additional blind and the answer to any call. A refused call is as if
-- it had not been made.
theorem replays_in_order (nonce salt blind : Bytes) (system : state) (calls : List Call) :
    let replay := ofValues nonce salt blind system
    let given := replay.handed source calls
    let now := replay.after source calls
    given.take 3 = [nonce, salt, blind].take given.length ∧
    now.step = stepAfter given.length ∧
    now.additionalBlind = (if given.length ≤ 3 then none else given.getLast?) ∧
    ∀ call, (now.answer source call).1 =
        expected source [nonce, salt, blind] given.length now.system call ∧
      ((now.answer source call).1 = none → (now.answer source call).2 = now ∧
        ∀ later, replay.answers source (calls ++ call :: later) =
          replay.answers source calls ++ none :: now.answers source later) := by
  intro replay given now
  have hshows : Shows nonce salt blind given now := (shows_ofValues ..).run source calls
  refine ⟨hshows.front, hshows.step_eq, hshows.additionalBlind_eq.trans List.getLast?_drop,
    fun call => ⟨hshows.answer_fst source call, fun hnone => ?_⟩⟩
  have hsame : (now.answer source call).2 = now := answer_snd_of_refused hnone
  refine ⟨hsame, fun later => ?_⟩
  rw [answers_append, answers, hnone, hsame]

-- A source with a supply of bytes, which refuses what is more than is left.
def supply : Source Bytes where
  draw left size := (Block.ofBytes? size (left.take size)).map (·, left.drop size)

-- The salt is asked for in a wrong size and then as a number, and the supply runs out.
theorem replays_in_order_refused :
    let replay := ofValues [1, 2] [3, 1, 0, 0] [4, 5, 6] [7, 8, 9]
    let calls := [.fill 2]
    let later := [.number32, .tryFill 3, .fill 1, .number32, .fill 2]
    replay.answers supply (calls ++ .number64 :: later) =
      [some (.filled [1, 2]), none, some (.number 4 259), some (.filled [4, 5, 6]),
        some (.filled [7]), none, some (.filled [8, 9])] ∧
    (replay.after supply (calls ++ .number64 :: later)).additionalBlind = some [8, 9] := by
  obtain ⟨-, -, -, hcall⟩ :=
    replays_in_order supply [1, 2] [3, 1, 0, 0] [4, 5, 6] [7, 8, 9] [.fill 2]
  obtain ⟨-, hlater⟩ := (hcall .number64).2 (by decide)
  obtain ⟨-, -, hadditional, -⟩ := replays_in_order supply [1, 2] [3, 1, 0, 0] [4, 5, 6] [7, 8, 9]
    ([.fill 2] ++ .number64 :: [.number32, .tryFill 3, .fill 1, .number32, .fill 2])
  exact ⟨(hlater _).trans (by decide), hadditional.trans (by decide)⟩

end Replay

end BlindToken
