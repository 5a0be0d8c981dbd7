import BlindToken.Random.Source

namespace BlindToken

-- What the next draw gives.
inductive ReplayStep where
  | nonce
  | salt
  | blind
  | additionalBlind
deriving DecidableEq

-- A source that hands out a given nonce, salt and blind, each once and whole, and draws from
-- another source after that. It refuses a draw of another size than the value that is next.
structure Replay (state : Type) where
  nonce : Bytes
  salt : Bytes
  blind : Bytes
  step : ReplayStep
  -- The last draw after the given values were used up.
  additionalBlind : Option Bytes
  system : state

namespace Replay

variable {state : Type}

def ofValues (nonce salt blind : Bytes) (system : state) : Replay state :=
  { nonce, salt, blind, step := .nonce, additionalBlind := none, system }

-- A refused draw leaves the state as it is.
def draw (source : Source state) (replay : Replay state) (size : Nat) :
    Option (Block size × Replay state) :=
  let given (value : Bytes) (next : ReplayStep) : Option (Block size × Replay state) := do
    return (← Block.ofBytes? size value, { replay with step := next })
  match replay.step with
  | .nonce => given replay.nonce .salt
  | .salt => given replay.salt .blind
  | .blind => given replay.blind .additionalBlind
  | .additionalBlind => do
    let (drawn, system) ← source.draw replay.system size
    return (drawn, { replay with additionalBlind := some drawn.bytes, system })

-- A drawn number, read with its lowest byte first.
def drawNumber (source : Source state) (replay : Replay state) (size : Nat) :
    Option (Nat × Replay state) := do
  let (drawn, replay) ← replay.draw source size
  return (Bytes.toNat drawn.bytes.reverse, replay)

def source (system : Source state) : Source (Replay state) := ⟨Replay.draw system⟩

-- The ways to ask for random values: a number of 32 or 64 bits, or a buffer to be filled, with or
-- without a place for an error.
inductive Call where
  | number32
  | number64
  | fill (size : Nat)
  | tryFill (size : Nat)
deriving DecidableEq

inductive Answer where
  | number (width value : Nat)
  | filled (bytes : Bytes)
deriving DecidableEq

-- The answer to a call, if it is not refused, and the state that the next call finds.
def answer (source : Source state) (replay : Replay state) (call : Call) :
    Option Answer × Replay state :=
  let number (width : Nat) := (replay.drawNumber source width).map fun drawn =>
    (Answer.number width drawn.1, drawn.2)
  let filled (size : Nat) := (replay.draw source size).map fun drawn =>
    (Answer.filled drawn.1.bytes, drawn.2)
  let answered :=
    match call with
    | .number32 => number 4
    | .number64 => number 8
    | .fill size => filled size
    | .tryFill size => filled size
  match answered with
  | some (given, next) => (some given, next)
  | none => (none, replay)

end Replay

end BlindToken
