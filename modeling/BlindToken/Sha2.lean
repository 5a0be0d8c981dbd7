import BlindToken.Bytes.Basic
import BlindToken.Bytes.Chunks

namespace BlindToken.Sha2

-- The eight working words of a hash. Both hash functions are one construction over two word types:
-- a message is padded to whole blocks, and each block is compressed into a state of these words.
structure State (word : Type) where
  a : word
  b : word
  c : word
  d : word
  e : word
  f : word
  g : word
  h : word

namespace State

variable {word : Type}

def toList (state : State word) : List word :=
  [state.a, state.b, state.c, state.d, state.e, state.f, state.g, state.h]

def add [Add word] (left right : State word) : State word where
  a := left.a + right.a
  b := left.b + right.b
  c := left.c + right.c
  d := left.d + right.d
  e := left.e + right.e
  f := left.f + right.f
  g := left.g + right.g
  h := left.h + right.h

end State

-- What tells one hash of the family from another. The four mixing functions stir one word; there
-- is one constant to a round.
structure Variant (word : Type) where
  wordSize : Nat
  ofNat : Nat → word
  toNat : word → Nat
  mixA : word → word
  mixE : word → word
  scheduleNear : word → word
  scheduleFar : word → word
  constants : List word
  start : State word

section Compression

variable {word : Type} [Add word] [AndOp word] [XorOp word] [Complement word]

-- The words of a block, then as many more as asked for, each from four earlier ones. The window
-- holds the next sixteen words.
def schedule (variant : Variant word) : (count : Nat) → (window : List word) → List word
  | 0, _ => []
  | count + 1, window =>
    let zero := variant.ofNat 0
    let next := variant.scheduleNear (window.getD 14 zero) + window.getD 9 zero +
      variant.scheduleFar (window.getD 1 zero) + window.getD 0 zero
    window.getD 0 zero :: schedule variant count (window.drop 1 ++ [next])

def round (variant : Variant word) (state : State word) (constant input : word) : State word :=
  let choice := (state.e &&& state.f) ^^^ (~~~state.e &&& state.g)
  let majority := (state.a &&& state.b) ^^^ (state.a &&& state.c) ^^^ (state.b &&& state.c)
  let first := state.h + variant.mixE state.e + choice + constant + input
  let second := variant.mixA state.a + majority
  { a := first + second, b := state.a, c := state.b, d := state.c,
    e := state.d + first, f := state.e, g := state.f, h := state.g }

def rounds (variant : Variant word) : List word → List word → State word → State word
  | constant :: constants, input :: inputs, state =>
    rounds variant constants inputs (round variant state constant input)
  | _, _, state => state

def compress (variant : Variant word) (state : State word) (block : Bytes) : State word :=
  let words := (chunks variant.wordSize block).map fun bytes => variant.ofNat (Bytes.toNat bytes)
  let inputs := schedule variant variant.constants.length words
  state.add (rounds variant variant.constants inputs state)

-- A one bit, zeros up to the last two words of a block, and the bit length of the message there.
def padding (wordSize length : Nat) : Bytes :=
  let block := 16 * wordSize
  let filled := length + 1 + 2 * wordSize
  let zeros := List.replicate ((block - filled % block) % block) 0
  0x80 :: zeros ++ Bytes.ofNat (2 * wordSize) (8 * length)

def digest (variant : Variant word) (message : Bytes) : Bytes :=
  let blocks := chunks (16 * variant.wordSize) (message ++ padding variant.wordSize message.length)
  let final := blocks.foldl (compress variant) variant.start
  final.toList.flatMap fun value => Bytes.ofNat variant.wordSize (variant.toNat value)

theorem length_digest (variant : Variant word) (message : Bytes) :
    (digest variant message).length = 8 * variant.wordSize := by
  simp [digest, State.toList]
  omega

end Compression

end BlindToken.Sha2
