import BlindToken.Sha2.Sha256

namespace BlindToken

-- A state and a way to draw as many random bytes as asked for, which may refuse.
structure Source (state : Type) where
  draw : state → (size : Nat) → Option (Block size × state)

-- The SHA-256 digests of the seed with the counts 0, 1, 2, … one after another.
structure Expansion where
  seed : Bytes
  used : Nat
  pending : Bytes

namespace Expansion

def ofSeed (seed : Bytes) : Expansion := { seed, used := 0, pending := [] }

def digestAt (expansion : Expansion) (index : Nat) : Block 32 :=
  sha256 (expansion.seed ++ Bytes.ofNat 8 index)

-- The number of bytes drawn so far.
def position (expansion : Expansion) : Nat := 32 * expansion.used - expansion.pending.length

def draw (expansion : Expansion) (size : Nat) : Option (Block size × Expansion) := do
  let count := (size - expansion.pending.length + 31) / 32
  let fresh := (List.range count).flatMap fun index =>
    (expansion.digestAt (expansion.used + index)).bytes
  let bytes := expansion.pending ++ fresh
  let drawn ← Block.ofBytes? size (bytes.take size)
  return (drawn, { expansion with used := expansion.used + count, pending := bytes.drop size })

def source : Source Expansion := ⟨draw⟩

end Expansion

end BlindToken
