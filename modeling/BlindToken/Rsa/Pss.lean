import BlindToken.Number
import BlindToken.Sha2.Sha384

namespace BlindToken.Rsa

-- As many bytes as asked for, from the hashes of the seed with a counter.
def maskFrom (seed : Bytes) (length : Nat) : Bytes :=
  let hashes := (List.range ((length + 47) / 48)).map fun index =>
    (sha384 (seed ++ Bytes.ofNat 4 index)).bytes
  hashes.flatten.take length

namespace Pss

def saltedHash (message salt : Bytes) : Bytes :=
  (sha384 (List.replicate 8 0 ++ (sha384 message).bytes ++ salt)).bytes

-- The string with the highest bits of its first byte set to zero.
def clearTop (count : Nat) : Bytes → Bytes
  | [] => []
  | first :: rest => UInt8.ofNat (first.toNat % 1 <<< (8 - count)) :: rest

-- The bits of the first byte that an encoding of so many bits does not use.
def unusedBits (bits : Nat) : Nat := 8 * ((bits + 7) / 8) - bits

-- A salted hash of the message, and before it the salt under a mask that the hash determines. There
-- is no encoding if the hash and the salt do not fit.
def encode? (bits : Nat) (message salt : Bytes) : Option Bytes :=
  let size := (bits + 7) / 8
  if size < 48 + salt.length + 2 then none
  else
    let hash := saltedHash message salt
    let padded := List.replicate (size - salt.length - 50) 0 ++ 0x01 :: salt
    let masked := Bytes.xor padded (maskFrom hash (size - 49))
    some (clearTop (unusedBits bits) masked ++ hash ++ [0xbc])

-- The salt behind zeros and a one.
def saltOf? (padded : Bytes) : Option Bytes :=
  match padded.dropWhile (· = 0) with
  | 0x01 :: salt => some salt
  | _ => none

-- Whether the bytes encode the message with some salt.
def verify (bits : Nat) (message encoded : Bytes) : Bool :=
  let size := (bits + 7) / 8
  if encoded.length ≠ size ∨ size < 50 ∨ encoded.getLast? ≠ some 0xbc then false
  else
    let masked := encoded.take (size - 49)
    let hash := (encoded.drop (size - 49)).take 48
    if clearTop (unusedBits bits) masked ≠ masked then false
    else
      let padded := clearTop (unusedBits bits) (Bytes.xor masked (maskFrom hash (size - 49)))
      match saltOf? padded with
      | some salt => saltedHash message salt = hash
      | none => false

end Pss

end BlindToken.Rsa
