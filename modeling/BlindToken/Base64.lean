import BlindToken.Bytes.Basic
import BlindToken.Bytes.Chunks

namespace BlindToken.Base64

-- The alphabets agree on letters and digits and differ in the last two symbols.
structure Alphabet where
  symbol62 : Char
  symbol63 : Char

def standard : Alphabet := ⟨'+', '/'⟩

def url : Alphabet := ⟨'-', '_'⟩

namespace Alphabet

variable (alphabet : Alphabet)

def symbol (value : Nat) : Char :=
  if value < 26 then Char.ofNat (65 + value)
  else if value < 52 then Char.ofNat (71 + value)
  else if value < 62 then Char.ofNat (value - 4)
  else if value = 62 then alphabet.symbol62
  else alphabet.symbol63

def value? (symbol : Char) : Option Nat :=
  if 'A' ≤ symbol ∧ symbol ≤ 'Z' then some (symbol.toNat - 65)
  else if 'a' ≤ symbol ∧ symbol ≤ 'z' then some (symbol.toNat - 71)
  else if '0' ≤ symbol ∧ symbol ≤ '9' then some (symbol.toNat + 4)
  else if symbol = alphabet.symbol62 then some 62
  else if symbol = alphabet.symbol63 then some 63
  else none

end Alphabet

-- A reader may ask for all padding characters or accept any number of them up to that.
inductive Padding where
  | required
  | optional
deriving DecidableEq

-- The number of padding characters that complete a group of four.
def paddingAfter (symbols : Nat) : Nat := (4 - symbols % 4) % 4

def Padding.Accepts : Padding → (symbols count : Nat) → Prop
  | .required, symbols, count => count = paddingAfter symbols
  | .optional, symbols, count => count ≤ paddingAfter symbols

instance (padding : Padding) (symbols count : Nat) : Decidable (padding.Accepts symbols count) := by
  cases padding <;> unfold Padding.Accepts <;> infer_instance

def groupValues : Bytes → List Nat
  | [a] => [a.toNat / 4, a.toNat % 4 * 16]
  | [a, b] => [a.toNat / 4, a.toNat % 4 * 16 + b.toNat / 16, b.toNat % 16 * 4]
  | [a, b, c] =>
    [a.toNat / 4, a.toNat % 4 * 16 + b.toNat / 16, b.toNat % 16 * 4 + c.toNat / 64, c.toNat % 64]
  | _ => []

-- Refuses a group whose last symbol has a bit set that belongs to no byte.
def groupBytes? : List Nat → Option Bytes
  | [a, b] => if b % 16 = 0 then some [UInt8.ofNat (a * 4 + b / 16)] else none
  | [a, b, c] =>
    if c % 4 = 0 then some [UInt8.ofNat (a * 4 + b / 16), UInt8.ofNat (b % 16 * 16 + c / 4)]
    else none
  | [a, b, c, d] =>
    some [UInt8.ofNat (a * 4 + b / 16), UInt8.ofNat (b % 16 * 16 + c / 4),
      UInt8.ofNat (c % 4 * 64 + d)]
  | _ => none

def symbols (alphabet : Alphabet) (bytes : Bytes) : List Char :=
  ((chunks 3 bytes).flatMap groupValues).map alphabet.symbol

def encode (alphabet : Alphabet) (bytes : Bytes) : List Char :=
  let body := symbols alphabet bytes
  body ++ List.replicate (paddingAfter body.length) '='

def decode? (alphabet : Alphabet) (padding : Padding) (text : List Char) : Option Bytes := do
  let body := text.takeWhile (· ≠ '=')
  let rest := text.dropWhile (· ≠ '=')
  guard (rest.all (· = '=') ∧ padding.Accepts body.length rest.length)
  let values ← body.mapM alphabet.value?
  let groups ← (chunks 4 values).mapM groupBytes?
  return groups.flatten

-- The form used in header fields and directories: URL alphabet, padded when written, padding
-- optional when read.
def urlEncode (bytes : Bytes) : String := String.ofList (encode url bytes)

def urlDecode? (text : String) : Option Bytes := decode? url .optional text.toList

end BlindToken.Base64
