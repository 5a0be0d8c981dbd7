import BlindToken.Proofs.Bytes
import BlindToken.Rsa.Pss

namespace BlindToken

namespace Bytes

@[simp] theorem length_xor (left right : Bytes) :
    (xor left right).length = min left.length right.length := List.length_zipWith

theorem xor_xor {left right : Bytes} (h : left.length ≤ right.length) :
    xor (xor left right) right = left := by
  induction left generalizing right with
  | nil => rfl
  | cons first rest ih =>
    obtain ⟨other, others, rfl⟩ := List.exists_cons_of_length_pos (Nat.zero_lt_of_lt h)
    have hrest := ih (Nat.le_of_succ_le_succ h)
    simp only [xor, List.zipWith_cons_cons] at hrest ⊢
    rw [hrest, UInt8.xor_assoc, UInt8.xor_self, UInt8.xor_zero]

end Bytes

namespace Rsa

theorem length_maskFrom (seed : Bytes) (length : Nat) : (maskFrom seed length).length = length := by
  have hhashes : ((List.range ((length + 47) / 48)).map fun index =>
      (sha384 (seed ++ Bytes.ofNat 4 index)).bytes).flatten.length = (length + 47) / 48 * 48 := by
    simp [List.length_flatten, Function.comp_def, Block.length_eq, List.map_const', Nat.mul_comm]
  simp only [maskFrom, List.length_take, hhashes]
  omega

namespace Pss

theorem length_saltedHash (message salt : Bytes) : (saltedHash message salt).length = 48 :=
  Block.length_eq _

section ClearTop

variable (count : Nat)

@[simp] theorem length_clearTop (bytes : Bytes) : (clearTop count bytes).length = bytes.length := by
  cases bytes <;> rfl

-- The first byte is reduced modulo a power of two, which has room in a byte.
private theorem toNat_cleared (byte : UInt8) :
    (UInt8.ofNat (byte.toNat % 1 <<< (8 - count))).toNat = byte.toNat % 2 ^ (8 - count) := by
  rw [Nat.one_shiftLeft, UInt8.toNat_ofNat_of_lt']
  exact Nat.lt_of_le_of_lt (Nat.mod_le _ _) byte.toNat_lt

theorem clearTop_clearTop (bytes : Bytes) :
    clearTop count (clearTop count bytes) = clearTop count bytes := by
  cases bytes with
  | nil => rfl
  | cons first rest =>
    simp only [clearTop, List.cons.injEq, and_true]
    rw [← UInt8.toNat_inj, toNat_cleared, toNat_cleared, Nat.mod_mod]

-- Bits that are cleared in the end need not have been cleared before.
theorem clearTop_xor_clearTop (left right : Bytes) :
    clearTop count (Bytes.xor (clearTop count left) right) =
      clearTop count (Bytes.xor left right) := by
  cases left with
  | nil => rfl
  | cons first rest =>
    cases right with
    | nil => rfl
    | cons other others =>
      simp only [clearTop, Bytes.xor, List.zipWith_cons_cons, List.cons.injEq, and_true]
      rw [← UInt8.toNat_inj, toNat_cleared, toNat_cleared, UInt8.toNat_xor, UInt8.toNat_xor,
        toNat_cleared, Nat.xor_mod_two_pow, Nat.xor_mod_two_pow, Nat.mod_mod]

theorem toNat_clearTop_lt {bytes : Bytes} (hbytes : bytes ≠ []) (hcount : count ≤ 8) :
    Bytes.toNat (clearTop count bytes) < 2 ^ (8 * bytes.length - count) := by
  obtain ⟨first, rest, rfl⟩ := List.exists_cons_of_ne_nil hbytes
  have hfirst : first.toNat % 2 ^ (8 - count) + 1 ≤ 2 ^ (8 - count) :=
    Nat.mod_lt _ (Nat.two_pow_pos _)
  have hrest := Bytes.toNat_lt rest
  calc
    Bytes.toNat (clearTop count (first :: rest))
      = first.toNat % 2 ^ (8 - count) * 256 ^ rest.length + Bytes.toNat rest := by
        rw [clearTop, Bytes.toNat_cons, toNat_cleared]
    _ < (first.toNat % 2 ^ (8 - count) + 1) * 256 ^ rest.length := by
        rw [Nat.succ_mul]
        omega
    _ ≤ 2 ^ (8 - count) * 256 ^ rest.length := Nat.mul_le_mul_right _ hfirst
    _ = 2 ^ (8 * (first :: rest).length - count) := by
        rw [show 256 = 2 ^ 8 from rfl, ← Nat.pow_mul, ← Nat.pow_add, List.length_cons]
        congr 1
        omega

end ClearTop

theorem unusedBits_lt (bits : Nat) : unusedBits bits < 8 := by
  unfold unusedBits
  omega

-- The salt behind zeros and a one, as it is before the mask.
def padded (zeros : Nat) (salt : Bytes) : Bytes := List.replicate zeros 0 ++ 0x01 :: salt

theorem length_padded (zeros : Nat) (salt : Bytes) :
    (padded zeros salt).length = zeros + salt.length + 1 := by
  simp only [padded, List.length_append, List.length_replicate, List.length_cons, Nat.add_assoc]

theorem saltOf?_padded (zeros : Nat) (salt : Bytes) : saltOf? (padded zeros salt) = some salt := by
  have hdrop : (padded zeros salt).dropWhile (· = 0) = 0x01 :: salt := by
    rw [padded, List.dropWhile_append_of_pos (by simp)]
    rfl
  simp [saltOf?, hdrop]

-- The first byte is a zero or a one, so its highest bits are not set.
theorem clearTop_padded {count : Nat} (hcount : count < 8) (zeros : Nat) (salt : Bytes) :
    clearTop count (padded zeros salt) = padded zeros salt := by
  have hone : 1 % 2 ^ (8 - count) = 1 :=
    Nat.mod_eq_of_lt (Nat.one_lt_two_pow (by omega))
  cases zeros with
  | zero =>
    simp only [padded, List.replicate_zero, List.nil_append, clearTop, List.cons.injEq, and_true]
    rw [← UInt8.toNat_inj, toNat_cleared]
    exact hone
  | succ zeros => simp [padded, List.replicate_succ, clearTop]

theorem exists_encode? {bits : Nat} {salt : Bytes} (h : salt.length + 50 ≤ (bits + 7) / 8)
    (message : Bytes) : ∃ encoded, encode? bits message salt = some encoded := by
  have hroom : ¬(bits + 7) / 8 < 48 + salt.length + 2 := by omega
  simp only [encode?, if_neg hroom]
  exact ⟨_, rfl⟩

section Encode

variable {bits : Nat} {message salt encoded : Bytes}
  (h : encode? bits message salt = some encoded)

include h

-- An encoding has room for the hash and the salt.
theorem encode?_parts : ∃ zeros, (bits + 7) / 8 = zeros + salt.length + 50 ∧
    encoded = clearTop (unusedBits bits)
      (Bytes.xor (padded zeros salt)
        (maskFrom (saltedHash message salt) (zeros + salt.length + 1))) ++
      saltedHash message salt ++ [0xbc] := by
  unfold encode? at h
  simp only [Option.ite_none_left_eq_some, Option.some.injEq] at h
  obtain ⟨hsize, rfl⟩ := h
  refine ⟨(bits + 7) / 8 - salt.length - 50, by omega, ?_⟩
  rw [show (bits + 7) / 8 - 49 = (bits + 7) / 8 - salt.length - 50 + salt.length + 1 by omega]
  rfl

theorem length_of_encode? : encoded.length = (bits + 7) / 8 := by
  obtain ⟨zeros, hsize, rfl⟩ := encode?_parts h
  simp only [List.length_append, length_clearTop, Bytes.length_xor, length_padded, length_maskFrom,
    Nat.min_self, length_saltedHash, List.length_singleton]
  omega

theorem toNat_lt_of_encode? : Bytes.toNat encoded < 2 ^ bits := by
  obtain ⟨zeros, hsize, rfl⟩ := encode?_parts h
  generalize hmasked : Bytes.xor (padded zeros salt) _ = masked
  have hlength : masked.length = zeros + salt.length + 1 := by
    rw [← hmasked, Bytes.length_xor, length_padded, length_maskFrom, Nat.min_self]
  have hmasked : masked ≠ [] := List.ne_nil_of_length_pos (by omega)
  have htop := toNat_clearTop_lt (unusedBits bits) hmasked (Nat.le_of_lt (unusedBits_lt bits))
  rw [List.append_assoc, Bytes.toNat_append]
  generalize htail : saltedHash message salt ++ [0xbc] = tail
  have htailLength : tail.length = 49 := by
    rw [← htail, List.length_append, length_saltedHash]
    rfl
  calc
    Bytes.toNat (clearTop (unusedBits bits) masked) * 256 ^ tail.length + Bytes.toNat tail
      < (Bytes.toNat (clearTop (unusedBits bits) masked) + 1) * 256 ^ tail.length := by
        rw [Nat.succ_mul]
        exact Nat.add_lt_add_left (Bytes.toNat_lt tail) _
    _ ≤ 2 ^ (8 * masked.length - unusedBits bits) * 256 ^ tail.length :=
        Nat.mul_le_mul_right _ htop
    _ = 2 ^ bits := by
        rw [show 256 = 2 ^ 8 from rfl, ← Nat.pow_mul, ← Nat.pow_add]
        congr 1
        unfold unusedBits
        omega

theorem verify_of_encode? : verify bits message encoded = true := by
  have hlength := length_of_encode? h
  obtain ⟨zeros, hsize, hencoded⟩ := encode?_parts h
  generalize hhash : saltedHash message salt = hash at hencoded
  generalize hmask : maskFrom hash (zeros + salt.length + 1) = mask at hencoded
  generalize hmasked : clearTop (unusedBits bits) (Bytes.xor (padded zeros salt) mask) = masked
    at hencoded
  have hmaskLength : mask.length = zeros + salt.length + 1 := hmask ▸ length_maskFrom _ _
  have hpaddedLength := length_padded zeros salt
  have hmaskedLength : masked.length = (bits + 7) / 8 - 49 := by
    rw [← hmasked, length_clearTop, Bytes.length_xor, hmaskLength, hpaddedLength]
    omega
  have hhashLength : hash.length = 48 := hhash ▸ length_saltedHash message salt
  have htake : encoded.take ((bits + 7) / 8 - 49) = masked := by
    rw [hencoded, List.append_assoc, List.take_left' hmaskedLength]
  have hdrop : (encoded.drop ((bits + 7) / 8 - 49)).take 48 = hash := by
    rw [hencoded, List.append_assoc, List.drop_left' hmaskedLength, List.take_left' hhashLength]
  have hclear : clearTop (unusedBits bits) masked = masked := by
    rw [← hmasked, clearTop_clearTop]
  have hunmask : clearTop (unusedBits bits) (Bytes.xor masked mask) = padded zeros salt := by
    rw [← hmasked, clearTop_xor_clearTop, Bytes.xor_xor (by omega),
      clearTop_padded (unusedBits_lt bits)]
  have hlast : encoded.getLast? = some 0xbc := by
    rw [hencoded, List.getLast?_append]
    rfl
  have hmaskAgain : maskFrom hash ((bits + 7) / 8 - 49) = mask := by
    rw [← hmask]
    congr 1
    omega
  have hroom : ¬(encoded.length ≠ (bits + 7) / 8 ∨ (bits + 7) / 8 < 50 ∨
      encoded.getLast? ≠ some 0xbc) := by
    simp only [hlength, hlast, ne_eq, not_true_eq_false, false_or, or_false]
    omega
  simp only [verify, if_neg hroom, htake, hdrop, hclear, ne_eq, not_true_eq_false, if_false,
    hmaskAgain, hunmask, saltOf?_padded, hhash, decide_true]

end Encode

end Pss

end Rsa

end BlindToken
