import Mathlib.Data.List.Sort
import BlindToken.Proofs.Directory
import BlindToken.Proofs.Tier.Listing
import BlindToken.Tier.Issuers

namespace BlindToken

theorem pairwise_lt_mergeSort {item : Type} (id : item → TruncatedTokenKeyId) {items : List item}
    (hnodup : (items.map id).Nodup) :
    (items.mergeSort fun left right => id left ≤ id right).Pairwise
      fun left right => id left < id right := by
  have hle : (items.mergeSort fun left right => id left ≤ id right).Pairwise
      fun left right => id left ≤ id right := by
    refine (List.pairwise_mergeSort ?_ ?_ items).imp of_decide_eq_true
    · intro first second third
      simpa using UInt8.le_trans
    · intro first second
      simpa using UInt8.le_total (id first) (id second)
  have hne : (items.mergeSort fun left right => id left ≤ id right).Pairwise
      fun left right => id left ≠ id right := by
    rw [← List.pairwise_map]
    exact ((List.mergeSort_perm items _).map id).nodup_iff.mpr hnodup
  exact (hle.and hne).imp fun ⟨hle, hne⟩ => UInt8.lt_of_le_of_ne hle hne

-- Keys in the order of their truncated IDs, no two of which are the same.
def Ascending (keys : List PublicKey) : Prop :=
  keys.Pairwise fun left right => left.truncatedTokenKeyId < right.truncatedTokenKeyId

theorem Ascending.eq_of_mem_iff {left right : List PublicKey} (hleft : Ascending left)
    (hright : Ascending right) (hmem : ∀ key, key ∈ left ↔ key ∈ right) : left = right := by
  have hirrefl : Std.Irrefl fun left right : PublicKey =>
      left.truncatedTokenKeyId < right.truncatedTokenKeyId := ⟨fun key => UInt8.lt_irrefl _⟩
  have hantisymm : Std.Antisymm fun left right : PublicKey =>
      left.truncatedTokenKeyId < right.truncatedTokenKeyId :=
    ⟨fun left right hlt hgt => absurd hgt (UInt8.lt_asymm hlt)⟩
  exact List.Pairwise.eq_of_mem_iff hleft hright hmem

-- At every time a directory of keys is valid for the published forms of these keys alone.
theorem DirectoryDocument.isValid_ofPublicKeys (uri : String) (keys : List PublicKey)
    (bytes : Bytes) (now : UInt64) :
    (⟨uri, keys.map (DirectoryKey.ofPublicKey · none)⟩ : DirectoryDocument).isValid bytes now =
      true ↔ ∃ key ∈ keys, key.spki = bytes := by
  rw [isValid_iff]
  constructor
  · rintro ⟨entry, hentry, -, hbytes, -⟩
    obtain ⟨key, hkey, rfl⟩ := List.mem_map.mp hentry
    have hspki := Base64.urlDecode?_urlEncode key.spki
    exact ⟨key, hkey, Option.some.inj (hspki.symm.trans hbytes)⟩
  · rintro ⟨key, hkey, rfl⟩
    exact ⟨_, List.mem_map_of_mem hkey, DirectoryKey.isBlindRsa_iff.mpr rfl,
      Base64.urlDecode?_urlEncode key.spki, rfl⟩

namespace TieredIssuers

variable {tier : Type} {registry : TieredIssuers tier}

theorem length_keysInOrder (registry : TieredIssuers tier) :
    registry.keysInOrder.length = registry.size := by
  simp [keysInOrder, Table.values, size, Table.size]

theorem directory_eq {uri : String} (huri : (Uri.parse? uri).isSome) :
    registry.directory uri = .ok ⟨⟨uri, registry.keysInOrder.map
      (DirectoryKey.ofPublicKey · none)⟩, huri⟩ :=
  dif_pos huri

variable [DecidableEq tier]

-- Some tier has an issuer with the key.
def HasKey (registry : TieredIssuers tier) (key : PublicKey) : Prop :=
  ∃ next issuer, registry.issuer? next = some issuer ∧ issuer.publicKey = key

-- The entries of issuers that are met in some order.
def listed (order : List Issuer) : List DirectoryKey :=
  (order.mergeSort fun left right => left.truncatedTokenKeyId ≤ right.truncatedTokenKeyId).map
    fun issuer => DirectoryKey.ofPublicKey issuer.publicKey none

theorem mem_keysInOrder_iff {key : PublicKey} :
    key ∈ registry.keysInOrder ↔ registry.HasKey key := by
  rw [keysInOrder, List.mem_mergeSort, List.mem_map]
  simp only [Table.mem_values_iff]
  constructor
  · rintro ⟨issuer, ⟨next, hissuer⟩, hkey⟩
    exact ⟨next, issuer, hissuer, hkey⟩
  · rintro ⟨next, issuer, hissuer, hkey⟩
    exact ⟨issuer, ⟨next, hissuer⟩, hkey⟩

namespace Inverse

variable (h : registry.Inverse)

include h

theorem ascending_keysInOrder : Ascending registry.keysInOrder := by
  refine pairwise_lt_mergeSort PublicKey.truncatedTokenKeyId ?_
  rw [List.map_map]
  exact h.nodup_ids

-- Sorting is stable, but it need not be, as no two issuers have the same truncated ID.
theorem listed_eq {order : List Issuer} (horder : order.Perm registry.issuers.values) :
    listed order = registry.keysInOrder.map (DirectoryKey.ofPublicKey · none) := by
  have hnodup : (order.map Issuer.truncatedTokenKeyId).Nodup :=
    (horder.map _).nodup_iff.mpr h.nodup_ids
  have hascending : Ascending ((order.mergeSort fun left right =>
      left.truncatedTokenKeyId ≤ right.truncatedTokenKeyId).map Issuer.publicKey) :=
    List.pairwise_map.mpr (pairwise_lt_mergeSort Issuer.truncatedTokenKeyId hnodup)
  have hkeys := hascending.eq_of_mem_iff h.ascending_keysInOrder fun key => by
    simp only [keysInOrder, List.mem_mergeSort, List.mem_map, horder.mem_iff]
  rw [← hkeys, List.map_map]
  rfl

-- Neither the names of the tiers matter nor how the registry came to its keys.
theorem keysInOrder_eq {otherTier : Type} [DecidableEq otherTier]
    {other : TieredIssuers otherTier} (hother : other.Inverse)
    (hsame : ∀ key, other.HasKey key ↔ registry.HasKey key) :
    other.keysInOrder = registry.keysInOrder := by
  refine hother.ascending_keysInOrder.eq_of_mem_iff h.ascending_keysInOrder fun key => ?_
  rw [mem_keysInOrder_iff, mem_keysInOrder_iff]
  exact hsame key

end Inverse

-- A directory lists the key of each tier once, in the order of the truncated IDs, so that it
-- depends on nothing but which keys there are.
theorem directory_complete (registry : TieredIssuers tier) (hbuilt : registry.Built)
    (uri : String) (huri : (Uri.parse? uri).isSome) :
    ∃ directory, ∃ keys : List PublicKey, registry.directory uri = .ok directory ∧
      directory.issuerRequestUri = uri ∧
      directory.tokenKeys = keys.map (DirectoryKey.ofPublicKey · none) ∧
      keys.Pairwise (fun left right => left.truncatedTokenKeyId < right.truncatedTokenKeyId) ∧
      keys.length = registry.size ∧ (∀ key, key ∈ keys ↔ registry.HasKey key) ∧
      (∀ order, order.Perm registry.issuers.values → listed order = directory.tokenKeys) ∧
      (∀ {otherTier : Type} [DecidableEq otherTier] (other : TieredIssuers otherTier),
        other.Built → (∀ key, other.HasKey key ↔ registry.HasKey key) →
        ∃ same, other.directory uri = .ok same ∧ same = directory ∧
          same.toJson = directory.toJson) ∧
      ∀ bytes now, directory.isValid bytes now = true ↔
        ∃ key, registry.HasKey key ∧ key.spki = bytes := by
  have hinverse := hbuilt.inverse
  refine ⟨_, registry.keysInOrder, directory_eq huri, rfl, rfl, hinverse.ascending_keysInOrder,
    registry.length_keysInOrder, fun key => mem_keysInOrder_iff,
    fun order => hinverse.listed_eq, fun other hother hsame => ?_, fun bytes now => ?_⟩
  · have hkeys := hinverse.keysInOrder_eq hother.inverse hsame
    exact ⟨_, directory_eq huri, by rw [hkeys], by rw [hkeys]⟩
  · rw [DirectoryDocument.isValid_ofPublicKeys]
    exact exists_congr fun key => and_congr_left fun _ => mem_keysInOrder_iff

-- Two tiers that change their issuers. The directory stays the same.
theorem smooth_directory_complete :
    ∃ registry swapped directory,
      ofIssuers [(true, smoothIssuer), (false, cubicIssuer), (true, smoothIssuer)] =
        .ok registry ∧
      ofIssuers [(true, cubicIssuer), (false, smoothIssuer), (true, cubicIssuer)] =
        .ok swapped ∧
      registry.directory "/request" = .ok directory ∧
      swapped.directory "/request" = .ok directory ∧
      directory.isValid smoothIssuer.publicKey.spki 0 = true ∧
      directory.isValid cubicIssuer.publicKey.spki 0 = true := by
  obtain ⟨registry, hregistry, hsmooth⟩ := exists_ofIssuers_of_ne cubicIssuer_ne_smoothIssuer
  obtain ⟨swapped, hswapped, hcubic⟩ := exists_ofIssuers_of_ne cubicIssuer_ne_smoothIssuer.symm
  have hsecond : registry.issuer? false = some cubicIssuer :=
    (Follows.empty.addAll hregistry).issuer? false
  have hfirst : swapped.issuer? false = some smoothIssuer :=
    (Follows.empty.addAll hswapped).issuer? false
  have hsame (key : PublicKey) : swapped.HasKey key ↔ registry.HasKey key := by
    simp [HasKey, hsmooth, hsecond, hcubic, hfirst, or_comm]
  obtain ⟨directory, keys, hdirectory, -, -, -, -, -, -, hothers, hvalid⟩ :=
    directory_complete registry (.listed hregistry) "/request" (by decide +kernel)
  obtain ⟨same, hsameDirectory, rfl, -⟩ := hothers swapped (.listed hswapped) hsame
  exact ⟨registry, swapped, same, hregistry, hswapped, hdirectory, hsameDirectory,
    (hvalid _ _).mpr ⟨_, ⟨true, smoothIssuer, hsmooth, rfl⟩, rfl⟩,
    (hvalid _ _).mpr ⟨_, ⟨false, cubicIssuer, hsecond, rfl⟩, rfl⟩⟩

end TieredIssuers

end BlindToken
