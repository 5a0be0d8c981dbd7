import Mathlib.Data.Fintype.Card
import Mathlib.Data.List.Perm.Basic
import BlindToken.Proofs.Issuance.Redemption
import BlindToken.Proofs.Tier.Router
import BlindToken.Tier.Issuers

namespace BlindToken

-- There are no more truncated IDs than bytes.
theorem length_le_of_nodup_ids {ids : List TruncatedTokenKeyId} (h : ids.Nodup) :
    ids.length ≤ 256 := by
  have hbytes : (ids.map UInt8.toFin).Nodup := h.map fun _ _ => UInt8.toFin_inj.mp
  have hlength := hbytes.length_le_card
  rwa [Fintype.card_fin, List.length_map] at hlength

namespace TieredIssuers

variable {tier name state : Type} [DecidableEq tier] {registry : TieredIssuers tier}

-- A truncated ID leads to a tier exactly if the tier's issuer has it.
def Inverse (registry : TieredIssuers tier) : Prop :=
  ∀ id next, registry.tierFor? id = some next ↔
    ∃ issuer, registry.issuer? next = some issuer ∧ issuer.truncatedTokenKeyId = id

-- All that adding an issuer does to the two tables.
structure Adds (registry : TieredIssuers tier) (new : tier) (issuer : Issuer)
    (after : TieredIssuers tier) : Prop where
  free : registry.tierFor? issuer.truncatedTokenKeyId = none
  issuer? : ∀ wanted, after.issuer? wanted =
    if wanted = new then some issuer else registry.issuer? wanted
  tierFor? : ∀ id, after.tierFor? id =
    if id = issuer.truncatedTokenKeyId then some new else registry.tierFor? id

theorem adds_of_add? {new : tier} {issuer : Issuer} {after : TieredIssuers tier}
    (hadd : registry.add? new issuer = some after) : Adds registry new issuer after := by
  unfold add? at hadd
  cases htaken : registry.tiers.contains issuer.truncatedTokenKeyId with
  | true => simp [htaken] at hadd
  | false =>
    obtain rfl : _ = after := by simpa [htaken] using hadd
    exact ⟨(registry.tiers.contains_eq_false_iff _).mp htaken,
      fun wanted => Table.get?_insert _ _ _ _, fun id => Table.get?_insert _ _ _ _⟩

theorem add?_eq_none_iff {new : tier} {issuer : Issuer} :
    registry.add? new issuer = none ↔ registry.tierFor? issuer.truncatedTokenKeyId ≠ none := by
  rw [add?, tierFor?, Table.contains, ite_eq_left_iff]
  simp

theorem issuer?_remove (registry : TieredIssuers tier) (old wanted : tier) :
    (registry.remove old).issuer? wanted =
      if wanted = old then none else registry.issuer? wanted := by
  unfold remove
  cases hold : registry.issuers.get? old with
  | some previous => exact Table.get?_erase _ _ _
  | none =>
    by_cases hwanted : wanted = old
    · subst hwanted
      simpa [issuer?] using hold
    · simp [hwanted]

namespace Inverse

theorem empty : (empty : TieredIssuers tier).Inverse := by
  intro id next
  simp [TieredIssuers.empty, tierFor?, issuer?]

theorem tierFor? (h : registry.Inverse) {next : tier} {issuer : Issuer}
    (hissuer : registry.issuer? next = some issuer) :
    registry.tierFor? issuer.truncatedTokenKeyId = some next :=
  (h _ next).mpr ⟨issuer, hissuer, rfl⟩

theorem tier_eq (h : registry.Inverse) {first second : tier} {left right : Issuer}
    (hleft : registry.issuer? first = some left) (hright : registry.issuer? second = some right)
    (hid : left.truncatedTokenKeyId = right.truncatedTokenKeyId) : first = second := by
  have hfirst := h.tierFor? hleft
  rw [hid, h.tierFor? hright] at hfirst
  exact (Option.some.inj hfirst).symm

theorem tierFor?_eq_none_iff (h : registry.Inverse) (id : TruncatedTokenKeyId) :
    registry.tierFor? id = none ↔ ∀ next issuer, registry.issuer? next = some issuer →
      issuer.truncatedTokenKeyId ≠ id := by
  rw [Option.eq_none_iff_forall_ne_some]
  constructor
  · intro hnone next issuer hissuer hid
    exact hnone next ((h id next).mpr ⟨issuer, hissuer, hid⟩)
  · intro hothers next hsome
    obtain ⟨issuer, hissuer, hid⟩ := (h id next).mp hsome
    exact hothers next issuer hissuer hid

-- A tier that gets an issuer must have none, or its former truncated ID would still lead to it.
theorem adds (h : registry.Inverse) {new : tier} {issuer : Issuer} {after : TieredIssuers tier}
    (habsent : registry.issuer? new = none) (hadds : Adds registry new issuer after) :
    after.Inverse := by
  intro id next
  rw [hadds.tierFor?, hadds.issuer?]
  by_cases hnext : next = new
  · subst hnext
    have hold : registry.tierFor? id ≠ some next := by
      intro hsome
      obtain ⟨previous, hprevious, -⟩ := (h id next).mp hsome
      simp [habsent] at hprevious
    by_cases hid : id = issuer.truncatedTokenKeyId
    · simp [hid]
    · simp [hid, hold, Ne.symm hid]
  · by_cases hid : id = issuer.truncatedTokenKeyId
    · subst hid
      have hother : ∀ held, registry.issuer? next = some held →
          held.truncatedTokenKeyId ≠ issuer.truncatedTokenKeyId := by
        intro held hheld hsame
        have htier := h.tierFor? hheld
        simp [hsame, hadds.free] at htier
      simpa [hnext, Ne.symm hnext] using hother
    · simpa [hid, hnext] using h id next

theorem remove (h : registry.Inverse) (old : tier) : (registry.remove old).Inverse := by
  intro id next
  rw [issuer?_remove]
  cases hold : registry.issuers.get? old with
  | none =>
    have hsame : registry.remove old = registry := by simp [TieredIssuers.remove, hold]
    rw [hsame, h id next]
    by_cases hnext : next = old
    · subst hnext
      simp [TieredIssuers.issuer?, hold]
    · simp [hnext]
  | some previous =>
    have htier : (registry.remove old).tierFor? id =
        if id = previous.truncatedTokenKeyId then none else registry.tierFor? id := by
      simp only [TieredIssuers.remove, hold, TieredIssuers.tierFor?, Table.get?_erase]
    rw [htier]
    by_cases hnext : next = old
    · subst hnext
      have hother : id ≠ previous.truncatedTokenKeyId → registry.tierFor? id ≠ some next := by
        intro hid hsome
        obtain ⟨issuer, hissuer, rfl⟩ := (h id next).mp hsome
        exact hid (congrArg _ (Option.some.inj (hissuer.symm.trans hold)))
      simpa using hother
    · by_cases hid : id = previous.truncatedTokenKeyId
      · subst hid
        have hother : ∀ issuer, registry.issuer? next = some issuer →
            issuer.truncatedTokenKeyId ≠ previous.truncatedTokenKeyId :=
          fun issuer hissuer hsame => hnext (h.tier_eq hissuer hold hsame)
        simpa [hnext] using hother
      · simpa [hid, hnext] using h id next

theorem addAll (h : registry.Inverse) {entries : List (tier × Issuer)} {final : TieredIssuers tier}
    (hadd : registry.addAll entries = .ok final) : final.Inverse := by
  induction entries generalizing registry with
  | nil =>
    obtain rfl := Except.ok.inj hadd
    exact h
  | cons entry rest ih =>
    obtain ⟨next, issuer⟩ := entry
    rw [TieredIssuers.addAll] at hadd
    cases hnext : (registry.remove next).add? next issuer with
    | none => simp [hnext] at hadd
    | some after =>
      have habsent : (registry.remove next).issuer? next = none := by simp [issuer?_remove]
      have hafter := (h.remove next).adds habsent (adds_of_add? hnext)
      exact ih hafter (by simpa [hnext] using hadd)

theorem nodup_ids (h : registry.Inverse) :
    (registry.issuers.values.map Issuer.truncatedTokenKeyId).Nodup := by
  have hentries : registry.issuers.entries.Nodup := registry.issuers.nodup.of_map
  rw [Table.values, List.map_map]
  refine hentries.map_on ?_
  rintro ⟨first, left⟩ hleft ⟨second, right⟩ hright hid
  have hfirst := (registry.issuers.get?_eq_some_iff first left).mpr hleft
  have hsecond := (registry.issuers.get?_eq_some_iff second right).mpr hright
  obtain rfl := h.tier_eq hfirst hsecond hid
  rw [Option.some.inj (hfirst.symm.trans hsecond)]

-- The keys of one table are the truncated IDs of the other.
theorem perm_ids (h : registry.Inverse) :
    (registry.issuers.values.map Issuer.truncatedTokenKeyId).Perm registry.tiers.keys := by
  refine (List.perm_ext_iff_of_nodup h.nodup_ids registry.tiers.nodup).mpr fun id => ?_
  have hleft : id ∈ registry.issuers.values.map Issuer.truncatedTokenKeyId ↔
      ∃ next issuer, registry.issuer? next = some issuer ∧ issuer.truncatedTokenKeyId = id := by
    simp only [List.mem_map, Table.mem_values_iff]
    constructor
    · rintro ⟨issuer, ⟨next, hissuer⟩, hid⟩
      exact ⟨next, issuer, hissuer, hid⟩
    · rintro ⟨next, issuer, hissuer, hid⟩
      exact ⟨issuer, ⟨next, hissuer⟩, hid⟩
  rw [hleft, Table.mem_keys_iff]
  exact exists_congr fun next => (h id next).symm

theorem size_tiers (h : registry.Inverse) : registry.tiers.size = registry.size := by
  have hlength := h.perm_ids.length_eq
  simpa [Table.values, Table.keys, Table.size, TieredIssuers.size] using hlength.symm

theorem size_le (h : registry.Inverse) : registry.size ≤ 256 := by
  have hlength := length_le_of_nodup_ids registry.tiers.nodup
  rw [List.length_map] at hlength
  rw [← h.size_tiers]
  exact hlength

end Inverse

section Routes

-- The verifier of each tier, with the store that is named for it.
def tierVerifier (storeOf : tier → name) (next : tier) (issuer : Issuer) : Verifier name where
  publicKey := issuer.publicKey
  store := storeOf next
  challengeDigest := none

def tierVerifiers (registry : TieredIssuers tier) (storeOf : tier → name) :
    List (tier × Verifier name) :=
  registry.issuers.entries.map fun (next, issuer) => (next, tierVerifier storeOf next issuer)

theorem Inverse.serves [DecidableEq name] (h : registry.Inverse) (storeOf : tier → name) :
    (registry.verifiers storeOf).Serves (registry.tierVerifiers storeOf) := by
  have hkeyed : (registry.tierVerifiers storeOf).map (fun entry => (Router.keyId entry, entry)) =
      registry.issuers.entries.map fun (next, issuer) =>
        (issuer.truncatedTokenKeyId, next, tierVerifier storeOf next issuer) := by
    rw [tierVerifiers, List.map_map]
    rfl
  have hnodup : ((registry.issuers.entries.map fun (next, issuer) =>
      (issuer.truncatedTokenKeyId, next, tierVerifier storeOf next issuer)).map
        Prod.fst).Nodup := by
    have hids := h.nodup_ids
    rw [Table.values, List.map_map] at hids
    rwa [List.map_map]
  rw [Router.Serves, hkeyed, verifiers]
  exact (List.Perm.of_eq (Table.entries_ofList hnodup)).trans (List.reverse_perm _)

end Routes

section Generation

-- The generator yields the keys in turn and ends in the last state.
inductive Yields (generator : state → Except ProtocolError (Issuer × state)) :
    state → List Issuer → state → Prop where
  | nil (current : state) : Yields generator current [] current
  | cons {current next last : state} {issuer : Issuer} {rest : List Issuer}
      (drawn : generator current = .ok (issuer, next)) (others : Yields generator next rest last) :
      Yields generator current (issuer :: rest) last

variable {generator : state → Except ProtocolError (Issuer × state)} {current later : state}

namespace Yields

theorem cons_iff {issuer : Issuer} {rest : List Issuer} :
    Yields generator current (issuer :: rest) later ↔
      ∃ next, generator current = .ok (issuer, next) ∧ Yields generator next rest later := by
  constructor
  · rintro (_ | ⟨hdrawn, hothers⟩)
    exact ⟨_, hdrawn, hothers⟩
  · rintro ⟨next, hdrawn, hothers⟩
    exact .cons hdrawn hothers

theorem singleton_iff {issuer : Issuer} :
    Yields generator current [issuer] later ↔ generator current = .ok (issuer, later) := by
  rw [cons_iff]
  constructor
  · rintro ⟨next, hdrawn, hothers⟩
    cases hothers
    exact hdrawn
  · exact fun hdrawn => ⟨later, hdrawn, .nil later⟩

end Yields

-- The first issuer that is not refused is added, and nothing else changes.
theorem generateFor_eq_ok_iff {next : tier} {attempts : Nat} {after : TieredIssuers tier} :
    generateFor generator registry next attempts current = .ok (after, later) ↔
      ∃ refused issuer, refused.length < attempts ∧
        (∀ key ∈ refused, registry.add? next key = none) ∧
        Yields generator current (refused ++ [issuer]) later ∧
        registry.add? next issuer = some after := by
  induction attempts generalizing current with
  | zero =>
    refine iff_of_false ?_ ?_
    · intro hgenerate
      cases hgenerate
    · rintro ⟨refused, issuer, hlt, -⟩
      exact Nat.not_lt_zero _ hlt
  | succ attempts ih =>
    rw [generateFor, bind_eq_ok_iff]
    constructor
    · rintro ⟨⟨issuer, drawn⟩, hdrawn, hrest⟩
      cases hadd : registry.add? next issuer with
      | none =>
        obtain ⟨refused, kept, hlt, hrefused, hyields, hkept⟩ :=
          ih.mp (by simpa [hadd] using hrest)
        exact ⟨issuer :: refused, kept, Nat.succ_lt_succ hlt,
          List.forall_mem_cons.mpr ⟨hadd, hrefused⟩, .cons hdrawn hyields, hkept⟩
      | some added =>
        simp only [hadd] at hrest
        obtain ⟨rfl, rfl⟩ := Prod.mk.inj (Except.ok.inj hrest)
        exact ⟨[], issuer, Nat.succ_pos _, List.forall_mem_nil _,
          Yields.singleton_iff.mpr hdrawn, hadd⟩
    · rintro ⟨refused, kept, hlt, hrefused, hyields, hkept⟩
      cases refused with
      | nil => exact ⟨_, Yields.singleton_iff.mp hyields, by simp [hkept]; rfl⟩
      | cons issuer refused =>
        obtain ⟨drawn, hdrawn, hothers⟩ := Yields.cons_iff.mp hyields
        obtain ⟨hissuer, hrefused⟩ := List.forall_mem_cons.mp hrefused
        have hrest := ih.mpr ⟨refused, kept, Nat.lt_of_succ_lt_succ hlt, hrefused, hothers, hkept⟩
        exact ⟨_, hdrawn, by simpa [hissuer] using hrest⟩

theorem Inverse.generateAll (h : registry.Inverse) {attempts : Nat} {tiers : List tier}
    {final : TieredIssuers tier}
    (hgenerate : generateAll generator attempts tiers registry current = .ok (final, later)) :
    final.Inverse := by
  induction tiers generalizing registry current with
  | nil =>
    obtain ⟨rfl, -⟩ := Prod.mk.inj (Except.ok.inj hgenerate)
    exact h
  | cons next rest ih =>
    rw [TieredIssuers.generateAll] at hgenerate
    cases hheld : registry.issuers.contains next with
    | true => exact ih h (by simpa [hheld] using hgenerate)
    | false =>
      simp only [hheld, Bool.false_eq_true, if_false] at hgenerate
      obtain ⟨⟨after, drawn⟩, hfirst, hrest⟩ := bind_eq_ok_iff.mp hgenerate
      obtain ⟨refused, issuer, -, -, -, hadd⟩ := generateFor_eq_ok_iff.mp hfirst
      have habsent := (registry.issuers.contains_eq_false_iff next).mp hheld
      exact ih (h.adds habsent (adds_of_add? hadd)) hrest

end Generation

-- How registries come about: with keys of any generator, or from a list of issuers.
inductive Built : TieredIssuers tier → Prop where
  | generated {state : Type} {generator : state → Except ProtocolError (Issuer × state)}
      {attempts : Nat} {tiers : List tier} {current later : state}
      {registry : TieredIssuers tier}
      (generated : generate generator attempts tiers current = .ok (registry, later)) :
      Built registry
  | listed {entries : List (tier × Issuer)} {registry : TieredIssuers tier}
      (listed : ofIssuers entries = .ok registry) : Built registry

theorem Built.inverse (h : registry.Built) : registry.Inverse := by
  cases h with
  | generated hgenerated => exact Inverse.empty.generateAll hgenerated
  | listed hlisted => exact Inverse.empty.addAll hlisted

-- However a registry comes about, one table is the inverse of the other, so that each of at most
-- 256 tiers has its own truncated ID and its own route.
theorem tables_inverse (registry : TieredIssuers tier) (hbuilt : registry.Built) :
    (∀ id next, registry.tierFor? id = some next ↔
      ∃ issuer, registry.issuer? next = some issuer ∧ issuer.truncatedTokenKeyId = id) ∧
    (∀ first second left right, registry.issuer? first = some left →
      registry.issuer? second = some right →
      left.truncatedTokenKeyId = right.truncatedTokenKeyId → first = second) ∧
    registry.tiers.size = registry.issuers.size ∧ registry.size ≤ 256 ∧
    ∀ {name : Type} [DecidableEq name] (storeOf : tier → name),
      (registry.verifiers storeOf).routes.size = registry.size ∧
      ∀ next id verifier, (registry.verifiers storeOf).route? id = some (next, verifier) ↔
        ∃ issuer, registry.issuer? next = some issuer ∧ issuer.truncatedTokenKeyId = id ∧
          verifier = tierVerifier storeOf next issuer := by
  have hinverse := hbuilt.inverse
  refine ⟨hinverse, fun _ _ _ _ hleft hright hid => hinverse.tier_eq hleft hright hid,
    hinverse.size_tiers, hinverse.size_le, fun storeOf => ?_⟩
  have hserves := hinverse.serves storeOf
  refine ⟨?_, fun next id verifier => ?_⟩
  · rw [hserves.size_routes, tierVerifiers, List.length_map]
    rfl
  · rw [hserves.route?_eq_some_iff]
    simp only [tierVerifiers, List.mem_map, Prod.exists, issuer?, Table.get?_eq_some_iff]
    constructor
    · rintro ⟨⟨held, issuer, hentry, hsame⟩, rfl⟩
      obtain ⟨rfl, rfl⟩ := Prod.mk.inj hsame
      exact ⟨issuer, hentry, rfl, rfl⟩
    · rintro ⟨issuer, hentry, rfl, rfl⟩
      exact ⟨⟨next, issuer, hentry, rfl⟩, rfl⟩

end TieredIssuers

-- A second issuer with the same primes. Its key has another exponent, so it is another key.
def cubicNumbers : Rsa.PrivateNumbers :=
  { smoothNumbers with
    exponent := 3
    privateExponent := (2 * (2 ^ 508 * 5 ^ 222) * (2 ^ 364 * 7 ^ 235) + 1) / 3 }

@[irreducible] def cubicKey : PrivateKey :=
  (PrivateKey.ofNumbers cubicNumbers).toOption.get (by decide +kernel)

def cubicIssuer : Issuer := ⟨cubicKey, by decide +kernel⟩

theorem cubicIssuer_ne_smoothIssuer :
    cubicIssuer.truncatedTokenKeyId ≠ smoothIssuer.truncatedTokenKeyId := by
  decide +kernel

namespace TieredIssuers

-- The first tier is listed twice, so that its issuer is taken out and put back.
theorem exists_ofIssuers_of_ne {first second : Issuer}
    (hids : second.truncatedTokenKeyId ≠ first.truncatedTokenKeyId) :
    ∃ registry, ofIssuers [(true, first), (false, second), (true, first)] = .ok registry ∧
      registry.issuer? true = some first := by
  simp [ofIssuers, addAll, empty, remove, add?, issuer?, Table.contains, Table.get?_insert,
    Table.get?_erase, hids]

theorem smooth_tables_inverse :
    ∃ registry,
      ofIssuers [(true, smoothIssuer), (false, cubicIssuer), (true, smoothIssuer)] =
        .ok registry ∧
      registry.tierFor? smoothIssuer.truncatedTokenKeyId = some true ∧
      registry.tiers.size = registry.issuers.size := by
  obtain ⟨registry, hregistry, hissuer⟩ := exists_ofIssuers_of_ne cubicIssuer_ne_smoothIssuer
  obtain ⟨hinverse, -, hsize, -⟩ := tables_inverse registry (.listed hregistry)
  exact ⟨registry, hregistry, (hinverse _ _).mpr ⟨smoothIssuer, hissuer, rfl⟩, hsize⟩

end TieredIssuers

end BlindToken
