import Mathlib.Data.List.Infix
import BlindToken.Proofs.Tier.Registry

namespace BlindToken.TieredIssuers

variable {tier : Type} [DecidableEq tier]

-- The issuer that is listed last for the tier.
def lastIssuer? (entries : List (tier × Issuer)) (wanted : tier) : Option Issuer :=
  entries.reverse.lookup wanted

-- The last issuers of different tiers have different truncated IDs.
def TellsApart (entries : List (tier × Issuer)) : Prop :=
  ∀ first second left right, lastIssuer? entries first = some left →
    lastIssuer? entries second = some right →
    left.truncatedTokenKeyId = right.truncatedTokenKeyId → first = second

theorem lastIssuer?_concat (entries : List (tier × Issuer)) (new wanted : tier) (issuer : Issuer) :
    lastIssuer? (entries ++ [(new, issuer)]) wanted =
      if wanted = new then some issuer else lastIssuer? entries wanted := by
  rw [lastIssuer?, List.reverse_concat, List.lookup_cons]
  by_cases hwanted : wanted = new
  · simp [hwanted]
  · have hbeq : (wanted == new) = false := by simpa using hwanted
    rw [hbeq, if_neg hwanted]
    rfl

-- The registry holds the last issuer of each tier.
structure Follows (registry : TieredIssuers tier) (entries : List (tier × Issuer)) : Prop where
  issuer? : ∀ wanted, registry.issuer? wanted = lastIssuer? entries wanted
  inverse : registry.Inverse

namespace Follows

variable {registry after final : TieredIssuers tier} {entries rest : List (tier × Issuer)}
  {new : tier} {issuer : Issuer}

theorem empty : (empty : TieredIssuers tier).Follows [] := ⟨fun _ => rfl, Inverse.empty⟩

theorem tellsApart (h : registry.Follows entries) : TellsApart entries := by
  intro first second left right hleft hright hid
  rw [← h.issuer?] at hleft hright
  exact h.inverse.tier_eq hleft hright hid

-- The former issuer of the tier is removed first, so its truncated ID is free for any tier.
theorem concat (h : registry.Follows entries)
    (hadd : (registry.remove new).add? new issuer = some after) :
    after.Follows (entries ++ [(new, issuer)]) := by
  have hadds := adds_of_add? hadd
  refine ⟨fun wanted => ?_, (h.inverse.remove new).adds (by simp [issuer?_remove]) hadds⟩
  rw [hadds.issuer?, issuer?_remove, lastIssuer?_concat, h.issuer?]
  split <;> rfl

theorem not_tellsApart_concat (h : registry.Follows entries)
    (hadd : (registry.remove new).add? new issuer = none) :
    ¬TellsApart (entries ++ [(new, issuer)]) := by
  rw [add?_eq_none_iff, Ne, (h.inverse.remove new).tierFor?_eq_none_iff] at hadd
  intro happart
  refine hadd fun other held hheld hid => ?_
  have hother : other ≠ new := by
    rintro rfl
    simp [issuer?_remove] at hheld
  rw [issuer?_remove, if_neg hother, h.issuer?] at hheld
  refine hother (happart other new held issuer ?_ ?_ hid)
  · rwa [lastIssuer?_concat, if_neg hother]
  · rw [lastIssuer?_concat, if_pos rfl]

theorem addAll (h : registry.Follows entries) (hadd : registry.addAll rest = .ok final) :
    final.Follows (entries ++ rest) := by
  induction rest generalizing registry entries with
  | nil =>
    obtain rfl := Except.ok.inj hadd
    rwa [List.append_nil]
  | cons entry rest ih =>
    obtain ⟨new, issuer⟩ := entry
    rw [TieredIssuers.addAll] at hadd
    cases hnew : (registry.remove new).add? new issuer with
    | none => simp [hnew] at hadd
    | some after =>
      have hafter := ih (h.concat hnew) (by simpa [hnew] using hadd)
      rwa [List.append_assoc] at hafter

theorem exists_addAll_iff (h : registry.Follows entries) :
    (∃ final, registry.addAll rest = .ok final) ↔
      ∀ front, front <+: rest → TellsApart (entries ++ front) := by
  induction rest generalizing registry entries with
  | nil => simpa [TieredIssuers.addAll] using h.tellsApart
  | cons entry rest ih =>
    obtain ⟨new, issuer⟩ := entry
    rw [TieredIssuers.addAll]
    cases hnew : (registry.remove new).add? new issuer with
    | none =>
      refine iff_of_false ?_ fun hfronts => ?_
      · rintro ⟨final, hfinal⟩
        cases hfinal
      · exact h.not_tellsApart_concat hnew (hfronts _ (List.prefix_append [(new, issuer)] rest))
    | some after =>
      rw [ih (h.concat hnew)]
      constructor
      · intro hfronts front hfront
        rcases List.prefix_cons_iff.mp hfront with rfl | ⟨more, rfl, hmore⟩
        · simpa using h.tellsApart
        · simpa using hfronts more hmore
      · intro hfronts front hfront
        simpa using hfronts ((new, issuer) :: front) ((List.prefix_cons_inj _).mpr hfront)

end Follows

theorem eq_collision_of_addAll {registry : TieredIssuers tier} {entries : List (tier × Issuer)}
    {error : ProtocolError} (hadd : registry.addAll entries = .error error) :
    error = .truncatedTokenKeyIdCollision := by
  induction entries generalizing registry with
  | nil => cases hadd
  | cons entry rest ih =>
    obtain ⟨new, issuer⟩ := entry
    rw [addAll] at hadd
    split at hadd
    · exact ih hadd
    · exact (Except.error.inj hadd).symm

-- A list makes a registry exactly if none of its fronts gives two tiers the same truncated ID, and
-- then each tier has the issuer that is listed last for it.
theorem ofIssuers_exact (entries : List (tier × Issuer)) :
    ((∃ registry, ofIssuers entries = .ok registry) ↔
      ∀ front, front <+: entries → TellsApart front) ∧
    (∀ registry, ofIssuers entries = .ok registry →
      (∀ next, registry.issuer? next = lastIssuer? entries next) ∧
      ∀ id next, registry.tierFor? id = some next ↔
        ∃ issuer, lastIssuer? entries next = some issuer ∧ issuer.truncatedTokenKeyId = id) ∧
    ∀ error, ofIssuers entries = .error error → error = .truncatedTokenKeyIdCollision := by
  refine ⟨Follows.empty.exists_addAll_iff, fun registry hregistry => ?_,
    fun error => eq_collision_of_addAll⟩
  have hfollows := Follows.empty.addAll hregistry
  refine ⟨hfollows.issuer?, fun id next => ?_⟩
  rw [hfollows.inverse id next, hfollows.issuer?]
  rfl

theorem exists_ofIssuers_of_freed {first second : Issuer}
    (hids : second.truncatedTokenKeyId ≠ first.truncatedTokenKeyId) :
    ∃ registry, ofIssuers [(true, first), (true, second), (false, first)] = .ok registry := by
  simp [ofIssuers, addAll, empty, remove, add?, Table.contains, Table.get?_insert,
    Table.get?_erase, hids, hids.symm]

-- The first tier gives up a truncated ID, which the second tier takes. The other way round the
-- second tier is refused, although the first one is to have another issuer later.
theorem smooth_ofIssuers_exact :
    (∃ registry,
      ofIssuers [(true, smoothIssuer), (true, cubicIssuer), (false, smoothIssuer)] =
        .ok registry ∧
      registry.issuer? true = some cubicIssuer ∧
      registry.tierFor? smoothIssuer.truncatedTokenKeyId = some false) ∧
    ofIssuers [(true, smoothIssuer), (false, smoothIssuer), (true, cubicIssuer)] =
      .error .truncatedTokenKeyIdCollision := by
  constructor
  · obtain ⟨registry, hregistry⟩ := exists_ofIssuers_of_freed cubicIssuer_ne_smoothIssuer
    obtain ⟨hissuer, htier⟩ := (ofIssuers_exact _).2.1 registry hregistry
    exact ⟨registry, hregistry, hissuer true, (htier _ _).mpr ⟨smoothIssuer, rfl, rfl⟩⟩
  · obtain ⟨hiff, -, herror⟩ :=
      ofIssuers_exact [(true, smoothIssuer), (false, smoothIssuer), (true, cubicIssuer)]
    cases hmade : ofIssuers [(true, smoothIssuer), (false, smoothIssuer), (true, cubicIssuer)] with
    | error error => rw [herror error hmade]
    | ok registry =>
      have hfront : [(true, smoothIssuer), (false, smoothIssuer)] <+:
          [(true, smoothIssuer), (false, smoothIssuer), (true, cubicIssuer)] :=
        List.prefix_append _ [(true, cubicIssuer)]
      have hsame := hiff.mp ⟨registry, hmade⟩ _ hfront true false smoothIssuer smoothIssuer
        rfl rfl rfl
      cases hsame

end BlindToken.TieredIssuers
