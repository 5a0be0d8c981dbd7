import BlindToken.Proofs.Issuance.Redemption
import BlindToken.Tier.Router

namespace BlindToken

namespace Tally

-- At most one verification has the nonce, reserved or spent.
structure Exclusive (tally : Tally) : Prop where
  unique : tally.holders + tally.accepted ≤ 1
  absent : tally.mark = none → tally.holders = 0
  spent : 0 < tally.accepted → tally.mark = some .stored

-- The nonce is known, but not from a verification.
structure Foreign (tally : Tally) : Prop where
  known : tally.mark ≠ none
  holders : tally.holders = 0
  accepted : tally.accepted = 0

variable {before after : Tally}

theorem Exclusive.accepted_eq_zero (h : before.Exclusive) (habsent : before.mark ≠ some .stored) :
    before.accepted = 0 := by
  rcases Nat.eq_zero_or_pos before.accepted with hzero | hpos
  · exact hzero
  · exact absurd (h.spent hpos) habsent

theorem Step.exclusive (h : Step before after) (hbefore : before.Exclusive) : after.Exclusive := by
  obtain ⟨hunique, habsent, hspent⟩ := hbefore
  cases h with
  | idle hmark hholders haccepted =>
    exact ⟨by omega, by rwa [hmark, hholders], by rwa [hmark, haccepted]⟩
  | win hnone hmark hholders haccepted =>
    have hzero : before.accepted = 0 :=
      Exclusive.accepted_eq_zero ⟨hunique, habsent, hspent⟩ (by simp [hnone])
    have hfree := habsent hnone
    exact ⟨by omega, by simp [hmark], fun hpos => absurd hpos (by omega)⟩
  | commit hmark hholders haccepted =>
    exact ⟨by omega, fun _ => by omega, fun _ => hmark⟩
  | abort hmark hholders haccepted =>
    exact ⟨by omega, fun _ => by omega, fun hpos => absurd hpos (by omega)⟩

-- A release from outside is harmless only while no verification has the nonce reserved.
theorem Call.exclusive {operation : StoreCall} (h : Call operation before after)
    (hrelease : operation = .release → before.holders = 0) (hbefore : before.Exclusive) :
    after.Exclusive := by
  obtain ⟨hmark, hholders, haccepted⟩ := h
  have hunique : after.holders + after.accepted ≤ 1 := by
    rw [hholders, haccepted]
    exact hbefore.unique
  cases operation with
  | contains =>
    exact ⟨hunique, by rw [hmark, hholders]; exact hbefore.absent,
      by rw [hmark, haccepted]; exact hbefore.spent⟩
  | reserve =>
    refine ⟨hunique, ?_, ?_⟩
    · intro hnone
      simp [hmark, NonceMark.called, NonceMark.reserve] at hnone
    · intro hpos
      rw [hmark, hbefore.spent (by omega)]
      rfl
  | store => exact ⟨hunique, by simp [hmark, NonceMark.called], fun _ => hmark⟩
  | release =>
    refine ⟨hunique, fun _ => hholders.trans (hrelease rfl), ?_⟩
    intro hpos
    rw [hmark, hbefore.spent (by omega)]
    rfl

theorem Step.foreign (h : Step before after) (hbefore : before.Foreign) : after.Foreign := by
  obtain ⟨hknown, hfree, hnone⟩ := hbefore
  cases h with
  | idle hmark hholders haccepted => exact ⟨hmark ▸ hknown, by omega, by omega⟩
  | win habsent => exact absurd habsent hknown
  | commit _ hholders => omega
  | abort _ hholders => omega

theorem Call.foreign {operation : StoreCall} (h : Call operation before after)
    (hrelease : operation ≠ .release) (hbefore : before.Foreign) : after.Foreign := by
  obtain ⟨hmark, hholders, haccepted⟩ := h
  obtain ⟨hknown, hfree, hnone⟩ := hbefore
  refine ⟨?_, hholders.trans hfree, haccepted.trans hnone⟩
  cases operation with
  | contains => exact hmark ▸ hknown
  | reserve => simp [hmark, NonceMark.called, NonceMark.reserve]
  | store => simp [hmark, NonceMark.called]
  | release => contradiction

end Tally

-- The event is a release that is not a step of a verification.
def Event.IsRelease {name : Type} : Event name → Prop
  | .recover _ => True
  | .call _ _ operation => operation = .release
  | _ => False

theorem RoutedEvent.not_isRelease_arrive {tier name : Type} {router : Router tier name}
    {token : Token} : ∀ event ∈ (arrive router token).events, ¬event.IsRelease := by
  intro event hevent
  cases hroute : router.route? token.tokenKeyId.truncate with
  | none => simp [events, hroute] at hevent
  | some route =>
    obtain rfl : event = .start route.2 token := by simpa [events, hroute] using hevent
    exact id

namespace Redemptions

variable {tier name : Type} [DecidableEq name]

-- Every event but an outside release is a step of the tally or another call.
theorem tally_apply (current : Redemptions name) (event : Event name) (h : ¬event.IsRelease)
    (store : name) (nonce : Nonce) :
    Tally.Step (current.tally store nonce) ((current.apply event).tally store nonce) ∨
      ∃ operation, operation ≠ .release ∧
        Tally.Call operation (current.tally store nonce)
          ((current.apply event).tally store nonce) := by
  cases event with
  | start | resume | drop => exact .inl (current.tally_own (by simp [Event.IsOutside]) store nonce)
  | recover index => exact absurd trivial h
  | call changed other operation =>
    rcases tally_call current changed store other nonce operation with hstep | hcall
    · exact .inl hstep
    · exact .inr ⟨operation, h, hcall⟩

theorem exclusive_run (initial : NonceStores name) {events : List (Event name)}
    (hrelease : ∀ event ∈ events, ¬event.IsRelease) (store : name) (nonce : Nonce) :
    (((ofStores initial).run events).tally store nonce).Exclusive := by
  refine (along_of_forall _ hrelease).run_invariant
    (fun current => (current.tally store nonce).Exclusive) ?_ ?_
  · intro current event hcurrent hevent
    rcases current.tally_apply event hevent store nonce with hstep | ⟨operation, hother, hcall⟩
    · exact hstep.exclusive hcurrent
    · exact hcall.exclusive (fun h => absurd h hother) hcurrent
  · exact ⟨Nat.zero_le 1, fun _ => rfl, fun hpos => absurd hpos (Nat.lt_irrefl 0)⟩

theorem foreign_run (initial : NonceStores name) {events : List (Event name)}
    (hrelease : ∀ event ∈ events, ¬event.IsRelease) {store : name} {nonce : Nonce}
    (hknown : initial.mark store nonce ≠ none) :
    (((ofStores initial).run events).tally store nonce).Foreign := by
  refine (along_of_forall _ hrelease).run_invariant
    (fun current => (current.tally store nonce).Foreign) ?_ ⟨hknown, rfl, rfl⟩
  intro current event hcurrent hevent
  rcases current.tally_apply event hevent store nonce with hstep | ⟨operation, hother, hcall⟩
  · exact hstep.foreign hcurrent
  · exact hcall.foreign hother hcurrent

-- However verifications are interleaved and dropped, and whatever else is called on the stores
-- except a release, at most one of them accepts a token with a given nonce, and none does if the
-- nonce was known before.
theorem accepted_at_most_once (initial : NonceStores name) (events : List (RoutedEvent tier name))
    (hrelease : ∀ event ∈ events.flatMap RoutedEvent.events, ¬event.IsRelease)
    (store : name) (nonce : Nonce) :
    let final := (ofStores initial).run (events.flatMap RoutedEvent.events)
    final.accepted store nonce ≤ 1 ∧
      ((initial.get store).contains nonce → final.accepted store nonce = 0) := by
  constructor
  · exact Nat.le_trans (Nat.le_add_left _ _) (exclusive_run initial hrelease store nonce).unique
  · intro hknown
    rw [NonceStore.contains_eq, Option.isSome_iff_ne_none] at hknown
    exact (foreign_run initial hrelease hknown).accepted

-- Two verifications of one token, one of them at a router, and an attempt to reserve its nonce.
theorem smooth_accepted_at_most_once :
    let router : Router Unit Unit :=
      ⟨Table.ofList [(smoothToken.tokenKeyId.truncate, (), smoothVerifier)]⟩
    let events : List (RoutedEvent Unit Unit) :=
      [.arrive router smoothToken, .plain (.start smoothVerifier smoothToken), .plain (.resume 0),
        .plain (.resume 1), .plain (.call () smoothToken.nonce .reserve), .plain (.drop 1),
        .plain (.resume 0)]
    (∀ event ∈ events.flatMap RoutedEvent.events, ¬event.IsRelease) ∧
      ((ofStores .empty).run (events.flatMap RoutedEvent.events)).accepted ()
        smoothToken.nonce ≤ 1 := by
  intro router events
  have hrelease : ∀ event ∈ events.flatMap RoutedEvent.events, ¬event.IsRelease := by
    simp only [events, List.flatMap_cons, List.forall_mem_append]
    exact ⟨RoutedEvent.not_isRelease_arrive, by simp [RoutedEvent.events, Event.IsRelease]⟩
  exact ⟨hrelease, (accepted_at_most_once .empty events hrelease () smoothToken.nonce).1⟩

end Redemptions

end BlindToken
