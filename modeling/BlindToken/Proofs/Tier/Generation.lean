import Mathlib.Data.List.Basic
import BlindToken.Proofs.Tier.Registry

namespace BlindToken.TieredIssuers

variable {tier state : Type}

-- What a tier gets: the keys that are drawn for it in vain, and the one that it keeps.
structure Allotment (tier : Type) where
  holder : tier
  refused : List Issuer
  issuer : Issuer

def Allotment.drawn (allotment : Allotment tier) : List Issuer :=
  allotment.refused ++ [allotment.issuer]

def IsTaken (earlier : List (Allotment tier)) (key : Issuer) : Prop :=
  ∃ other ∈ earlier, other.issuer.truncatedTokenKeyId = key.truncatedTokenKeyId

-- The tier keeps the first key that is not taken, one of the next few.
structure Allotment.IsFair (attempts : Nat) (earlier : List (Allotment tier))
    (next : Allotment tier) : Prop where
  refused_lt : next.refused.length < attempts
  taken : ∀ key ∈ next.refused, IsTaken earlier key
  free : ¬IsTaken earlier next.issuer

-- Tiers after some earlier ones get their keys, each from where the one before it has left off.
inductive Allots (generator : state → Except ProtocolError (Issuer × state)) (attempts : Nat) :
    List (Allotment tier) → state → List (Allotment tier) → state → Prop where
  | nil (earlier : List (Allotment tier)) (current : state) :
      Allots generator attempts earlier current [] current
  | cons {earlier rest : List (Allotment tier)} {current next last : state}
      {allotment : Allotment tier} (fair : allotment.IsFair attempts earlier)
      (drawn : Yields generator current allotment.drawn next)
      (others : Allots generator attempts (earlier ++ [allotment]) next rest last) :
      Allots generator attempts earlier current (allotment :: rest) last

-- A tier gets no key: the allowed number of keys are all taken, or the generator fails before.
inductive Fails (generator : state → Except ProtocolError (Issuer × state)) (attempts : Nat)
    (earlier : List (Allotment tier)) (current : state) : ProtocolError → Prop where
  | exhausted {refused : List Issuer} {last : state} (drawn : Yields generator current refused last)
      (taken : ∀ key ∈ refused, IsTaken earlier key) (used : refused.length = attempts) :
      Fails generator attempts earlier current .truncatedTokenKeyIdCollision
  | broken {refused : List Issuer} {last : state} {error : ProtocolError}
      (drawn : Yields generator current refused last)
      (taken : ∀ key ∈ refused, IsTaken earlier key) (unused : refused.length < attempts)
      (failed : generator last = .error error) : Fails generator attempts earlier current error

variable {generator : state → Except ProtocolError (Issuer × state)} {attempts : Nat}
  {earlier allotments : List (Allotment tier)} {current later : state} {error : ProtocolError}

namespace Fails

theorem zero_iff : Fails generator 0 earlier current error ↔
    error = .truncatedTokenKeyIdCollision := by
  constructor
  · intro h
    cases h with
    | exhausted => rfl
    | broken _ _ hunused _ => exact absurd hunused (Nat.not_lt_zero _)
  · rintro rfl
    exact .exhausted (.nil current) (List.forall_mem_nil _) rfl

theorem succ_iff_of_error {failure : ProtocolError} (hfailed : generator current = .error failure) :
    Fails generator (attempts + 1) earlier current error ↔ error = failure := by
  constructor
  · intro h
    cases h with
    | exhausted hyields _ hused =>
      cases hyields with
      | nil => cases hused
      | cons hdrawn _ => cases hfailed.symm.trans hdrawn
    | broken hyields _ _ hbroken =>
      cases hyields with
      | nil => exact Except.error.inj (hbroken.symm.trans hfailed)
      | cons hdrawn _ => cases hfailed.symm.trans hdrawn
  · rintro rfl
    exact .broken (.nil current) (List.forall_mem_nil _) (Nat.succ_pos _) hfailed

-- A key that is taken uses up one of the attempts.
theorem succ_iff {issuer : Issuer} {next : state}
    (hdrawn : generator current = .ok (issuer, next)) :
    Fails generator (attempts + 1) earlier current error ↔
      IsTaken earlier issuer ∧ Fails generator attempts earlier next error := by
  constructor
  · intro h
    cases h with
    | exhausted hyields htaken hused =>
      cases hyields with
      | nil => cases hused
      | cons hfirst hothers =>
        obtain ⟨rfl, rfl⟩ := Prod.mk.inj (Except.ok.inj (hdrawn.symm.trans hfirst))
        obtain ⟨hissuer, hrest⟩ := List.forall_mem_cons.mp htaken
        exact ⟨hissuer, .exhausted hothers hrest (Nat.succ.inj hused)⟩
    | broken hyields htaken hunused hfailed =>
      cases hyields with
      | nil => cases hdrawn.symm.trans hfailed
      | cons hfirst hothers =>
        obtain ⟨rfl, rfl⟩ := Prod.mk.inj (Except.ok.inj (hdrawn.symm.trans hfirst))
        obtain ⟨hissuer, hrest⟩ := List.forall_mem_cons.mp htaken
        exact ⟨hissuer, .broken hothers hrest (Nat.lt_of_succ_lt_succ hunused) hfailed⟩
  · rintro ⟨hissuer, h⟩
    cases h with
    | exhausted hyields htaken hused =>
      exact .exhausted (.cons hdrawn hyields) (List.forall_mem_cons.mpr ⟨hissuer, htaken⟩)
        (congrArg Nat.succ hused)
    | broken hyields htaken hunused hfailed =>
      exact .broken (.cons hdrawn hyields) (List.forall_mem_cons.mpr ⟨hissuer, htaken⟩)
        (Nat.succ_lt_succ hunused) hfailed

end Fails

namespace Allots

-- A key that is kept is not taken before, and it is taken from then on.
theorem nodup_ids (h : Allots generator attempts earlier current allotments later)
    (hearlier : (earlier.map (·.issuer.truncatedTokenKeyId)).Nodup) :
    ((earlier ++ allotments).map (·.issuer.truncatedTokenKeyId)).Nodup := by
  induction h with
  | nil => rwa [List.append_nil]
  | @cons earlier rest _ _ _ allotment hfair _ _ ih =>
    rw [List.append_cons]
    refine ih ?_
    rw [List.map_append, List.map_singleton, ← List.concat_eq_append, List.nodup_concat]
    refine ⟨fun hmem => hfair.free ?_, hearlier⟩
    obtain ⟨other, hother, hid⟩ := List.mem_map.mp hmem
    exact ⟨other, hother, hid⟩

theorem length_le (h : Allots generator attempts [] current allotments later) :
    allotments.length ≤ 256 := by
  have hlength := length_le_of_nodup_ids (h.nodup_ids List.nodup_nil)
  rwa [List.length_map] at hlength

end Allots

variable [DecidableEq tier] {registry after : TieredIssuers tier} {next : tier} {tiers : List tier}

-- The tiers that have nothing yet, in the order in which they come first.
def unserved (served tiers : List tier) : List tier :=
  (tiers.filter fun next => next ∉ served).eraseDups

variable {served : List tier}

theorem unserved_nil (tiers : List tier) : unserved [] tiers = tiers.eraseDups := by
  simp [unserved]

theorem unserved_cons_of_mem (h : next ∈ served) :
    unserved served (next :: tiers) = unserved served tiers := by
  rw [unserved, List.filter_cons_of_neg (by simpa using h)]
  rfl

theorem unserved_cons_of_not_mem (h : next ∉ served) :
    unserved served (next :: tiers) = next :: unserved (served ++ [next]) tiers := by
  have hfilter (other : tier) :
      (!other == next && decide (other ∉ served)) = decide (other ∉ served ++ [next]) := by
    rw [Bool.eq_iff_iff]
    simp [and_comm]
  rw [unserved, List.filter_cons_of_pos (by simpa using h), List.eraseDups_cons, List.filter_filter,
    unserved, List.filter_congr fun other _ => hfilter other]

-- The registry holds what has been allotted.
structure Holds (registry : TieredIssuers tier) (allotments : List (Allotment tier)) : Prop where
  issuer?_eq_some_iff : ∀ next issuer, registry.issuer? next = some issuer ↔
    ∃ allotment ∈ allotments, allotment.holder = next ∧ allotment.issuer = issuer
  inverse : registry.Inverse

namespace Holds

theorem empty : (empty : TieredIssuers tier).Holds [] :=
  ⟨fun next issuer => by simp [TieredIssuers.empty, issuer?], Inverse.empty⟩

variable (h : registry.Holds earlier)

include h

theorem add?_eq_none_iff (next : tier) (issuer : Issuer) :
    registry.add? next issuer = none ↔ IsTaken earlier issuer := by
  rw [TieredIssuers.add?_eq_none_iff, Ne, h.inverse.tierFor?_eq_none_iff]
  simp only [h.issuer?_eq_some_iff, IsTaken]
  constructor
  · intro hsome
    by_contra hnone
    refine hsome ?_
    rintro holder held ⟨other, hother, -, rfl⟩ hid
    exact hnone ⟨other, hother, hid⟩
  · rintro ⟨other, hother, hid⟩ hfree
    exact hfree other.holder other.issuer ⟨other, hother, rfl, rfl⟩ hid

theorem contains_iff (next : tier) :
    registry.issuers.contains next = true ↔ next ∈ earlier.map Allotment.holder := by
  rw [Table.contains, Option.isSome_iff_exists, List.mem_map]
  constructor
  · rintro ⟨issuer, hissuer⟩
    obtain ⟨allotment, hallotment, hholder, -⟩ := (h.issuer?_eq_some_iff next issuer).mp hissuer
    exact ⟨allotment, hallotment, hholder⟩
  · rintro ⟨allotment, hallotment, hholder⟩
    exact ⟨_, (h.issuer?_eq_some_iff next _).mpr ⟨allotment, hallotment, hholder, rfl⟩⟩

theorem concat {allotment : Allotment tier}
    (hnew : allotment.holder ∉ earlier.map Allotment.holder)
    (hadd : registry.add? allotment.holder allotment.issuer = some after) :
    after.Holds (earlier ++ [allotment]) := by
  have hadds := adds_of_add? hadd
  have habsent : registry.issuer? allotment.holder = none :=
    (registry.issuers.contains_eq_false_iff _).mp
      (Bool.eq_false_iff.mpr fun hheld => hnew ((h.contains_iff _).mp hheld))
  refine ⟨fun next issuer => ?_, h.inverse.adds habsent hadds⟩
  rw [hadds.issuer?]
  simp only [List.mem_append, List.mem_singleton, or_and_right, exists_or, exists_eq_left]
  by_cases hnext : next = allotment.holder
  · subst hnext
    have hearlier : ¬∃ other ∈ earlier, other.holder = allotment.holder ∧
        other.issuer = issuer := by
      rintro ⟨other, hother, hholder, -⟩
      exact hnew (List.mem_map.mpr ⟨other, hother, hholder⟩)
    simp [hearlier]
  · rw [if_neg hnext, h.issuer?_eq_some_iff]
    simp [Ne.symm hnext]

-- The search for a key of one tier succeeds with the allotment that is fair to it.
theorem generateFor_eq_ok_iff {next : tier} :
    generateFor generator registry next attempts current = .ok (after, later) ↔
      ∃ refused issuer, (⟨next, refused, issuer⟩ : Allotment tier).IsFair attempts earlier ∧
        Yields generator current (refused ++ [issuer]) later ∧
        registry.add? next issuer = some after := by
  rw [TieredIssuers.generateFor_eq_ok_iff]
  simp only [h.add?_eq_none_iff]
  constructor
  · rintro ⟨refused, issuer, hlt, htaken, hyields, hadd⟩
    have hfree : ¬IsTaken earlier issuer := by
      rw [← h.add?_eq_none_iff next, hadd]
      exact Option.some_ne_none after
    exact ⟨refused, issuer, ⟨hlt, htaken, hfree⟩, hyields, hadd⟩
  · rintro ⟨refused, issuer, hfair, hyields, hadd⟩
    exact ⟨refused, issuer, hfair.refused_lt, hfair.taken, hyields, hadd⟩

-- The two directions of one step, with what the registry holds after it.
theorem exists_allotment_of_generateFor (hserved : next ∉ earlier.map Allotment.holder)
    (hgenerate : generateFor generator registry next attempts current = .ok (after, later)) :
    ∃ allotment : Allotment tier, allotment.holder = next ∧ allotment.IsFair attempts earlier ∧
      Yields generator current allotment.drawn later ∧ after.Holds (earlier ++ [allotment]) := by
  obtain ⟨refused, issuer, hfair, hyields, hadd⟩ := h.generateFor_eq_ok_iff.mp hgenerate
  exact ⟨⟨next, refused, issuer⟩, rfl, hfair, hyields, h.concat hserved hadd⟩

theorem exists_generateFor_of_isFair {allotment : Allotment tier}
    (hserved : allotment.holder ∉ earlier.map Allotment.holder)
    (hfair : allotment.IsFair attempts earlier)
    (hyields : Yields generator current allotment.drawn later) :
    ∃ after, generateFor generator registry allotment.holder attempts current =
      .ok (after, later) ∧ after.Holds (earlier ++ [allotment]) := by
  obtain ⟨after, hadd⟩ := Option.ne_none_iff_exists'.mp
    (mt (h.add?_eq_none_iff allotment.holder allotment.issuer).mp hfair.free)
  exact ⟨after, h.generateFor_eq_ok_iff.mpr ⟨_, _, hfair, hyields, hadd⟩, h.concat hserved hadd⟩

theorem generateFor_eq_error_iff {next : tier} :
    generateFor generator registry next attempts current = .error error ↔
      Fails generator attempts earlier current error := by
  induction attempts generalizing current with
  | zero =>
    rw [Fails.zero_iff, generateFor, Except.error.injEq, eq_comm]
  | succ attempts ih =>
    rw [generateFor, bind_eq_error_iff]
    cases hdrawn : generator current with
    | error failure => simp [Fails.succ_iff_of_error hdrawn, eq_comm]
    | ok drawn =>
      obtain ⟨issuer, drawn⟩ := drawn
      rw [Fails.succ_iff hdrawn, ← ih, ← h.add?_eq_none_iff next issuer]
      cases hadd : registry.add? next issuer with
      | none => simp [hadd]
      | some added => simp [hadd, pure, Except.pure]

theorem exists_allots_of_generateAll
    (hgenerate : generateAll generator attempts tiers registry current = .ok (after, later)) :
    ∃ allotments,
      allotments.map Allotment.holder = unserved (earlier.map Allotment.holder) tiers ∧
      Allots generator attempts earlier current allotments later ∧
      after.Holds (earlier ++ allotments) := by
  induction tiers generalizing registry earlier current with
  | nil =>
    obtain ⟨rfl, rfl⟩ := Prod.mk.inj (Except.ok.inj hgenerate)
    exact ⟨[], rfl, .nil _ _, by rwa [List.append_nil]⟩
  | cons next rest ih =>
    rw [generateAll] at hgenerate
    by_cases hserved : next ∈ earlier.map Allotment.holder
    · rw [if_pos ((h.contains_iff next).mpr hserved)] at hgenerate
      rw [unserved_cons_of_mem hserved]
      exact ih h hgenerate
    · rw [if_neg (mt (h.contains_iff next).mp hserved), bind_eq_ok_iff] at hgenerate
      obtain ⟨⟨added, drawn⟩, hfirst, hrest⟩ := hgenerate
      obtain ⟨allotment, rfl, hfair, hyields, hadded⟩ :=
        h.exists_allotment_of_generateFor hserved hfirst
      obtain ⟨others, hholders, hothers, hafter⟩ := ih hadded hrest
      rw [List.map_append] at hholders
      rw [List.append_assoc] at hafter
      refine ⟨allotment :: others, ?_, .cons hfair hyields hothers, hafter⟩
      rw [unserved_cons_of_not_mem hserved, List.map_cons, hholders]
      rfl

theorem exists_generateAll_of_allots
    (hholders : allotments.map Allotment.holder = unserved (earlier.map Allotment.holder) tiers)
    (hallots : Allots generator attempts earlier current allotments later) :
    ∃ after, generateAll generator attempts tiers registry current = .ok (after, later) ∧
      after.Holds (earlier ++ allotments) := by
  induction tiers generalizing registry earlier current allotments with
  | nil =>
    obtain rfl := List.map_eq_nil_iff.mp hholders
    cases hallots
    exact ⟨registry, rfl, by rwa [List.append_nil]⟩
  | cons next rest ih =>
    rw [generateAll]
    by_cases hserved : next ∈ earlier.map Allotment.holder
    · rw [if_pos ((h.contains_iff next).mpr hserved)]
      rw [unserved_cons_of_mem hserved] at hholders
      exact ih h hholders hallots
    · rw [if_neg (mt (h.contains_iff next).mp hserved)]
      rw [unserved_cons_of_not_mem hserved] at hholders
      cases hallots with
      | nil => cases hholders
      | cons hfair hyields hothers =>
        obtain ⟨rfl, hholders⟩ := List.cons.inj hholders
        obtain ⟨added, hfirst, hadded⟩ := h.exists_generateFor_of_isFair hserved hfair hyields
        obtain ⟨after, hrest, hafter⟩ := ih hadded (by rwa [List.map_append]) hothers
        rw [List.append_assoc] at hafter
        exact ⟨after, bind_eq_ok_iff.mpr ⟨_, hfirst, hrest⟩, hafter⟩

theorem generateAll_eq_error_iff :
    generateAll generator attempts tiers registry current = .error error ↔
      ∃ allotments last waiting stuck,
        unserved (earlier.map Allotment.holder) tiers =
          allotments.map Allotment.holder ++ last :: waiting ∧
        Allots generator attempts earlier current allotments stuck ∧
        Fails generator attempts (earlier ++ allotments) stuck error := by
  induction tiers generalizing registry earlier current with
  | nil => simp [generateAll, unserved]
  | cons next rest ih =>
    rw [generateAll]
    by_cases hserved : next ∈ earlier.map Allotment.holder
    · rw [if_pos ((h.contains_iff next).mpr hserved), unserved_cons_of_mem hserved]
      exact ih h
    · rw [if_neg (mt (h.contains_iff next).mp hserved), bind_eq_error_iff,
        unserved_cons_of_not_mem hserved, h.generateFor_eq_error_iff]
      constructor
      · rintro (hfails | ⟨⟨added, drawn⟩, hfirst, hrest⟩)
        · exact ⟨[], next, _, current, rfl, .nil _ _, by rwa [List.append_nil]⟩
        · obtain ⟨allotment, rfl, hfair, hyields, hadded⟩ :=
            h.exists_allotment_of_generateFor hserved hfirst
          obtain ⟨others, last, waiting, stuck, hholders, hothers, hfails⟩ :=
            (ih hadded).mp hrest
          rw [List.map_append] at hholders
          rw [List.append_assoc] at hfails
          exact ⟨allotment :: others, last, waiting, stuck,
            congrArg (allotment.holder :: ·) hholders, .cons hfair hyields hothers, hfails⟩
      · rintro ⟨allotments, last, waiting, stuck, hholders, hallots, hfails⟩
        cases hallots with
        | nil => exact .inl (by rwa [List.append_nil] at hfails)
        | cons hfair hyields hothers =>
          obtain ⟨rfl, hholders⟩ := List.cons.inj hholders
          obtain ⟨added, hfirst, hadded⟩ := h.exists_generateFor_of_isFair hserved hfair hyields
          rw [List.append_cons] at hfails
          exact .inr ⟨_, hfirst, (ih hadded).mpr
            ⟨_, last, waiting, stuck, by rwa [List.map_append], hothers, hfails⟩⟩

end Holds

-- A generator that goes through a sequence of keys. Its state is the number of keys drawn.
def ofSequence (keys : Nat → Except ProtocolError Issuer) (position : Nat) :
    Except ProtocolError (Issuer × Nat) :=
  (keys position).map fun issuer => (issuer, position + 1)

section Sequence

variable {keys : Nat → Except ProtocolError Issuer} {position last : Nat}

omit [DecidableEq tier] in
theorem Yields.position_eq {drawn : List Issuer}
    (h : Yields (ofSequence keys) position drawn last) : last = position + drawn.length := by
  induction h with
  | nil => rfl
  | @cons current next last issuer rest hdrawn _ ih =>
    cases hkey : keys current with
    | error failure => simp [ofSequence, hkey, Except.map] at hdrawn
    | ok key =>
      obtain ⟨-, rfl⟩ : key = issuer ∧ current + 1 = next := by
        simpa [ofSequence, hkey, Except.map] using hdrawn
      rw [ih, List.length_cons, Nat.add_assoc, Nat.add_comm 1]

omit [DecidableEq tier] in
theorem Allots.position_le
    (h : Allots (ofSequence keys) attempts earlier position allotments last) :
    last ≤ position + attempts * allotments.length := by
  induction h with
  | nil => simp
  | @cons earlier rest current next last allotment hfair hyields _ ih =>
    have hnext := hyields.position_eq
    have hattempts : allotment.drawn.length ≤ attempts := by
      rw [Allotment.drawn, List.length_append, List.length_singleton]
      exact hfair.refused_lt
    rw [List.length_cons, Nat.mul_succ]
    omega

end Sequence

theorem exists_allots_of_generate
    (hgenerate : generate generator attempts tiers current = .ok (registry, later)) :
    ∃ allotments, allotments.map Allotment.holder = tiers.eraseDups ∧
      Allots generator attempts [] current allotments later ∧ registry.Holds allotments := by
  rw [← unserved_nil]
  exact Holds.empty.exists_allots_of_generateAll hgenerate

theorem exists_generate_of_allots (hholders : allotments.map Allotment.holder = tiers.eraseDups)
    (hallots : Allots generator attempts [] current allotments later) :
    ∃ registry, generate generator attempts tiers current = .ok (registry, later) ∧
      registry.Holds allotments := by
  rw [← unserved_nil] at hholders
  exact Holds.empty.exists_generateAll_of_allots hholders hallots

theorem generate_eq_error_iff :
    generate generator attempts tiers current = .error error ↔
      ∃ allotments last waiting stuck,
        tiers.eraseDups = allotments.map Allotment.holder ++ last :: waiting ∧
        Allots generator attempts [] current allotments stuck ∧
        Fails generator attempts allotments stuck error := by
  rw [← unserved_nil]
  exact Holds.empty.generateAll_eq_error_iff

-- The tiers are served one after another, each with the first key whose truncated ID no earlier
-- tier has, and generation fails exactly if there is none among as many keys as may be drawn for a
-- tier.
theorem generate_exact (generator : state → Except ProtocolError (Issuer × state))
    (attempts : Nat) (tiers : List tier) (current : state) :
    (∀ registry later, generate generator attempts tiers current = .ok (registry, later) →
      ∃ allotments, allotments.map Allotment.holder = tiers.eraseDups ∧
        Allots generator attempts [] current allotments later ∧ registry.Holds allotments) ∧
    (∀ allotments later, allotments.map Allotment.holder = tiers.eraseDups →
      Allots generator attempts [] current allotments later →
      ∃ registry, generate generator attempts tiers current = .ok (registry, later) ∧
        registry.Holds allotments) ∧
    (∀ error, generate generator attempts tiers current = .error error ↔
      ∃ allotments last waiting stuck,
        tiers.eraseDups = allotments.map Allotment.holder ++ last :: waiting ∧
        Allots generator attempts [] current allotments stuck ∧
        Fails generator attempts allotments stuck error) ∧
    ((∀ current, ∃ drawn, generator current = .ok drawn) →
      ∀ error, generate generator attempts tiers current = .error error →
        error = .truncatedTokenKeyIdCollision) ∧
    (∀ (keys : Nat → Except ProtocolError Issuer) registry count,
      generate (ofSequence keys) attempts tiers 0 = .ok (registry, count) →
        count ≤ attempts * tiers.eraseDups.length) ∧
    (256 < tiers.eraseDups.length →
      ∃ error, generate generator attempts tiers current = .error error) := by
  refine ⟨fun registry later => exists_allots_of_generate,
    fun allotments later => exists_generate_of_allots, fun error => generate_eq_error_iff,
    fun hyields error herror => ?_, fun keys registry count hgenerate => ?_, fun hmany => ?_⟩
  · obtain ⟨_, _, _, _, -, -, hfails⟩ := generate_eq_error_iff.mp herror
    cases hfails with
    | exhausted => rfl
    | @broken _ last _ _ _ _ hfailed =>
      obtain ⟨drawn, hdrawn⟩ := hyields last
      cases hfailed.symm.trans hdrawn
  · obtain ⟨allotments, hholders, hallots, -⟩ := exists_allots_of_generate hgenerate
    have hcount := hallots.position_le
    rwa [Nat.zero_add, ← List.length_map Allotment.holder, hholders] at hcount
  · cases hgenerate : generate generator attempts tiers current with
    | error error => exact ⟨error, rfl⟩
    | ok result =>
      obtain ⟨allotments, hholders, hallots, -⟩ := exists_allots_of_generate hgenerate
      have hlength := hallots.length_le
      rw [← List.length_map Allotment.holder, hholders] at hlength
      omega

-- A sequence that starts with one key twice. The second tier needs two attempts.
theorem smooth_generate_exact :
    let keys (position : Nat) : Except ProtocolError Issuer :=
      .ok (if position < 2 then smoothIssuer else cubicIssuer)
    (∃ registry, generate (ofSequence keys) 2 [true, true, false] 0 = .ok (registry, 3) ∧
      registry.issuer? true = some smoothIssuer ∧ registry.issuer? false = some cubicIssuer) ∧
    generate (ofSequence keys) 1 [true, true, false] 0 = .error .truncatedTokenKeyIdCollision ∧
    ∃ error, generate (ofSequence keys) 100 (List.range 257) 0 = .error error := by
  intro keys
  let first : Allotment Bool := ⟨true, [], smoothIssuer⟩
  let second : Allotment Bool := ⟨false, [smoothIssuer], cubicIssuer⟩
  have hdrawn (position : Nat) : ofSequence keys position =
      .ok (if position < 2 then smoothIssuer else cubicIssuer, position + 1) := rfl
  have hfirst {attempts : Nat} : first.IsFair (attempts + 1) [] :=
    ⟨Nat.succ_pos _, List.forall_mem_nil _, by simp [IsTaken]⟩
  have hyields : Yields (ofSequence keys) 0 first.drawn 1 := .cons (hdrawn 0) (.nil 1)
  have htaken : ∀ key ∈ [smoothIssuer], IsTaken [first] key :=
    List.forall_mem_singleton.mpr ⟨first, List.mem_singleton_self _, rfl⟩
  have hrefused : Yields (ofSequence keys) 1 [smoothIssuer] 2 := .cons (hdrawn 1) (.nil 2)
  have hsecond : second.IsFair 2 [first] := by
    refine ⟨Nat.one_lt_two, htaken, ?_⟩
    rintro ⟨other, hother, hid⟩
    obtain rfl := List.mem_singleton.mp hother
    exact cubicIssuer_ne_smoothIssuer hid.symm
  refine ⟨?_, ?_, ?_⟩
  · obtain ⟨registry, hregistry, hholds⟩ := (generate_exact (ofSequence keys) 2
      [true, true, false] 0).2.1 [first, second] 3 rfl (.cons hfirst hyields (.cons hsecond
        (.cons (hdrawn 1) (.cons (hdrawn 2) (.nil 3))) (.nil _ _)))
    refine ⟨registry, hregistry, ?_, ?_⟩
    · exact (hholds.issuer?_eq_some_iff _ _).mpr ⟨first, by simp, rfl, rfl⟩
    · exact (hholds.issuer?_eq_some_iff _ _).mpr ⟨second, by simp, rfl, rfl⟩
  · exact ((generate_exact (ofSequence keys) 1 [true, true, false] 0).2.2.1 _).mpr
      ⟨[first], false, [], 1, rfl, .cons hfirst hyields (.nil _ _),
        .exhausted hrefused htaken rfl⟩
  · exact (generate_exact (ofSequence keys) 100 (List.range 257) 0).2.2.2.2.2 (by decide +kernel)

end BlindToken.TieredIssuers
