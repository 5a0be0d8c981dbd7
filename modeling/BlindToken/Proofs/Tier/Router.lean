import Mathlib.Data.List.Nodup
import BlindToken.Proofs.Redemption.Verify
import BlindToken.Proofs.Table
import BlindToken.Tier.Router

namespace BlindToken

theorem Verifier.stored_verify {name : Type} [DecidableEq name] (verifier : Verifier name)
    {stores : NonceStores name} {store : name} {nonce : Nonce}
    (hstored : stores.mark store nonce = some .stored) (token : Token) :
    (verifier.verify stores token).2.mark store nonce = some .stored := by
  rw [verifier.mark_verify stores token, hstored, ite_self]

namespace Router

variable {tier name : Type}

-- The truncated ID of the key that a registered verifier accepts tokens of.
def keyId (entry : tier × Verifier name) : TruncatedTokenKeyId :=
  entry.2.publicKey.truncatedTokenKeyId

-- Each registered verifier has a route of its own, and there are no other routes.
def Serves (router : Router tier name) (registered : List (tier × Verifier name)) : Prop :=
  router.routes.entries.Perm (registered.map fun entry => (keyId entry, entry))

theorem keyId_eq_of_expects {entry : tier × Verifier name} {token : Token}
    (hexpects : entry.2.Expects token) : keyId entry = token.tokenKeyId.truncate :=
  congrArg TokenKeyId.truncate hexpects.2.1.symm

namespace Serves

variable {router : Router tier name} {registered order : List (tier × Verifier name)}
  (h : router.Serves registered)

include h

theorem perm (horder : order.Perm registered) : router.Serves order :=
  List.Perm.trans h (horder.map _).symm

theorem nodup : (registered.map keyId).Nodup := by
  have hkeys := (List.Perm.map Prod.fst h).nodup router.routes.nodup
  rwa [List.map_map] at hkeys

theorem size_routes : router.routes.size = registered.length := by
  rw [Table.size, List.Perm.length_eq h, List.length_map]

theorem route?_eq_some_iff (id : TruncatedTokenKeyId) (entry : tier × Verifier name) :
    router.route? id = some entry ↔ entry ∈ registered ∧ keyId entry = id := by
  rw [route?, Table.get?_eq_some_iff, List.Perm.mem_iff h, List.mem_map]
  constructor
  · rintro ⟨entry, hentry, hsame⟩
    obtain ⟨rfl, rfl⟩ := Prod.mk.inj hsame
    exact ⟨hentry, rfl⟩
  · rintro ⟨hentry, rfl⟩
    exact ⟨entry, hentry, rfl⟩

theorem index_eq {first second : Nat} (hfirst : first < registered.length)
    (hsecond : second < registered.length)
    (hid : keyId registered[first] = keyId registered[second]) : first = second := by
  have hleft : first < (registered.map keyId).length := by simpa using hfirst
  have hright : second < (registered.map keyId).length := by simpa using hsecond
  have hsame : (registered.map keyId)[first] = (registered.map keyId)[second] := by simpa using hid
  exact (List.Nodup.getElem_inj_iff h.nodup).mp hsame

end Serves

theorem serves_of_insertAll {routes after : Table TruncatedTokenKeyId (tier × Verifier name)}
    {entries : List (tier × Verifier name)} (hinsert : insertAll routes entries = .ok after) :
    after.entries.Perm (entries.map (fun entry => (keyId entry, entry)) ++ routes.entries) := by
  induction entries generalizing routes with
  | nil =>
    obtain rfl := Except.ok.inj hinsert
    exact List.Perm.refl _
  | cons entry rest ih =>
    obtain ⟨next, verifier⟩ := entry
    rw [insertAll] at hinsert
    cases htaken : routes.contains verifier.publicKey.truncatedTokenKeyId with
    | true => simp [htaken] at hinsert
    | false =>
      have hnew : verifier.publicKey.truncatedTokenKeyId ∉ routes.entries.map Prod.fst := by
        rw [Table.mem_keys_iff, (routes.contains_eq_false_iff _).mp htaken]
        simp
      have hperm := ih (by simpa [htaken] using hinsert)
      rw [routes.entries_insert _ hnew] at hperm
      exact hperm.trans List.perm_middle

theorem serves_of_ofList {router : Router tier name} {entries : List (tier × Verifier name)}
    (hlist : ofList entries = .ok router) : router.Serves entries := by
  unfold ofList at hlist
  cases hinsert : insertAll Table.empty entries with
  | error error => simp [hinsert] at hlist
  | ok routes =>
    obtain rfl : ⟨routes⟩ = router := by simpa [hinsert] using hlist
    have hperm := serves_of_insertAll hinsert
    rwa [Table.empty, List.append_nil] at hperm

variable [DecidableEq name] {router : Router tier name}
  {registered order : List (tier × Verifier name)} {token : Token} {stores : NonceStores name}

-- The verifiers one after another, up to the first that accepts the token.
def tryInTurn : List (tier × Verifier name) → NonceStores name → Token →
    Option tier × NonceStores name
  | [], stores, _ => (none, stores)
  | (next, verifier) :: rest, stores, token =>
    let (valid, stores) := verifier.verify stores token
    if valid then (some next, stores) else tryInTurn rest stores token

-- Verifiers of other keys do not touch the stores.
theorem tryInTurn_append {others : List (tier × Verifier name)}
    (hothers : ∀ entry ∈ others, ¬entry.2.Expects token) (rest : List (tier × Verifier name))
    (stores : NonceStores name) :
    tryInTurn (others ++ rest) stores token = tryInTurn rest stores token := by
  induction others with
  | nil => rfl
  | cons entry others ih =>
    obtain ⟨hentry, hrest⟩ := List.forall_mem_cons.mp hothers
    simp [tryInTurn, Verifier.verify_of_not_expects hentry, ih hrest]

theorem Serves.tryInTurn_eq (h : router.Serves order) (stores : NonceStores name) (token : Token) :
    tryInTurn order stores token = router.verify stores token := by
  cases hroute : router.route? token.tokenKeyId.truncate with
  | none =>
    have hothers : ∀ entry ∈ order, ¬entry.2.Expects token := by
      intro entry hentry hexpects
      have hsome := (h.route?_eq_some_iff _ entry).mpr ⟨hentry, keyId_eq_of_expects hexpects⟩
      simp [hroute] at hsome
    have htry := tryInTurn_append hothers [] stores
    simpa [verify, hroute, tryInTurn] using htry
  | some entry =>
    obtain ⟨hentry, hid⟩ := (h.route?_eq_some_iff _ entry).mp hroute
    obtain ⟨front, back, rfl⟩ := List.append_of_mem hentry
    -- all others have another truncated ID, since the IDs are different
    have hnodup := h.nodup
    rw [List.map_append, List.map_cons, List.nodup_middle, List.nodup_cons, ← List.map_append]
      at hnodup
    have hothers : ∀ other ∈ front ++ back, ¬other.2.Expects token := by
      intro other hother hexpects
      have hsame : keyId other = keyId entry := (keyId_eq_of_expects hexpects).trans hid.symm
      exact hnodup.1 (List.mem_map.mpr ⟨other, hother, hsame⟩)
    obtain ⟨hfront, hback⟩ := List.forall_mem_append.mp hothers
    obtain ⟨next, verifier⟩ := entry
    rw [tryInTurn_append hfront, tryInTurn]
    simp only [verify, hroute]
    cases hvalid : (verifier.verify stores token).1 with
    | true => simp
    | false =>
      have htry := tryInTurn_append hback [] (verifier.verify stores token).2
      simpa [tryInTurn] using htry

theorem Serves.verify_eq_some_iff (h : router.Serves registered) (stores : NonceStores name)
    (token : Token) (accepted : tier) :
    (router.verify stores token).1 = some accepted ↔
      ∃ verifier, (accepted, verifier) ∈ registered ∧
        (verifier.verify stores token).1 = true := by
  constructor
  · intro haccepted
    cases hroute : router.route? token.tokenKeyId.truncate with
    | none => simp [verify, hroute] at haccepted
    | some entry =>
      obtain ⟨next, verifier⟩ := entry
      obtain ⟨hvalid, rfl⟩ : (verifier.verify stores token).1 = true ∧ next = accepted := by
        simpa [verify, hroute] using haccepted
      exact ⟨verifier, ((h.route?_eq_some_iff _ _).mp hroute).1, hvalid⟩
  · rintro ⟨verifier, hentry, hvalid⟩
    have hid : keyId (accepted, verifier) = token.tokenKeyId.truncate :=
      keyId_eq_of_expects (Verifier.expects_of_verify hvalid)
    have hroute := (h.route?_eq_some_iff _ _).mpr ⟨hentry, hid⟩
    simp [verify, hroute, hvalid]

theorem Serves.verify_unique (h : router.Serves registered) {first second : Nat}
    (hfirst : first < registered.length) (hsecond : second < registered.length)
    (haccepted : (registered[first].2.verify stores token).1 = true)
    (hagain : (registered[second].2.verify stores token).1 = true) : first = second := by
  have hleft := keyId_eq_of_expects (Verifier.expects_of_verify haccepted)
  have hright := keyId_eq_of_expects (Verifier.expects_of_verify hagain)
  exact h.index_eq hfirst hsecond (hleft.trans hright.symm)

-- The tier of a token that is accepted does not depend on the stores.
theorem Serves.tier_eq (h : router.Serves registered) {later : NonceStores name}
    {accepted other : tier} (haccepted : (router.verify stores token).1 = some accepted)
    (hother : (router.verify later token).1 = some other) : accepted = other := by
  obtain ⟨first, hfirst, hvalid⟩ := (h.verify_eq_some_iff stores token accepted).mp haccepted
  obtain ⟨second, hsecond, hagain⟩ := (h.verify_eq_some_iff later token other).mp hother
  have hleft : keyId (accepted, first) = token.tokenKeyId.truncate :=
    keyId_eq_of_expects (Verifier.expects_of_verify hvalid)
  have hright : keyId (other, second) = token.tokenKeyId.truncate :=
    keyId_eq_of_expects (Verifier.expects_of_verify hagain)
  have hroute := (h.route?_eq_some_iff _ _).mpr ⟨hfirst, hleft⟩
  rw [(h.route?_eq_some_iff _ _).mpr ⟨hsecond, hright⟩] at hroute
  exact (Prod.mk.inj (Option.some.inj hroute)).1.symm

-- Where the token goes, its nonce is stored.
def Spent (router : Router tier name) (stores : NonceStores name) (token : Token) : Prop :=
  ∀ next verifier, router.route? token.tokenKeyId.truncate = some (next, verifier) →
    stores.mark verifier.store token.nonce = some .stored

theorem spent_of_verify {accepted : tier}
    (haccepted : (router.verify stores token).1 = some accepted) :
    router.Spent (router.verify stores token).2 token := by
  intro next verifier hroute
  have hvalid : (verifier.verify stores token).1 = true := by
    simp only [verify, hroute] at haccepted
    by_contra hrejected
    simp [hrejected] at haccepted
  simpa only [verify, hroute] using Verifier.mark_of_verify hvalid

namespace Spent

variable (h : router.Spent stores token)

include h

theorem verify_eq_none : (router.verify stores token).1 = none := by
  cases hroute : router.route? token.tokenKeyId.truncate with
  | none => simp [Router.verify, hroute]
  | some entry =>
    obtain ⟨next, verifier⟩ := entry
    have hmark := h next verifier hroute
    have hrejected : (verifier.verify stores token).1 ≠ true := by
      intro hvalid
      obtain ⟨-, habsent⟩ := (verifier.verify_eq_true_iff stores token).mp hvalid
      simp [hmark] at habsent
    simp [Router.verify, hroute, hrejected]

theorem verify (other : Token) : router.Spent (router.verify stores other).2 token := by
  intro next verifier hroute
  have hstored := h next verifier hroute
  cases hother : router.route? other.tokenKeyId.truncate with
  | none => simpa [Router.verify, hother] using hstored
  | some entry => simpa [Router.verify, hother] using entry.2.stored_verify hstored other

end Spent

-- What becomes of tokens that come in one after another.
def redeem (router : Router tier name) : NonceStores name → List Token → List (Option tier)
  | _, [] => []
  | stores, token :: rest =>
    let (accepted, stores) := router.verify stores token
    accepted :: router.redeem stores rest

theorem Spent.redeem_ne (h : router.Spent stores token) {tokens : List Token} {index : Nat}
    (htoken : tokens[index]? = some token) (accepted : tier) :
    (router.redeem stores tokens)[index]? ≠ some (some accepted) := by
  induction tokens generalizing stores index with
  | nil => simp at htoken
  | cons next rest ih =>
    cases index with
    | zero =>
      obtain rfl : next = token := by simpa using htoken
      simp [redeem, h.verify_eq_none]
    | succ index => exact ih (h.verify next) htoken

theorem redeem_lt {tokens : List Token} {first second : Nat} {accepted : tier}
    (htoken : tokens[first]? = some token) (hagain : tokens[second]? = some token)
    (haccepted : (router.redeem stores tokens)[first]? = some (some accepted))
    (hlt : first < second) (other : tier) :
    (router.redeem stores tokens)[second]? ≠ some (some other) := by
  induction tokens generalizing stores first second with
  | nil => simp at htoken
  | cons next rest ih =>
    obtain ⟨second, rfl⟩ := Nat.exists_eq_add_of_lt hlt
    cases first with
    | zero =>
      obtain rfl : next = token := by simpa using htoken
      have hspent := spent_of_verify (Option.some.inj haccepted)
      have hlater : rest[second]? = some next := by simpa using hagain
      simpa [redeem] using hspent.redeem_ne hlater other
    | succ first => exact ih htoken hagain haccepted (by omega)

theorem redeem_index_eq {tokens : List Token} {first second : Nat} {accepted other : tier}
    (htoken : tokens[first]? = some token) (hagain : tokens[second]? = some token)
    (haccepted : (router.redeem stores tokens)[first]? = some (some accepted))
    (hother : (router.redeem stores tokens)[second]? = some (some other)) : first = second := by
  rcases Nat.lt_trichotomy first second with hlt | heq | hgt
  · exact absurd hother (redeem_lt htoken hagain haccepted hlt other)
  · exact heq
  · exact absurd haccepted (redeem_lt hagain htoken hother hgt accepted)

end Router

end BlindToken
