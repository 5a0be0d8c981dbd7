import BlindToken.Proofs.Tier.Registry

namespace BlindToken.Router

variable {tier name : Type} [DecidableEq tier] [DecidableEq name]

-- How routers come about, with the verifiers that are registered with them.
inductive Built : Router tier name → List (tier × Verifier name) → Prop where
  | listed {entries : List (tier × Verifier name)} {router : Router tier name}
      (listed : ofList entries = .ok router) : Built router entries
  | issuers {registry : TieredIssuers tier} (built : registry.Built) (storeOf : tier → name) :
      Built (registry.verifiers storeOf) (registry.tierVerifiers storeOf)

theorem Built.serves {router : Router tier name} {registered : List (tier × Verifier name)}
    (h : Built router registered) : router.Serves registered := by
  cases h with
  | listed hlisted => exact serves_of_ofList hlisted
  | issuers hbuilt storeOf => exact hbuilt.inverse.serves storeOf

-- A router accepts a token exactly if one of its verifiers does, for the tier of that verifier, and
-- leaves the stores as trying the verifiers in any order would.
theorem verify_agrees (router : Router tier name) (registered : List (tier × Verifier name))
    (hbuilt : Built router registered) (stores : NonceStores name) (token : Token) :
    (∀ accepted, (router.verify stores token).1 = some accepted ↔
      ∃ verifier, (accepted, verifier) ∈ registered ∧ (verifier.verify stores token).1 = true) ∧
    (∀ first second (hfirst : first < registered.length) (hsecond : second < registered.length),
      (registered[first].2.verify stores token).1 = true →
      (registered[second].2.verify stores token).1 = true → first = second) ∧
    (∀ order, order.Perm registered → tryInTurn order stores token = router.verify stores token) ∧
    (∀ later accepted other, (router.verify stores token).1 = some accepted →
      (router.verify later token).1 = some other → accepted = other) ∧
    ∀ (tokens : List Token) (first second : Nat) (accepted other : tier),
      tokens[first]? = some token → tokens[second]? = some token →
      (router.redeem stores tokens)[first]? = some (some accepted) →
      (router.redeem stores tokens)[second]? = some (some other) → first = second := by
  have hserves := hbuilt.serves
  refine ⟨hserves.verify_eq_some_iff stores token, ?_, ?_, ?_, ?_⟩
  · intro first second hfirst hsecond haccepted hagain
    exact hserves.verify_unique hfirst hsecond haccepted hagain
  · intro order horder
    exact (hserves.perm horder).tryInTurn_eq stores token
  · intro later accepted other haccepted hother
    exact hserves.tier_eq haccepted hother
  · intro tokens first second accepted other htoken hagain haccepted hother
    exact redeem_index_eq htoken hagain haccepted hother

omit [DecidableEq name] in
theorem exists_ofList_of_ne {first second : Verifier name}
    (hids : second.publicKey.truncatedTokenKeyId ≠ first.publicKey.truncatedTokenKeyId) :
    ∃ router, ofList [(true, first), (false, second)] = .ok router := by
  simp [ofList, insertAll, Table.contains, Table.get?_insert, hids]

-- A token of one of two keys, with both verifiers at one store and the other one asked first.
theorem smooth_verify_agrees :
    let cubicVerifier : Verifier Unit := ⟨cubicIssuer.publicKey, (), none⟩
    ∃ router, ofList [(true, smoothVerifier), (false, cubicVerifier)] = .ok router ∧
      (router.verify .empty smoothToken).1 = some true ∧
      tryInTurn [(false, cubicVerifier), (true, smoothVerifier)] .empty smoothToken =
        router.verify .empty smoothToken := by
  intro cubicVerifier
  obtain ⟨router, hrouter⟩ : ∃ router,
      ofList [(true, smoothVerifier), (false, cubicVerifier)] = .ok router := by
    refine exists_ofList_of_ne ?_
    rw [smoothVerifier]
    exact cubicIssuer_ne_smoothIssuer
  obtain ⟨hsome, -, horder, -⟩ := verify_agrees router _ (.listed hrouter) .empty smoothToken
  have haccepted := (smoothVerifier.verify_eq_true_iff .empty smoothToken).mpr
    ⟨smoothToken_genuine, NonceStores.mark_empty _ _⟩
  refine ⟨router, hrouter, (hsome true).mpr ⟨smoothVerifier, by simp, haccepted⟩, ?_⟩
  exact horder _ (List.Perm.swap _ _ _)

end BlindToken.Router
