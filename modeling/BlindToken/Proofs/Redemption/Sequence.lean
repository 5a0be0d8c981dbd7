import BlindToken.Proofs.Redemption.Forgery

namespace BlindToken.Verifier

variable {name : Type} [DecidableEq name]

-- The answers, and the stores after the last token.
def redeem (verifier : Verifier name) :
    NonceStores name → List Token → List Bool × NonceStores name
  | stores, [] => ([], stores)
  | stores, token :: rest =>
    let (valid, stores) := verifier.verify stores token
    let (answers, stores) := verifier.redeem stores rest
    (valid :: answers, stores)

-- One of the tokens with the nonce was accepted.
def Redeemed (tokens : List Token) (answers : List Bool) (nonce : Nonce) : Prop :=
  ∃ entry ∈ tokens.zip answers, entry.2 = true ∧ nonce = entry.1.nonce

instance (tokens : List Token) (answers : List Bool) (nonce : Nonce) :
    Decidable (Redeemed tokens answers nonce) :=
  inferInstanceAs (Decidable (∃ entry ∈ tokens.zip answers, _))

theorem redeemed_cons {token : Token} {tokens : List Token} {valid : Bool} {answers : List Bool}
    {nonce : Nonce} : Redeemed (token :: tokens) (valid :: answers) nonce ↔
      valid = true ∧ nonce = token.nonce ∨ Redeemed tokens answers nonce := by
  simp [Redeemed]

section Redeem

variable (verifier : Verifier name) (stores : NonceStores name) (tokens : List Token)

theorem redeem_cons (token : Token) :
    verifier.redeem stores (token :: tokens) =
      ((verifier.verify stores token).1 ::
          (verifier.redeem (verifier.verify stores token).2 tokens).1,
        (verifier.redeem (verifier.verify stores token).2 tokens).2) := rfl

theorem length_redeem : (verifier.redeem stores tokens).1.length = tokens.length := by
  induction tokens generalizing stores with
  | nil => rfl
  | cons token rest ih => rw [redeem_cons, List.length_cons, ih, List.length_cons]

theorem mark_redeem (store : name) (nonce : Nonce) :
    (verifier.redeem stores tokens).2.mark store nonce =
      if store = verifier.store ∧ Redeemed tokens (verifier.redeem stores tokens).1 nonce then
        some .stored
      else stores.mark store nonce := by
  induction tokens generalizing stores with
  | nil => simp [redeem, Redeemed]
  | cons token rest ih =>
    simp only [redeem_cons, ih, mark_verify, redeemed_cons]
    by_cases hstore : store = verifier.store
    · generalize verifier.redeem (verifier.verify stores token).2 rest = later
      by_cases hlater : Redeemed rest later.1 nonce
      · simp [hstore, hlater]
      · simp [hstore, hlater]
    · simp [hstore]

-- An answer is true for a genuine token whose nonce is new, to the stores and among the tokens
-- accepted before.
theorem answer_iff (index : Nat) :
    (verifier.redeem stores tokens).1[index]? = some true ↔
      ∃ token, tokens[index]? = some token ∧ verifier.Genuine token ∧
        stores.mark verifier.store token.nonce = none ∧
        ¬Redeemed (tokens.take index) ((verifier.redeem stores tokens).1.take index)
          token.nonce := by
  induction tokens generalizing stores index with
  | nil => simp [redeem]
  | cons head rest ih =>
    rw [redeem_cons]
    cases index with
    | zero => simp [verify_eq_true_iff, Redeemed]
    | succ index =>
      simp only [List.getElem?_cons_succ, ih, List.take_succ_cons, redeemed_cons, mark_verify,
        true_and]
      refine exists_congr fun token => and_congr_right fun _ => and_congr_right fun _ => ?_
      -- the head has either stored the nonce or left it alone
      split
      · rename_i hhead
        simp [hhead.1, hhead.2]
      · rename_i hhead
        simp [hhead]

-- The stores before and after a token that is rejected know the same.
theorem mark_take_succ {index : Nat}
    (h : (verifier.redeem stores tokens).1[index]? = some false) (store : name) (nonce : Nonce) :
    (verifier.redeem stores (tokens.take (index + 1))).2.mark store nonce =
      (verifier.redeem stores (tokens.take index)).2.mark store nonce := by
  induction tokens generalizing stores index with
  | nil => simp [redeem] at h
  | cons token rest ih =>
    rw [redeem_cons] at h
    cases index with
    | zero =>
      have hrejected : (verifier.verify stores token).1 = false := Option.some.inj h
      simp [redeem, mark_verify, hrejected]
    | succ index => exact ih _ h

end Redeem

-- An answer is told by the token, by the stores before the first token and by the answers so far,
-- and the stores learn the nonces of the tokens that are accepted and nothing else.
theorem redeem_exact (verifier : Verifier name) (stores : NonceStores name) (tokens : List Token) :
    let answers := (verifier.redeem stores tokens).1
    let after := (verifier.redeem stores tokens).2
    answers.length = tokens.length ∧
    (∀ index token, tokens[index]? = some token →
      (answers[index]? = some true ↔ token.tokenType = 2 ∧
        token.tokenKeyId = verifier.publicKey.tokenKeyId ∧
        (∀ digest ∈ verifier.challengeDigest, token.challengeDigest = digest) ∧
        verifier.publicKey.authenticates token = true ∧
        stores.mark verifier.store token.nonce = none ∧
        ¬Redeemed (tokens.take index) (answers.take index) token.nonce)) ∧
    (∀ store nonce, after.mark store nonce =
      if store = verifier.store ∧ Redeemed tokens answers nonce then some .stored
      else stores.mark store nonce) ∧
    ∀ index, answers[index]? = some false → ∀ store nonce,
      (verifier.redeem stores (tokens.take (index + 1))).2.mark store nonce =
        (verifier.redeem stores (tokens.take index)).2.mark store nonce := by
  intro answers after
  refine ⟨verifier.length_redeem stores tokens, fun index token htoken => ?_,
    verifier.mark_redeem stores tokens, fun index => verifier.mark_take_succ stores tokens⟩
  rw [answer_iff]
  constructor
  · rintro ⟨found, hfound, ⟨⟨htype, hkey, hpin⟩, hauthentic⟩, habsent, hnew⟩
    obtain rfl := Option.some.inj (hfound.symm.trans htoken)
    exact ⟨htype, hkey, hpin, hauthentic, habsent, hnew⟩
  · rintro ⟨htype, hkey, hpin, hauthentic, habsent, hnew⟩
    exact ⟨token, htoken, ⟨⟨htype, hkey, hpin⟩, hauthentic⟩, habsent, hnew⟩

-- A forged token, the genuine one twice, and one whose nonce someone else has reserved.
theorem smooth_redeem_exact :
    let held := smoothIssuer.signedToken (Block.ofNat 32 9) [1, 2, 3] (Block.ofNat saltSize 2)
    let stores : NonceStores Unit :=
      NonceStores.empty.put () (NonceStore.empty.reserve held.nonce).2
    let tokens := [Redemptions.smoothForgery, smoothToken, smoothToken, held]
    (smoothVerifier.redeem stores tokens).1 = [false, true, false, false] ∧
      (smoothVerifier.redeem stores tokens).2.mark () smoothToken.nonce = some .stored ∧
      (smoothVerifier.redeem stores tokens).2.mark () held.nonce = some .reserved := by
  intro held stores tokens
  obtain ⟨hlength, hanswers, hmarks, -⟩ := smoothVerifier.redeem_exact stores tokens
  have hheld : held.nonce = Block.ofNat 32 9 :=
    (smoothIssuer_isConsistent.isIssued_signedToken _ _ _).nonce_eq
  have hgenuine : smoothToken.nonce = Block.ofNat 32 1 :=
    (smoothIssuer_isConsistent.isIssued_signedToken _ _ _).nonce_eq
  have hne : smoothToken.nonce ≠ held.nonce := by
    rw [hheld, hgenuine]
    decide
  have hmark (nonce : Nonce) :
      stores.mark () nonce = if nonce = held.nonce then some .reserved else none := by
    simp only [stores, NonceStores.mark, NonceStores.get_put, if_true]
    exact NonceStore.mark_reserve ..
  obtain ⟨first, second, third, fourth, hall⟩ := List.length_eq_four.mp hlength
  rw [hall] at hanswers hmarks
  have hfirst : first = false := by
    refine Bool.eq_false_iff.mpr fun htrue => ?_
    obtain ⟨-, -, -, hauthentic, -⟩ := (hanswers 0 _ rfl).mp (congrArg some htrue)
    exact absurd hauthentic (Bool.eq_false_iff.mp Redemptions.not_authenticates_smoothForgery)
  have hsecond : second = true := by
    obtain ⟨⟨htype, hkey, hpin⟩, hauthentic⟩ := smoothToken_genuine
    refine Option.some.inj ((hanswers 1 _ rfl).mpr ⟨htype, hkey, hpin, hauthentic, ?_, ?_⟩)
    · exact (hmark _).trans (if_neg hne)
    · simp [Redeemed, tokens, hfirst]
  have hthird : third = false := by
    refine Bool.eq_false_iff.mpr fun htrue => ?_
    obtain ⟨-, -, -, -, -, hnew⟩ := (hanswers 2 _ rfl).mp (congrArg some htrue)
    exact hnew (by simp [Redeemed, tokens, hsecond])
  have hfourth : fourth = false := by
    refine Bool.eq_false_iff.mpr fun htrue => ?_
    obtain ⟨-, -, -, -, habsent, -⟩ := (hanswers 3 _ rfl).mp (congrArg some htrue)
    exact absurd ((hmark _).symm.trans habsent) (by simp)
  subst hfirst hsecond hthird hfourth
  refine ⟨hall, ?_, ?_⟩
  · rw [hmarks]
    exact if_pos ⟨rfl, by simp [Redeemed, tokens]⟩
  · rw [hmarks, hmark, if_pos rfl]
    exact if_neg fun hredeemed => hne.symm (by simpa [Redeemed, tokens] using hredeemed.2)

end BlindToken.Verifier
