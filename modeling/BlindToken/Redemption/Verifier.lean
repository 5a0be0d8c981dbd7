import BlindToken.Key.Public
import BlindToken.Redemption.NonceStore

namespace BlindToken

-- Accepts tokens of one key, if asked for of one challenge only, and keeps the nonces in the
-- store with the given name.
structure Verifier (name : Type) where
  publicKey : PublicKey
  store : name
  challengeDigest : Option ChallengeDigest

namespace Verifier

variable {name : Type}

-- The token is of the right type and for the right key and challenge.
def Expects (verifier : Verifier name) (token : Token) : Prop :=
  token.tokenType = TokenType.blindRsa.code ∧ token.tokenKeyId = verifier.publicKey.tokenKeyId ∧
    ∀ digest ∈ verifier.challengeDigest, token.challengeDigest = digest

instance (verifier : Verifier name) (token : Token) : Decidable (verifier.Expects token) := by
  unfold Expects
  infer_instance

end Verifier

-- What a verification does next, or its answer.
inductive Progress where
  | reserving
  | storing
  | releasing
  | answered (valid : Bool)
deriving DecidableEq

def Progress.isAnswer : Progress → Bool
  | answered _ => true
  | _ => false

-- It waits before each call to the nonce store, so it is a row of atomic steps.
structure Verification (name : Type) where
  verifier : Verifier name
  token : Token
  progress : Progress

namespace Verification

variable {name : Type} [DecidableEq name]

def start (verifier : Verifier name) (token : Token) : Verification name where
  verifier := verifier
  token := token
  progress := if verifier.Expects token then .reserving else .answered false

-- The next call to the store, and what follows from it up to the call after that. The signature
-- is looked at only after the nonce has been reserved.
def step (stores : NonceStores name) (verification : Verification name) :
    Verification name × NonceStores name :=
  let { verifier, token, progress } := verification
  let store := stores.get verifier.store
  match progress with
  | .reserving =>
    let (won, store) := store.reserve token.nonce
    let next :=
      if won then
        if verifier.publicKey.authenticates token then .storing else .releasing
      else .answered false
    ({ verification with progress := next }, stores.put verifier.store store)
  | .storing =>
    ({ verification with progress := .answered true },
      stores.put verifier.store (store.store token.nonce))
  | .releasing =>
    ({ verification with progress := .answered false },
      stores.put verifier.store (store.release token.nonce))
  | .answered _ => (verification, stores)

def isValid (verification : Verification name) : Bool := verification.progress = .answered true

end Verification

-- A verification is at its answer after two steps.
def Verifier.verify {name : Type} [DecidableEq name] (verifier : Verifier name)
    (stores : NonceStores name) (token : Token) : Bool × NonceStores name :=
  let (verification, stores) := (Verification.start verifier token).step stores
  let (verification, stores) := verification.step stores
  (verification.isValid, stores)

-- A verification that is dropped where it would store the nonce. It has no answer then, and the
-- nonce stays reserved.
def Verifier.verifyUntilStore {name : Type} [DecidableEq name] (verifier : Verifier name)
    (stores : NonceStores name) (token : Token) : Option Bool × NonceStores name :=
  let (verification, stores) := (Verification.start verifier token).step stores
  if verification.progress = .storing then (none, stores)
  else
    let (verification, stores) := verification.step stores
    (some verification.isValid, stores)

end BlindToken
