import BlindToken.Redemption.Schedule

namespace BlindToken

-- A token goes to the verifier whose key it names by the last byte of its key ID.
structure Router (tier name : Type) where
  routes : Table TruncatedTokenKeyId (tier × Verifier name)

namespace Router

variable {tier name : Type} [DecidableEq name]

def insertAll (routes : Table TruncatedTokenKeyId (tier × Verifier name)) :
    List (tier × Verifier name) →
      Except ProtocolError (Table TruncatedTokenKeyId (tier × Verifier name))
  | [] => .ok routes
  | (tier, verifier) :: rest =>
    let id := verifier.publicKey.truncatedTokenKeyId
    if routes.contains id then .error .truncatedTokenKeyIdCollision
    else insertAll (routes.insert id (tier, verifier)) rest

-- No two verifiers may have keys with the same truncated ID.
def ofList (entries : List (tier × Verifier name)) : Except ProtocolError (Router tier name) :=
  match insertAll Table.empty entries with
  | .ok routes => .ok ⟨routes⟩
  | .error error => .error error

def route? (router : Router tier name) (id : TruncatedTokenKeyId) : Option (tier × Verifier name) :=
  router.routes.get? id

-- The tier that the token is accepted for.
def verify (router : Router tier name) (stores : NonceStores name) (token : Token) :
    Option tier × NonceStores name :=
  match router.route? token.tokenKeyId.truncate with
  | none => (none, stores)
  | some (tier, verifier) =>
    let (valid, stores) := verifier.verify stores token
    (if valid then some tier else none, stores)

end Router

inductive RoutedEvent (tier name : Type) where
  | arrive (router : Router tier name) (token : Token)
  | plain (event : Event name)

namespace RoutedEvent

variable {tier name : Type}

-- A token of a key that the router does not know starts nothing.
def events : RoutedEvent tier name → List (Event name)
  | arrive router token =>
    match router.route? token.tokenKeyId.truncate with
    | none => []
    | some (_, verifier) => [.start verifier token]
  | plain event => [event]

end RoutedEvent

end BlindToken
