import BlindToken.Directory
import BlindToken.Issuance.Issuer
import BlindToken.Tier.Router

namespace BlindToken

-- Requests name their key by the truncated ID alone, so no two tiers may have keys with the same
-- one.
structure TieredIssuers (tier : Type) where
  issuers : Table tier Issuer
  tiers : Table TruncatedTokenKeyId tier

namespace TieredIssuers

variable {tier name state : Type} [DecidableEq tier]

def empty : TieredIssuers tier := ⟨Table.empty, Table.empty⟩

def issuer? (registry : TieredIssuers tier) (wanted : tier) : Option Issuer :=
  registry.issuers.get? wanted

def tierFor? (registry : TieredIssuers tier) (id : TruncatedTokenKeyId) : Option tier :=
  registry.tiers.get? id

def size (registry : TieredIssuers tier) : Nat := registry.issuers.size

-- Refuses an issuer whose truncated ID is taken.
def add? (registry : TieredIssuers tier) (new : tier) (issuer : Issuer) :
    Option (TieredIssuers tier) :=
  let id := issuer.truncatedTokenKeyId
  if registry.tiers.contains id then none
  else some ⟨registry.issuers.insert new issuer, registry.tiers.insert id new⟩

-- Frees the truncated ID of the tier's issuer.
def remove (registry : TieredIssuers tier) (old : tier) : TieredIssuers tier :=
  match registry.issuers.get? old with
  | some previous =>
    ⟨registry.issuers.erase old, registry.tiers.erase previous.truncatedTokenKeyId⟩
  | none => registry

def addAll (registry : TieredIssuers tier) :
    List (tier × Issuer) → Except ProtocolError (TieredIssuers tier)
  | [] => .ok registry
  | (next, issuer) :: rest =>
    match (registry.remove next).add? next issuer with
    | some registry => addAll registry rest
    | none => .error .truncatedTokenKeyIdCollision

-- A tier that is listed again gets the later issuer.
def ofIssuers (entries : List (tier × Issuer)) : Except ProtocolError (TieredIssuers tier) :=
  addAll empty entries

-- The most keys that are generated for a tier.
def collisionAvoidanceAttempts : Nat := 100

section Generation

-- Generates the next issuer from a state.
variable (generator : state → Except ProtocolError (Issuer × state))

def generateFor (registry : TieredIssuers tier) (next : tier) :
    (attempts : Nat) → state → Except ProtocolError (TieredIssuers tier × state)
  | 0, _ => .error .truncatedTokenKeyIdCollision
  | attempts + 1, current => do
    let (issuer, current) ← generator current
    match registry.add? next issuer with
    | some registry => return (registry, current)
    | none => generateFor registry next attempts current

def generateAll (attempts : Nat) :
    List tier → TieredIssuers tier → state → Except ProtocolError (TieredIssuers tier × state)
  | [], registry, current => .ok (registry, current)
  | next :: rest, registry, current =>
    if registry.issuers.contains next then generateAll attempts rest registry current
    else do
      let (registry, current) ← generateFor generator registry next attempts current
      generateAll attempts rest registry current

-- One issuer for each tier, generated again as long as its truncated ID is taken.
def generate (attempts : Nat) (tiers : List tier) (current : state) :
    Except ProtocolError (TieredIssuers tier × state) :=
  generateAll generator attempts tiers empty current

end Generation

def issue (registry : TieredIssuers tier) (request : TokenRequest) :
    Except ProtocolError TokenResponse :=
  match (registry.tierFor? request.truncatedTokenKeyId).bind registry.issuer? with
  | some issuer => issuer.issue request
  | none => .error .invalidTokenKeyId

-- The verifiers of all tiers, each with the store that is named for its tier.
def verifiers [DecidableEq name] (registry : TieredIssuers tier) (storeOf : tier → name) :
    Router tier name :=
  ⟨Table.ofList (registry.issuers.entries.map fun (next, issuer) =>
    (issuer.truncatedTokenKeyId,
      next, { publicKey := issuer.publicKey, store := storeOf next, challengeDigest := none }))⟩

end TieredIssuers

section Directory

variable {tier : Type} (registry : TieredIssuers tier)

-- The keys stand in the order of their truncated IDs, which tell them apart.
def TieredIssuers.keysInOrder : List PublicKey :=
  (registry.issuers.values.map (·.publicKey)).mergeSort fun left right =>
    left.truncatedTokenKeyId ≤ right.truncatedTokenKeyId

def TieredIssuers.directory (issuerRequestUri : String) :
    Except DirectoryError IssuerDirectory :=
  IssuerDirectory.make issuerRequestUri
    (registry.keysInOrder.map fun key => DirectoryKey.ofPublicKey key none)

end Directory

end BlindToken
