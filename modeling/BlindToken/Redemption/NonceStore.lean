import BlindToken.Table
import BlindToken.TokenType

namespace BlindToken

-- What a store knows of a nonce that is not absent. Each operation of a store is one atomic step.
inductive NonceMark where
  | reserved
  | stored
deriving DecidableEq

structure NonceStore where
  marks : Table Nonce NonceMark

namespace NonceStore

def empty : NonceStore := ⟨Table.empty⟩

-- Reserved nonces count as well as stored ones.
def contains (store : NonceStore) (nonce : Nonce) : Bool := store.marks.contains nonce

def size (store : NonceStore) : Nat := store.marks.size

-- Succeeds for absent nonces only, so of several attempts one succeeds.
def reserve (store : NonceStore) (nonce : Nonce) : Bool × NonceStore :=
  match store.marks.get? nonce with
  | none => (true, ⟨store.marks.insert nonce .reserved⟩)
  | some _ => (false, store)

-- Whatever the nonce was before, it is stored from now on.
def store (store : NonceStore) (nonce : Nonce) : NonceStore := ⟨store.marks.insert nonce .stored⟩

-- Undoes a reservation. A stored nonce stays stored.
def release (store : NonceStore) (nonce : Nonce) : NonceStore :=
  match store.marks.get? nonce with
  | some .reserved => ⟨store.marks.erase nonce⟩
  | _ => store

end NonceStore

-- The four operations as data, and what each returns.
inductive StoreCall where
  | contains
  | reserve
  | store
  | release
deriving DecidableEq

def StoreCall.run (store : NonceStore) (nonce : Nonce) : StoreCall → Option Bool × NonceStore
  | contains => (some (store.contains nonce), store)
  | reserve =>
    let (won, store) := store.reserve nonce
    (some won, store)
  | StoreCall.store => (none, store.store nonce)
  | release => (none, store.release nonce)

-- Stores by name. A store that has not been used is empty.
structure NonceStores (name : Type) where
  named : Table name NonceStore

namespace NonceStores

variable {name : Type} [DecidableEq name]

def empty : NonceStores name := ⟨Table.empty⟩

def get (stores : NonceStores name) (wanted : name) : NonceStore :=
  (stores.named.get? wanted).getD NonceStore.empty

def put (stores : NonceStores name) (changed : name) (store : NonceStore) : NonceStores name :=
  ⟨stores.named.insert changed store⟩

theorem get_put (stores : NonceStores name) (changed wanted : name) (store : NonceStore) :
    (stores.put changed store).get wanted =
      if wanted = changed then store else stores.get wanted := by
  unfold get put
  rw [Table.get?_insert]
  split <;> rfl

end NonceStores

-- Where a store is called: at the store itself, or at one of any number of shared pointers to it,
-- which pass every call on.
inductive StoreHandle (name : Type) where
  | store (name : name)
  | shared (target : StoreHandle name)

namespace StoreHandle

variable {name : Type} [DecidableEq name]

def call (stores : NonceStores name) (nonce : Nonce) (operation : StoreCall) :
    StoreHandle name → Option Bool × NonceStores name
  | store name =>
    let (answer, changed) := operation.run (stores.get name) nonce
    (answer, stores.put name changed)
  | shared target => target.call stores nonce operation

end StoreHandle

end BlindToken
