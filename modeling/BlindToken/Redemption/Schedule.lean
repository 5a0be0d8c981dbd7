import BlindToken.Redemption.Verifier

namespace BlindToken

-- What the caller of a verification does. One who has dropped it may release its nonce, once, so
-- that the token can be redeemed after all.
inductive Caller where
  | waiting
  | gone
  | recovered
deriving DecidableEq

-- A verification that was dropped takes no more steps.
structure Task (name : Type) extends Verification name where
  caller : Caller

-- A schedule is a list of events. An event starts a verification, takes one step of one, drops one
-- where it waits, releases the nonce of one that was dropped, or is any other call to a store from
-- outside.
inductive Event (name : Type) where
  | start (verifier : Verifier name) (token : Token)
  | resume (index : Nat)
  | drop (index : Nat)
  | recover (index : Nat)
  | call (store : name) (nonce : Nonce) (operation : StoreCall)

structure Redemptions (name : Type) where
  stores : NonceStores name
  tasks : List (Task name)

namespace Redemptions

variable {name : Type} [DecidableEq name]

def ofStores (stores : NonceStores name) : Redemptions name := ⟨stores, []⟩

-- An event for a task that is not there, has been dropped or has its answer changes nothing; only
-- a task that has been dropped is recovered, and only once.
def apply (current : Redemptions name) : Event name → Redemptions name
  | .start verifier token =>
    let task : Task name := { Verification.start verifier token with caller := .waiting }
    { current with tasks := current.tasks ++ [task] }
  | .resume index =>
    match current.tasks[index]? with
    | none => current
    | some task =>
      if task.caller ≠ .waiting then current
      else
        let (verification, stores) := task.toVerification.step current.stores
        { stores, tasks := current.tasks.set index { task with toVerification := verification } }
  | .drop index =>
    match current.tasks[index]? with
    | none => current
    | some task =>
      if task.caller ≠ .waiting ∨ task.progress.isAnswer then current
      else { current with tasks := current.tasks.set index { task with caller := .gone } }
  | .recover index =>
    match current.tasks[index]? with
    | none => current
    | some task =>
      if task.caller ≠ .gone then current
      else
        let store := current.stores.get task.verifier.store
        { stores := current.stores.put task.verifier.store (store.release task.token.nonce)
          tasks := current.tasks.set index { task with caller := .recovered } }
  | .call store nonce operation =>
    let (_, changed) := operation.run (current.stores.get store) nonce
    { current with stores := current.stores.put store changed }

def run (current : Redemptions name) (events : List (Event name)) : Redemptions name :=
  events.foldl apply current

-- The answer of a task that has one and was not dropped before.
def answer? (current : Redemptions name) (index : Nat) : Option Bool :=
  match current.tasks[index]? with
  | some { progress := .answered valid, caller := .waiting, .. } => some valid
  | _ => none

end Redemptions

-- All verifications are started, then all take their first step in order, then all their second.
def roundRobin {name : Type} (verifier : Verifier name) (tokens : List Token) :
    List (Event name) :=
  let turn := (List.range tokens.length).map Event.resume
  tokens.map (Event.start verifier) ++ turn ++ turn

end BlindToken
