import OpenCbdc.Atomizer.AtomizerRaft
import OpenCbdc.Atomizer.Shard
import OpenCbdc.Atomizer.StateMachine
import OpenCbdc.Library.Run

/-! Shards, atomizer nodes and their replicated state machine. Messages that
were sent stay deliverable for ever and any number of times: blocks reach the
shards late, notifications reach any node that was leader at the time, and a
request that a node has handed to the log is committed at any later point or
never. -/
namespace OpenCbdc

/-- The whole system. `published` holds every block that was ever made, and
`requests` the aggregate requests that were handed to the log. -/
structure AtomizerSystem where
  shards : List Shard
  nodes : List AtomizerRaft
  sm : AtomizerStateMachine
  published : List Block
  notifications : List TxNotifyRequest
  requests : List (List AggregateTxNotification)

namespace AtomizerSystem

/-- Shards with the given ranges that hold the same set of UHS IDs, each as far
as its range goes, and nodes that have received nothing. -/
def initial (stxoCacheDepth : Nat) (ranges : List ShardRange) (nodeCount : Nat)
    (genesis : Finset Hash) : AtomizerSystem :=
  { shards := ranges.map fun range => Shard.openDb range genesis
    nodes := List.replicate nodeCount .initial
    sm := .initial stxoCacheDepth
    published := []
    notifications := []
    requests := [] }

def digestBlock (system : AtomizerSystem) (id : Nat) (blk : Block) : Option AtomizerSystem :=
  match system.shards[id]? with
  | none => none
  | some shard =>
      if blk ∈ system.published then
        some { system with shards := system.shards.set id (shard.digestBlock blk).1 }
      else none

/-- A shard is handed a transaction. An error goes to the watchtowers, which
take no part here. -/
def digestTransaction (system : AtomizerSystem) (id : Nat) (tx : CompactTx) :
    Option AtomizerSystem :=
  match system.shards[id]? with
  | none => none
  | some shard =>
      match shard.digestTransaction tx with
      | .error _ => some system
      | .ok notif => some { system with notifications := system.notifications ++ [notif] }

/-- A node is handed a notification, which comes from a shard unless the
transaction has no inputs. -/
def txNotify (crypto : Crypto) (opts : Options) (system : AtomizerSystem) (id : Nat)
    (notif : TxNotifyRequest) : Option AtomizerSystem :=
  match system.nodes[id]? with
  | none => none
  | some node =>
      if notif ∈ system.notifications ∨ notif.tx.inputs = [] then
        some { system with nodes := system.nodes.set id (node.txNotify crypto opts notif) }
      else none

def sendCompleteTxs (system : AtomizerSystem) (id : Nat) : Option AtomizerSystem :=
  match system.nodes[id]? with
  | none => none
  | some node =>
      some { system with
        nodes := system.nodes.set id node.sendCompleteTxs.1
        requests := system.requests ++ node.sendCompleteTxs.2.toList }

/-- Only aggregates of the nodes are in the log; the other requests may be
made by anyone. -/
def Replicated (system : AtomizerSystem) : AtomizerStateMachine.Request → Prop
  | .aggregateTxNotify aggTxs => aggTxs ∈ system.requests
  | .makeBlock | .getBlock _ | .prune _ => True

instance (system : AtomizerSystem) :
    (request : AtomizerStateMachine.Request) → Decidable (system.Replicated request)
  | .aggregateTxNotify aggTxs => inferInstanceAs (Decidable (aggTxs ∈ system.requests))
  | .makeBlock | .getBlock _ | .prune _ => isTrue trivial

/-- The block in the response of the state machine, which is broadcast. -/
def madeBlock : Option AtomizerStateMachine.Response → List Block
  | some (.makeBlock blk _) => [blk]
  | _ => []

/-- The state machine processes the next request of the log. A fault ends it,
so nothing is made afterwards. -/
def commit (system : AtomizerSystem) (request : AtomizerStateMachine.Request) :
    Option AtomizerSystem :=
  if system.Replicated request then
    match system.sm.commit request with
    | .error _ => none
    | .ok (sm, response) =>
        some { system with sm := sm, published := system.published ++ madeBlock response }
  else none

inductive Event where
  | digestBlock (shard : Nat) (blk : Block)
  | digestTransaction (shard : Nat) (tx : CompactTx)
  | txNotify (node : Nat) (notif : TxNotifyRequest)
  | sendCompleteTxs (node : Nat)
  | commit (request : AtomizerStateMachine.Request)

def step (crypto : Crypto) (opts : Options) (system : AtomizerSystem) :
    Event → Option AtomizerSystem
  | .digestBlock shard blk => system.digestBlock shard blk
  | .digestTransaction shard tx => system.digestTransaction shard tx
  | .txNotify node notif => system.txNotify crypto opts node notif
  | .sendCompleteTxs node => system.sendCompleteTxs node
  | .commit request => system.commit request

/-- The transaction that an event brings into the system. -/
def Event.tx? : Event → Option CompactTx
  | .digestTransaction _ tx => some tx
  | .txNotify _ notif => some notif.tx
  | .digestBlock _ _ | .sendCompleteTxs _ | .commit _ => none

/-- The state after an event, with the guards that the event has passed. -/
inductive Effect (crypto : Crypto) (opts : Options) (system : AtomizerSystem) :
    Event → AtomizerSystem → Prop where
  | digestBlock {id : Nat} {blk : Block} {shard : Shard}
      (found : system.shards[id]? = some shard) (sent : blk ∈ system.published) :
      Effect crypto opts system (.digestBlock id blk)
        { system with shards := system.shards.set id (shard.digestBlock blk).1 }
  | attest {id : Nat} {tx : CompactTx} {shard : Shard} {notif : TxNotifyRequest}
      (found : system.shards[id]? = some shard)
      (attested : shard.digestTransaction tx = .ok notif) :
      Effect crypto opts system (.digestTransaction id tx)
        { system with notifications := system.notifications ++ [notif] }
  | refuse {id : Nat} {tx : CompactTx} : Effect crypto opts system (.digestTransaction id tx) system
  | txNotify {id : Nat} {notif : TxNotifyRequest} {node : AtomizerRaft}
      (found : system.nodes[id]? = some node)
      (source : notif ∈ system.notifications ∨ notif.tx.inputs = []) :
      Effect crypto opts system (.txNotify id notif)
        { system with nodes := system.nodes.set id (node.txNotify crypto opts notif) }
  | sendCompleteTxs {id : Nat} {node : AtomizerRaft} (found : system.nodes[id]? = some node) :
      Effect crypto opts system (.sendCompleteTxs id)
        { system with
          nodes := system.nodes.set id node.sendCompleteTxs.1
          requests := system.requests ++ node.sendCompleteTxs.2.toList }
  | insertAll {aggTxs : List AggregateTxNotification} {sm : AtomizerStateMachine}
      {errs : List TxError} (sent : aggTxs ∈ system.requests)
      (inserted : AtomizerStateMachine.insertAll system.sm.atomizer aggTxs =
        .ok (sm.atomizer, errs)) :
      Effect crypto opts system (.commit (.aggregateTxNotify aggTxs)) { system with sm := sm }
  | makeBlock {sm : AtomizerStateMachine}
      (made : sm.atomizer = system.sm.atomizer.makeBlock.1) :
      Effect crypto opts system (.commit .makeBlock)
        { system with
          sm := sm
          published := system.published ++ [system.sm.atomizer.makeBlock.2.1] }
  | store {request : AtomizerStateMachine.Request} {sm : AtomizerStateMachine}
      (kept : sm.atomizer = system.sm.atomizer) :
      Effect crypto opts system (.commit request) { system with sm := sm }

variable {crypto : Crypto} {opts : Options} {system next : AtomizerSystem}

/-- A committed request moves the atomizer, and a block that it makes is published. -/
theorem effect_of_commit {request : AtomizerStateMachine.Request}
    (h : system.commit request = some next) :
    Effect crypto opts system (.commit request) next := by
  rw [commit] at h
  split at h
  case isFalse => cases h
  case isTrue hReplicated =>
      cases request with
      | aggregateTxNotify aggTxs =>
          rw [AtomizerStateMachine.commit] at h
          cases hInsert : AtomizerStateMachine.insertAll system.sm.atomizer aggTxs with
          | error fault => simp [hInsert] at h
          | ok result =>
              obtain ⟨atomizer, errs⟩ := result
              have hMade : madeBlock (if errs = [] then none else some (.errors errs)) = [] := by
                split <;> rfl
              simp only [hInsert, hMade, List.append_nil, Option.some.injEq] at h
              subst h
              exact Effect.insertAll hReplicated hInsert
      | makeBlock =>
          cases h
          exact Effect.makeBlock rfl
      | getBlock height =>
          have hMade : madeBlock ((system.sm.blocks.lookup height).map .getBlock) = [] := by
            cases system.sm.blocks.lookup height <;> rfl
          simp only [AtomizerStateMachine.commit, hMade, List.append_nil, Option.some.injEq] at h
          subst h
          exact Effect.store rfl
      | prune height =>
          simp only [AtomizerStateMachine.commit, madeBlock, List.append_nil,
            Option.some.injEq] at h
          subst h
          exact Effect.store rfl

/-- Every step has one of the effects. -/
theorem effect_of_step {event : Event} (h : system.step crypto opts event = some next) :
    Effect crypto opts system event next := by
  cases event with
  | digestBlock id blk =>
      simp only [step, digestBlock] at h
      split at h
      · cases h
      case h_2 shard hFound =>
          split at h
          case isTrue hSent =>
              cases h
              exact Effect.digestBlock hFound hSent
          case isFalse => cases h
  | digestTransaction id tx =>
      simp only [step, digestTransaction] at h
      split at h
      · cases h
      case h_2 shard hFound =>
          split at h
          · cases h
            exact Effect.refuse
          case h_2 notif hNotif =>
              cases h
              exact Effect.attest hFound hNotif
  | txNotify id notif =>
      simp only [step, txNotify] at h
      split at h
      · cases h
      case h_2 node hFound =>
          split at h
          case isTrue hSource =>
              cases h
              exact Effect.txNotify hFound hSource
          case isFalse => cases h
  | sendCompleteTxs id =>
      simp only [step, sendCompleteTxs] at h
      split at h
      · cases h
      case h_2 node hFound =>
          cases h
          exact Effect.sendCompleteTxs hFound
  | commit request => exact effect_of_commit h

end AtomizerSystem
end OpenCbdc
