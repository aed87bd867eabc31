import OpenCbdc.Library.Run
import OpenCbdc.Library.Table
import OpenCbdc.Transaction.CompactTx

/-! The replicated state machine of the coordinators. It records for every dtx
in which phase it is and what a new leader needs to go on from there. The
buffers of the source are kept as the values they decode to. -/
namespace OpenCbdc

/-- `controller::sm_command` with the data of its phase. -/
inductive SmCommand where
  | prepare (dtxId : Hash) (txs : List CompactTx)
  | commit (dtxId : Hash) (completeTxs : List Bool) (txIdxs : List (List Nat))
  | discard (dtxId : Hash)
  | done (dtxId : Hash)
  | get
deriving DecidableEq

structure CoordinatorState where
  prepareTxs : Finmap fun _ : Hash => List CompactTx
  commitTxs : Finmap fun _ : Hash => List Bool × List (List Nat)
  discardTxs : Finset Hash

/-- The three tables in which a dtx can stand. -/
inductive DtxPhase where
  | prepare
  | commit
  | discard
deriving DecidableEq

namespace CoordinatorState

def empty : CoordinatorState := { prepareTxs := ∅, commitTxs := ∅, discardTxs := ∅ }

/-- The branches of `state_machine::commit` that end the process. -/
inductive Fatal where
  | duplicatePrepare (dtxId : Hash)
  | prepareNotFound (dtxId : Hash)
  | commitNotFound (dtxId : Hash)
  | discardNotFound (dtxId : Hash)
deriving DecidableEq

/-- `state_machine::commit`: the next state and the reply, which only `get` has. -/
def commit (state : CoordinatorState) (command : SmCommand) :
    Except Fatal (CoordinatorState × Option CoordinatorState) :=
  match command with
  | .prepare dtxId txs =>
      if dtxId ∈ state.prepareTxs then .error (.duplicatePrepare dtxId)
      else .ok ({ state with prepareTxs := Table.emplace state.prepareTxs dtxId txs }, none)
  | .commit dtxId completeTxs txIdxs =>
      if dtxId ∈ state.prepareTxs then
        .ok ({ state with
          prepareTxs := state.prepareTxs.erase dtxId
          commitTxs := Table.emplace state.commitTxs dtxId (completeTxs, txIdxs) }, none)
      else .error (.prepareNotFound dtxId)
  | .discard dtxId =>
      if dtxId ∈ state.commitTxs then
        .ok ({ state with
          commitTxs := state.commitTxs.erase dtxId
          discardTxs := insert dtxId state.discardTxs }, none)
      else .error (.commitNotFound dtxId)
  | .done dtxId =>
      if dtxId ∈ state.discardTxs then
        .ok ({ state with discardTxs := state.discardTxs.erase dtxId }, none)
      else .error (.discardNotFound dtxId)
  | .get => .ok (state, some state)

def step (state : CoordinatorState) (command : SmCommand) : Option CoordinatorState :=
  match state.commit command with
  | .error _ => none
  | .ok result => some result.1

def Holds (state : CoordinatorState) (phase : DtxPhase) (dtxId : Hash) : Prop :=
  match phase with
  | .prepare => dtxId ∈ state.prepareTxs
  | .commit => dtxId ∈ state.commitTxs
  | .discard => dtxId ∈ state.discardTxs

def Exclusive (state : CoordinatorState) : Prop :=
  ∀ dtxId first second, state.Holds first dtxId → state.Holds second dtxId → first = second

end CoordinatorState

namespace SmCommand

def dtxId? : SmCommand → Option Hash
  | .prepare dtxId _ => some dtxId
  | .commit dtxId _ _ => some dtxId
  | .discard dtxId => some dtxId
  | .done dtxId => some dtxId
  | .get => none

def source : SmCommand → Option DtxPhase
  | .prepare _ _ => none
  | .commit _ _ _ => some .prepare
  | .discard _ => some .commit
  | .done _ => some .discard
  | .get => none

def target : SmCommand → Option DtxPhase
  | .prepare _ _ => some .prepare
  | .commit _ _ _ => some .commit
  | .discard _ => some .discard
  | .done _ => none
  | .get => none

end SmCommand
end OpenCbdc
