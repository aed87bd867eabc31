import OpenCbdc.Atomizer.Atomizer
import OpenCbdc.Library.Table

/-! The state machine that the atomizer nodes replicate. -/
namespace OpenCbdc

structure AtomizerStateMachine where
  atomizer : Atomizer
  blocks : Finmap fun _ : Nat => Block
  txNotifyCount : Nat

namespace AtomizerStateMachine

inductive Request where
  | aggregateTxNotify (aggTxs : List AggregateTxNotification)
  | makeBlock
  | getBlock (blockHeight : Nat)
  | prune (blockHeight : Nat)
deriving DecidableEq

inductive Response where
  | makeBlock (blk : Block) (errs : Finset TxError)
  | getBlock (blk : Block)
  | errors (errs : List TxError)
deriving DecidableEq

/-- The constructor, where no snapshot is found. -/
def initial (stxoCacheDepth : Nat) : AtomizerStateMachine :=
  { atomizer := .new 0 stxoCacheDepth, blocks := ∅, txNotifyCount := 0 }

/-- The loop of `commit` over an aggregate request. -/
def insertAll : Atomizer → List AggregateTxNotification →
    Except Atomizer.Fault (Atomizer × List TxError)
  | atomizer, [] => .ok (atomizer, [])
  | atomizer, msg :: rest =>
      match atomizer.insertComplete msg.oldestAttestation msg.tx with
      | .error fault => .error fault
      | .ok (next, err) =>
          match insertAll next rest with
          | .error fault => .error fault
          | .ok (last, errs) => .ok (last, err.toList ++ errs)

def commit (sm : AtomizerStateMachine) :
    Request → Except Atomizer.Fault (AtomizerStateMachine × Option Response)
  | .aggregateTxNotify aggTxs =>
      match insertAll sm.atomizer aggTxs with
      | .error fault => .error fault
      | .ok (atomizer, errs) =>
          .ok ({ sm with
            atomizer := atomizer
            txNotifyCount := sm.txNotifyCount + aggTxs.length },
            if errs = [] then none else some (.errors errs))
  | .makeBlock =>
      let (atomizer, blk, errs) := sm.atomizer.makeBlock
      .ok ({ sm with
        atomizer := atomizer
        blocks := Table.emplace sm.blocks blk.height blk }, some (.makeBlock blk errs))
  | .getBlock blockHeight => .ok (sm, (sm.blocks.lookup blockHeight).map .getBlock)
  | .prune blockHeight =>
      .ok ({ sm with
        blocks := Table.filterValues (fun blk => !decide (blk.height < blockHeight)) sm.blocks },
        none)

/-- A property of the atomizer that every insertion of a request preserves
holds after the request. -/
theorem insertAll_invariant {motive : Atomizer → Prop} {aggTxs : List AggregateTxNotification}
    (hInsert : ∀ msg ∈ aggTxs, ∀ atomizer next err, motive atomizer →
      atomizer.insertComplete msg.oldestAttestation msg.tx = .ok (next, err) → motive next)
    {atomizer last : Atomizer} {errs : List TxError}
    (h : insertAll atomizer aggTxs = .ok (last, errs)) (hStart : motive atomizer) :
    motive last := by
  induction aggTxs generalizing atomizer errs with
  | nil =>
      cases h
      exact hStart
  | cons msg rest ih =>
      rw [insertAll] at h
      split at h
      · cases h
      case h_2 next err hMsg =>
          split at h
          · cases h
          case h_2 hRest =>
              obtain ⟨rfl, _⟩ := Prod.mk.inj (Except.ok.inj h)
              refine ih (fun later hLater => hInsert later (List.mem_cons_of_mem _ hLater)) hRest ?_
              exact hInsert msg List.mem_cons_self atomizer next err hStart hMsg

/-- A request touches neither the pending transactions nor the height. -/
theorem insertAll_kept {aggTxs : List AggregateTxNotification} {atomizer last : Atomizer}
    {errs : List TxError} (h : insertAll atomizer aggTxs = .ok (last, errs)) :
    last.txs = atomizer.txs ∧ last.bestHeight = atomizer.bestHeight ∧
      last.spentCacheDepth = atomizer.spentCacheDepth := by
  refine insertAll_invariant (motive := fun current => current.txs = atomizer.txs ∧
    current.bestHeight = atomizer.bestHeight ∧
      current.spentCacheDepth = atomizer.spentCacheDepth) ?_ h ⟨rfl, rfl, rfl⟩
  intro msg _ current next err hSame hInsert
  obtain ⟨hTxs, hHeight, hDepth⟩ := Atomizer.insertComplete_kept hInsert
  exact ⟨hTxs.trans hSame.1, hHeight.trans hSame.2.1, hDepth.trans hSame.2.2⟩

/-- Only `make_block` raises the height. -/
theorem insertAll_bestHeight {aggTxs : List AggregateTxNotification} {atomizer last : Atomizer}
    {errs : List TxError} (h : insertAll atomizer aggTxs = .ok (last, errs)) :
    last.bestHeight = atomizer.bestHeight :=
  (insertAll_kept h).2.1

end AtomizerStateMachine
end OpenCbdc
