import Mathlib.Algebra.GroupWithZero.Nat
import OpenCbdc.Coordinator.Commitment
import OpenCbdc.Library.Run
import OpenCbdc.Library.Slots

/-! How a coordinator batches the transactions of its clients and calls them
back. Calls of `execute_transaction`, the batch executor thread, the threads
that execute batches and the thread that stops and starts the coordinator take
their steps in any order; a step is one section under `m_batch_mut`, or what a
thread does on its own data between two such sections. -/
namespace OpenCbdc.Batching

open TransitionSystem

/-- An entry of `m_current_txs`. The callback is the one that was passed in the
accepted call with this number. -/
structure PendingTx where
  txId : Hash
  callback : Nat
  batchIdx : Nat
deriving DecidableEq

/-- A batch object. Beside the dtx it keeps which accepted calls put the
transactions there, in the order of `m_full_txs`. -/
structure Batch where
  dtx : DistributedTx
  callers : List Nat
deriving DecidableEq

def Batch.new (dtxId : Hash) (shardRanges : List ShardRange) : Batch :=
  ⟨DistributedTx.new dtxId shardRanges, []⟩

/-- `add_tx` of an accepted call. -/
def Batch.addTx (batch : Batch) (tx : CompactTx) (call : Nat) : Batch × Nat :=
  let added := batch.dtx.addTx tx
  (⟨added.1, batch.callers ++ [call]⟩, added.2)

/-- Where `batch_executor_func` is: not running, about to wait for transactions,
with a new batch in hand, or with a full batch to be scheduled. -/
inductive ExecutorThread where
  | ended
  | waiting
  | swapping (newBatch : Batch)
  | scheduling (batch : Batch) (txs : List PendingTx)
deriving DecidableEq

/-- A scheduled batch. There is no result while its `execute` runs, and the
entries are those whose callbacks are still to be called. -/
structure Execution where
  batch : Batch
  res : Option (Option (List Bool))
  txs : List PendingTx
deriving DecidableEq

structure Config where
  crypto : Crypto
  opts : Options
  batchSize : Nat
  shardRanges : List ShardRange

/-- The part of a `controller` that deals with batches, the transactions of the
calls that returned true and the calls of callbacks so far. The two pointers are
null before the first `start`. -/
structure Controller where
  running : Bool
  currentBatch : Option Batch
  currentTxs : Option (List PendingTx)
  executor : ExecutorThread
  executions : List Execution
  accepted : List CompactTx
  invoked : List (Nat × Option Bool)
deriving DecidableEq

namespace Controller

def initial : Controller := ⟨false, none, none, .ended, [], [], []⟩

/-- `execute_transaction`. There is no next state while the call waits for
space, and for a null batch. -/
def executeTransaction (config : Config) (leader : Bool) (tx : CompactTx)
    (controller : Controller) : Option (Controller × Bool) :=
  if !leader then some (controller, false)
  else if !checkAttestations config.crypto tx config.opts then some (controller, false)
  else
    match controller.currentTxs, controller.currentBatch with
    | some txs, some batch =>
        if txs.length < config.batchSize || !controller.running then
          if !controller.running then some (controller, false)
          else if txs.any fun entry => entry.txId = tx.id then some (controller, false)
          else
            let call := controller.accepted.length
            let added := batch.addTx tx call
            some ({ controller with
              currentBatch := some added.1
              currentTxs := some (txs ++ [⟨tx.id, call, added.2⟩])
              accepted := controller.accepted ++ [tx] }, true)
        else none
    | _, _ => none

/-- The executor thread leaves its wait while running and makes a new batch. -/
def makeBatch (config : Config) (dtxId : Hash) (controller : Controller) : Option Controller :=
  match controller.executor with
  | .waiting =>
      if controller.running && controller.currentTxs.any fun txs => !txs.isEmpty then
        some { controller with executor := .swapping (.new dtxId config.shardRanges) }
      else none
  | _ => none

/-- The section of `batch_executor_func` that swaps the batch and the map. -/
def swapBatch (controller : Controller) : Option Controller :=
  match controller.executor, controller.currentBatch, controller.currentTxs with
  | .swapping newBatch, some batch, some txs =>
      some { controller with
        currentBatch := some newBatch
        currentTxs := some []
        executor := .scheduling batch txs }
  | _, _, _ => none

def scheduleExec (controller : Controller) : Option Controller :=
  match controller.executor with
  | .scheduling batch txs =>
      some { controller with
        executor := .waiting
        executions := controller.executions ++ [⟨batch, none, txs⟩] }
  | _ => none

/-- The executor thread sees that the coordinator is stopping. -/
def endExecutor (controller : Controller) : Option Controller :=
  match controller.executor with
  | .waiting => if controller.running then none else some { controller with executor := .ended }
  | _ => none

/-- A thread returns from the `execute` of its batch. -/
def execute (place : Nat) (env : DistributedTx.Env) (controller : Controller) :
    Option Controller :=
  match controller.executions[place]? with
  | some ⟨batch, none, txs⟩ =>
      match batch.dtx.execute env with
      | .ok out =>
          some { controller with
            executions := controller.executions.set place ⟨batch, some out.result, txs⟩ }
      | .error _ => none
  | _ => none

def txRes (res : Option (List Bool)) (entry : PendingTx) : Option Bool :=
  res.map fun decision => decision.getD entry.batchIdx false

/-- One round of the loop over the entries of an executed batch. The order in
which the map is iterated is left open. -/
def callBack (place next : Nat) (controller : Controller) : Option Controller :=
  match controller.executions[place]? with
  | some ⟨batch, some res, txs⟩ =>
      match txs[next]? with
      | some entry =>
          some { controller with
            executions := controller.executions.set place ⟨batch, some res, txs.eraseIdx next⟩
            invoked := controller.invoked ++ [(entry.callback, txRes res entry)] }
      | none => none
  | _ => none

def joined (controller : Controller) : Bool :=
  controller.executor = .ended &&
    controller.executions.all fun execution => execution.res.isSome && execution.txs.isEmpty

/-- `start` up to its recovery. -/
def start (controller : Controller) : Option Controller :=
  if controller.joined then some { controller with running := true } else none

/-- The end of `start`: a fresh batch, a fresh map and the executor thread. -/
def startExecutor (config : Config) (dtxId : Hash) (controller : Controller) :
    Option Controller :=
  if controller.joined then
    some { controller with
      currentBatch := some (.new dtxId config.shardRanges)
      currentTxs := some []
      executor := .waiting }
  else none

end Controller

/-- A step of one of the threads. The leader flag, the ids of new batches and
what the shards answer are chosen by the environment. -/
inductive Event where
  | executeTransaction (leader : Bool) (tx : CompactTx)
  | makeBatch (dtxId : Hash)
  | swapBatch
  | scheduleExec
  | endExecutor
  | execute (place : Nat) (env : DistributedTx.Env)
  | callBack (place next : Nat)
  | stop
  | start
  | startExecutor (dtxId : Hash)

def step (config : Config) (controller : Controller) : Event → Option Controller
  | .executeTransaction leader tx =>
      (controller.executeTransaction config leader tx).map Prod.fst
  | .makeBatch dtxId => controller.makeBatch config dtxId
  | .swapBatch => controller.swapBatch
  | .scheduleExec => controller.scheduleExec
  | .endExecutor => controller.endExecutor
  | .execute place env => controller.execute place env
  | .callBack place next => controller.callBack place next
  | .stop => some { controller with running := false }
  | .start => controller.start
  | .startExecutor dtxId => controller.startExecutor config dtxId

inductive Effect (config : Config) (before : Controller) : Controller → Prop where
  | idle (running : Bool) : Effect config before { before with running := running }
  | added (tx : CompactTx) (batch : Batch) (txs : List PendingTx)
      (hBatch : before.currentBatch = some batch) (hTxs : before.currentTxs = some txs) :
      Effect config before { before with
        currentBatch := some (batch.addTx tx before.accepted.length).1
        currentTxs := some (txs ++ [⟨tx.id, before.accepted.length,
          (batch.addTx tx before.accepted.length).2⟩])
        accepted := before.accepted ++ [tx] }
  | made (dtxId : Hash) (hExecutor : before.executor = .waiting) :
      Effect config before
        { before with executor := .swapping (.new dtxId config.shardRanges) }
  | swapped (newBatch batch : Batch) (txs : List PendingTx)
      (hExecutor : before.executor = .swapping newBatch)
      (hBatch : before.currentBatch = some batch) (hTxs : before.currentTxs = some txs) :
      Effect config before { before with
        currentBatch := some newBatch
        currentTxs := some []
        executor := .scheduling batch txs }
  | scheduled (batch : Batch) (txs : List PendingTx)
      (hExecutor : before.executor = .scheduling batch txs) :
      Effect config before { before with
        executor := .waiting
        executions := before.executions ++ [⟨batch, none, txs⟩] }
  | ended (hExecutor : before.executor = .waiting) :
      Effect config before { before with executor := .ended }
  | executed (place : Nat) (env : DistributedTx.Env) (batch : Batch) (txs : List PendingTx)
      (out : DistributedTx.Outcome (Option (List Bool)))
      (hPlace : before.executions[place]? = some ⟨batch, none, txs⟩)
      (hExecute : batch.dtx.execute env = .ok out) :
      Effect config before { before with
        executions := before.executions.set place ⟨batch, some out.result, txs⟩ }
  | calledBack (place next : Nat) (batch : Batch) (res : Option (List Bool))
      (txs : List PendingTx) (entry : PendingTx)
      (hPlace : before.executions[place]? = some ⟨batch, some res, txs⟩)
      (hNext : txs[next]? = some entry) :
      Effect config before { before with
        executions := before.executions.set place ⟨batch, some res, txs.eraseIdx next⟩
        invoked := before.invoked ++ [(entry.callback, Controller.txRes res entry)] }
  | started (dtxId : Hash) (hExecutor : before.executor = .ended) :
      Effect config before { before with
        currentBatch := some (.new dtxId config.shardRanges)
        currentTxs := some []
        executor := .waiting }

variable {config : Config} {before after controller : Controller}

/-- A call adds its transaction and its callback to the current batch, or leaves the
controller as it is. -/
theorem effect_of_executeTransaction {leader accepted : Bool} {tx : CompactTx}
    (h : before.executeTransaction config leader tx = some (after, accepted)) :
    Effect config before after := by
  have hSame : Effect config before before := Effect.idle before.running
  rw [Controller.executeTransaction] at h
  split at h
  · cases h
    exact hSame
  split at h
  · cases h
    exact hSame
  split at h
  case h_2 => cases h
  case h_1 txs batch hTxs hBatch =>
    split at h
    case isFalse => cases h
    split at h
    · cases h
      exact hSame
    split at h
    · cases h
      exact hSame
    · cases h
      exact Effect.added tx batch txs hBatch hTxs

theorem effect_of_execute {place : Nat} {env : DistributedTx.Env}
    (h : before.execute place env = some after) : Effect config before after := by
  rw [Controller.execute] at h
  split at h
  case h_2 => cases h
  case h_1 batch txs hPlace =>
    cases hExecute : batch.dtx.execute env with
    | error fatal => simp [hExecute] at h
    | ok out =>
        rw [hExecute] at h
        cases h
        exact Effect.executed place env batch txs out hPlace hExecute

theorem effect_of_callBack {place next : Nat} (h : before.callBack place next = some after) :
    Effect config before after := by
  rw [Controller.callBack] at h
  split at h
  case h_2 => cases h
  case h_1 batch res txs hPlace =>
    cases hNext : txs[next]? with
    | none => simp [hNext] at h
    | some entry =>
        rw [hNext] at h
        cases h
        exact Effect.calledBack place next batch res txs entry hPlace hNext

/-- Every transition is one of the effects. The invariants below are proved from these
alone. -/
theorem effect_of_step {event : Event} (h : step config before event = some after) :
    Effect config before after := by
  cases event with
  | executeTransaction leader tx =>
      obtain ⟨⟨_, accepted⟩, hCall, rfl⟩ := Option.map_eq_some_iff.mp h
      exact effect_of_executeTransaction hCall
  | makeBatch dtxId =>
      rw [step, Controller.makeBatch] at h
      split at h
      case h_2 => cases h
      case h_1 hExecutor =>
        split at h
        · cases h
          exact Effect.made dtxId hExecutor
        · cases h
  | swapBatch =>
      rw [step, Controller.swapBatch] at h
      split at h
      case h_2 => cases h
      case h_1 newBatch batch txs hExecutor hBatch hTxs =>
        cases h
        exact Effect.swapped newBatch batch txs hExecutor hBatch hTxs
  | scheduleExec =>
      rw [step, Controller.scheduleExec] at h
      split at h
      case h_2 => cases h
      case h_1 batch txs hExecutor =>
        cases h
        exact Effect.scheduled batch txs hExecutor
  | endExecutor =>
      rw [step, Controller.endExecutor] at h
      split at h
      case h_2 => cases h
      case h_1 hExecutor =>
        split at h
        · cases h
        · cases h
          exact Effect.ended hExecutor
  | execute place env => exact effect_of_execute h
  | callBack place next => exact effect_of_callBack h
  | stop =>
      cases h
      exact Effect.idle false
  | start =>
      rw [step, Controller.start] at h
      split at h
      · cases h
        exact Effect.idle true
      · cases h
  | startExecutor dtxId =>
      rw [step, Controller.startExecutor] at h
      split at h
      case isFalse => cases h
      case isTrue hJoined =>
        cases h
        simp only [Controller.joined, Bool.and_eq_true, decide_eq_true_eq] at hJoined
        exact Effect.started dtxId hJoined.1

/-- The batch the executor thread has in hand, with its entries. -/
def ExecutorThread.holding : ExecutorThread → Option (Batch × List PendingTx)
  | .ended | .waiting => none
  | .swapping newBatch => some (newBatch, [])
  | .scheduling batch txs => some (batch, txs)

/-- How many of the entries are those of one call. -/
def entriesOf (call : Nat) (txs : List PendingTx) : Nat :=
  txs.countP fun entry => entry.callback = call

/-- How often the callback of a call is waiting somewhere or was called. -/
def custody (controller : Controller) (call : Nat) : Nat :=
  entriesOf call (controller.currentTxs.getD []) +
    entriesOf call (controller.executor.holding.elim [] Prod.snd) +
    (controller.executions.map fun execution => entriesOf call execution.txs).sum +
    controller.invoked.countP fun answer => answer.1 = call

@[simp] theorem entriesOf_nil (call : Nat) : entriesOf call [] = 0 := rfl

@[simp] theorem entriesOf_append (call : Nat) (first second : List PendingTx) :
    entriesOf call (first ++ second) = entriesOf call first + entriesOf call second := by
  simp [entriesOf]

@[simp] theorem entriesOf_cons (call : Nat) (entry : PendingTx) (txs : List PendingTx) :
    entriesOf call (entry :: txs) =
      entriesOf call txs + if entry.callback = call then 1 else 0 := by
  simp [entriesOf, List.countP_cons]

/-- A step only moves callbacks along or drops them. A new one belongs to the
call that is accepted. -/
theorem Effect.custody_le (h : Effect config before after) (call : Nat) :
    custody after call ≤ custody before call +
      (if before.accepted.length = call ∧ after.accepted ≠ before.accepted then 1 else 0) := by
  cases h with
  | idle running => simp [custody]
  | added tx batch txs hBatch hTxs =>
      simp only [custody, hTxs]
      simp
      omega
  | made dtxId hExecutor => simp [custody, hExecutor, ExecutorThread.holding]
  | swapped newBatch batch txs hExecutor hBatch hTxs =>
      simp only [custody, hTxs, hExecutor, ExecutorThread.holding]
      simp
  | scheduled batch txs hExecutor =>
      simp only [custody, hExecutor, ExecutorThread.holding]
      simp
      omega
  | ended hExecutor => simp [custody, hExecutor, ExecutorThread.holding]
  | executed place env batch txs out hPlace hExecute =>
      obtain ⟨first, second, hRows, _, hSet⟩ := Slots.split_at hPlace
      simp only [custody, hSet]
      rw [hRows]
      simp
  | calledBack place next batch res txs entry hPlace hNext =>
      obtain ⟨first, second, hRows, _, hSet⟩ := Slots.split_at hPlace
      obtain ⟨earlier, later, hTxs, hErase, _⟩ := Slots.split_at hNext
      simp only [custody, hSet, hErase]
      rw [hRows, hTxs]
      simp [List.countP_cons]
      omega
  | started dtxId hExecutor =>
      simp [custody, hExecutor, ExecutorThread.holding]

theorem Effect.accepted_eq (h : Effect config before after) :
    after.accepted = before.accepted ∨ ∃ tx, after.accepted = before.accepted ++ [tx] := by
  cases h with
  | added tx batch txs hBatch hTxs => exact Or.inr ⟨tx, rfl⟩
  | _ => exact Or.inl rfl

/-- Every callback is kept in one place at most, and belongs to an accepted
call. -/
structure Accounted (controller : Controller) : Prop where
  once : ∀ call, custody controller call ≤ 1
  known : ∀ call, controller.accepted.length ≤ call → custody controller call = 0

theorem accounted_initial : Accounted .initial where
  once := by simp [custody, Controller.initial, ExecutorThread.holding]
  known := by simp [custody, Controller.initial, ExecutorThread.holding]

/-- No step copies a callback. It is moved from one place to another, and called at the end.
-/
theorem Accounted.step (h : Accounted before) (hEffect : Effect config before after) :
    Accounted after := by
  constructor
  · intro call
    have hLe := hEffect.custody_le call
    have hOnce := h.once call
    have hKnown := h.known call
    split at hLe
    case isTrue hNew =>
      have hZero := hKnown hNew.1.le
      omega
    case isFalse => omega
  · intro call hCall
    have hLe := hEffect.custody_le call
    have hLength : before.accepted.length ≤ call ∧
        (before.accepted.length = call → after.accepted = before.accepted) := by
      cases hEffect.accepted_eq with
      | inl hSame => simpa [hSame] using hCall
      | inr hMore =>
          obtain ⟨tx, hAppend⟩ := hMore
          simp only [hAppend, List.length_append, List.length_singleton] at hCall
          omega
    have hZero := h.known call hLength.1
    rw [if_neg (fun hNew => hNew.2 (hLength.2 hNew.1))] at hLe
    omega

/-- A batch that was not executed yet and entries that belong to it: the
transactions are those of its callers, and an entry points to its own call. -/
structure Holds (accepted : List CompactTx) (batch : Batch) (txs : List PendingTx) : Prop where
  start : batch.dtx.state = .start
  callers : batch.dtx.fullTxs.map some = batch.callers.map fun call => accepted[call]?
  entries : ∀ entry ∈ txs, batch.callers[entry.batchIdx]? = some entry.callback

namespace Holds

variable {accepted : List CompactTx} {batch : Batch} {txs : List PendingTx}

theorem new (accepted : List CompactTx) (dtxId : Hash) (shardRanges : List ShardRange) :
    Holds accepted (.new dtxId shardRanges) [] where
  start := rfl
  callers := rfl
  entries := by simp

theorem subset (h : Holds accepted batch txs) {fewer : List PendingTx} (hFewer : fewer ⊆ txs) :
    Holds accepted batch fewer :=
  ⟨h.start, h.callers, fun entry hEntry => h.entries entry (hFewer hEntry)⟩

/-- The callers of a batch were accepted, so later calls do not matter to it. -/
theorem append (h : Holds accepted batch txs) (more : List CompactTx) :
    Holds (accepted ++ more) batch txs := by
  refine ⟨h.start, ?_, h.entries⟩
  rw [h.callers]
  apply List.map_congr_left
  intro call hCall
  have hMem : accepted[call]? ∈ batch.dtx.fullTxs.map some := by
    rw [h.callers]
    exact List.mem_map_of_mem hCall
  obtain ⟨tx, _, hTx⟩ := List.mem_map.mp hMem
  rw [← hTx, List.getElem?_append_left (List.getElem?_eq_some_iff.mp hTx.symm).1, hTx]

theorem length_eq (h : Holds accepted batch txs) :
    batch.dtx.fullTxs.length = batch.callers.length := by
  simpa using congrArg List.length h.callers

/-- `add_tx` and the new entry of the map fit together. -/
theorem addTx (h : Holds accepted batch txs) (tx : CompactTx) :
    Holds (accepted ++ [tx]) (batch.addTx tx accepted.length).1
      (txs ++ [⟨tx.id, accepted.length, (batch.addTx tx accepted.length).2⟩]) := by
  refine ⟨h.start, ?_, ?_⟩
  · simp [Batch.addTx, DistributedTx.addTx, (h.append [tx]).callers]
  · simp only [Batch.addTx, DistributedTx.addTx, List.mem_append, List.mem_singleton]
    intro entry hEntry
    cases hEntry with
    | inl hOld =>
        have hCaller := h.entries entry hOld
        rw [List.getElem?_append_left (List.getElem?_eq_some_iff.mp hCaller).1, hCaller]
    | inr hNew => simp [hNew, h.length_eq]

end Holds

/-- A caller's transaction stands at its place in the batch. -/
theorem Holds.getElem?_fullTxs {accepted : List CompactTx} {batch : Batch}
    {txs : List PendingTx} (h : Holds accepted batch txs) {idx call : Nat}
    (hCall : batch.callers[idx]? = some call) :
    ∃ tx, batch.dtx.fullTxs[idx]? = some tx ∧ accepted[call]? = some tx := by
  have hAt := congrArg (fun txs : List (Option CompactTx) => txs[idx]?) h.callers
  simp only [List.getElem?_map, hCall, Option.map_some] at hAt
  obtain ⟨tx, hTx, hSome⟩ := Option.map_eq_some_iff.mp hAt
  exact ⟨tx, hTx, hSome.symm⟩

/-- An execution that returned decisions returned one for each transaction. -/
theorem length_of_execute {dtx : DistributedTx} {env : DistributedTx.Env}
    {out : DistributedTx.Outcome (Option (List Bool))} {decision : List Bool}
    (hState : dtx.state = .start) (h : dtx.execute env = .ok out)
    (hResult : out.result = some decision) : decision.length = dtx.fullTxs.length := by
  have hCombine := (DistributedTx.execute_eq_some (Or.inr hState) h hResult).1
  simpa using (DistributedTx.gather_eq_some hCombine).1

/-- The batches and maps in every hand fit together, and the result an execution
has is one that `execute` of its batch returned. -/
structure Coherent (controller : Controller) : Prop where
  current : ∀ batch txs, controller.currentBatch = some batch →
    controller.currentTxs = some txs → Holds controller.accepted batch txs
  executor : ∀ batch txs, controller.executor.holding = some (batch, txs) →
    Holds controller.accepted batch txs
  executions : ∀ execution ∈ controller.executions,
    Holds controller.accepted execution.batch execution.txs
  results : ∀ execution ∈ controller.executions, ∀ res, execution.res = some res →
    ∃ env out, execution.batch.dtx.execute env = .ok out ∧ out.result = res

theorem coherent_initial : Coherent .initial where
  current := by simp [Controller.initial]
  executor := by simp [Controller.initial, ExecutorThread.holding]
  executions := by simp [Controller.initial]
  results := by simp [Controller.initial]

/-- The batch and the map of callbacks are swapped together, and stay together until the
end. -/
theorem Coherent.step (h : Coherent before) (hEffect : Effect config before after) :
    Coherent after := by
  cases hEffect with
  | idle running => exact ⟨h.current, h.executor, h.executions, h.results⟩
  | added tx batch txs hBatch hTxs =>
      refine ⟨?_, ?_, ?_, h.results⟩
      · intro other entries hOther hEntries
        cases hOther
        cases hEntries
        exact (h.current batch txs hBatch hTxs).addTx tx
      · intro other entries hOther
        exact (h.executor other entries hOther).append [tx]
      · intro execution hExecution
        exact (h.executions execution hExecution).append [tx]
  | made dtxId hExecutor =>
      refine ⟨h.current, ?_, h.executions, h.results⟩
      intro other entries hOther
      cases hOther
      exact Holds.new _ _ _
  | swapped newBatch batch txs hExecutor hBatch hTxs =>
      refine ⟨?_, ?_, h.executions, h.results⟩
      · intro other entries hOther hEntries
        cases hOther
        cases hEntries
        exact h.executor newBatch [] (by rw [hExecutor]; rfl)
      · intro other entries hOther
        cases hOther
        exact h.current batch txs hBatch hTxs
  | scheduled batch txs hExecutor =>
      refine ⟨h.current, by simp [ExecutorThread.holding], ?_, ?_⟩
      · exact Slots.forall_mem_concat h.executions
          (h.executor batch txs (by rw [hExecutor]; rfl))
      · exact Slots.forall_mem_concat h.results (by simp)
  | ended hExecutor =>
      exact ⟨h.current, by simp [ExecutorThread.holding], h.executions, h.results⟩
  | executed place env batch txs out hPlace hExecute =>
      have hOld := h.executions _ (List.mem_of_getElem? hPlace)
      refine ⟨h.current, h.executor, Slots.forall_mem_set h.executions hOld, ?_⟩
      apply Slots.forall_mem_set h.results
      intro res hRes
      cases hRes
      exact ⟨env, out, hExecute, rfl⟩
  | calledBack place next batch res txs entry hPlace hNext =>
      have hMem := List.mem_of_getElem? hPlace
      have hFewer : Holds before.accepted batch (txs.eraseIdx next) :=
        (h.executions _ hMem).subset List.eraseIdx_subset
      have hResult := h.results _ hMem
      exact ⟨h.current, h.executor, Slots.forall_mem_set h.executions hFewer,
        Slots.forall_mem_set h.results hResult⟩
  | started dtxId hExecutor =>
      refine ⟨?_, by simp [ExecutorThread.holding], h.executions, h.results⟩
      intro other entries hOther hEntries
      cases hOther
      cases hEntries
      exact Holds.new _ _ _

/-- The execution has decided the transaction that the call added to its batch,
and the value is that decision. -/
def Decided (accepted : List CompactTx) (call : Nat) (value : Bool) (execution : Execution) :
    Prop :=
  ∃ (idx : Nat) (tx : CompactTx) (decision : List Bool), accepted[call]? = some tx ∧
    execution.batch.callers[idx]? = some call ∧ execution.batch.dtx.fullTxs[idx]? = some tx ∧
    execution.res = some (some decision) ∧ decision[idx]? = some value ∧
    ∃ env out, execution.batch.dtx.execute env = .ok out ∧ out.result = some decision

/-- The callback of an entry gets the decision for the entry's own call. -/
theorem decided_of_txRes {accepted : List CompactTx} {batch : Batch} {res : Option (List Bool)}
    {txs rest : List PendingTx} {entry : PendingTx} {value : Bool}
    (hHolds : Holds accepted batch txs) (hEntry : entry ∈ txs)
    (hRes : ∃ env out, batch.dtx.execute env = .ok out ∧ out.result = res)
    (hValue : Controller.txRes res entry = some value) :
    Decided accepted entry.callback value ⟨batch, some res, rest⟩ := by
  obtain ⟨decision, rfl, hDecision⟩ := Option.map_eq_some_iff.mp hValue
  obtain ⟨env, out, hExecute, hResult⟩ := hRes
  have hCaller := hHolds.entries entry hEntry
  obtain ⟨tx, hFull, hAccepted⟩ := hHolds.getElem?_fullTxs hCaller
  have hLt : entry.batchIdx < decision.length := by
    rw [length_of_execute hHolds.start hExecute hResult]
    exact (List.getElem?_eq_some_iff.mp hFull).1
  have hAt : decision[entry.batchIdx]? = some value := by
    rw [← hDecision, List.getD_eq_getElem?_getD, List.getElem?_eq_getElem hLt, Option.getD_some]
  exact ⟨entry.batchIdx, tx, decision, hAccepted, hCaller, hFull, rfl, hAt, env, out, hExecute,
    hResult⟩

theorem Decided.append {accepted : List CompactTx} {call : Nat} {value : Bool}
    {execution : Execution} (h : Decided accepted call value execution) (tx : CompactTx) :
    Decided (accepted ++ [tx]) call value execution := by
  obtain ⟨idx, own, decision, hAccepted, hRest⟩ := h
  refine ⟨idx, own, decision, ?_, hRest⟩
  rw [List.getElem?_append_left (List.getElem?_eq_some_iff.mp hAccepted).1, hAccepted]

/-- Every value a callback was called with is the decision for its own call. -/
def Answered (controller : Controller) : Prop :=
  ∀ call value, (call, some value) ∈ controller.invoked →
    ∃ execution ∈ controller.executions, Decided controller.accepted call value execution

/-- A callback is called with the value at the index that its transaction has in the batch.
-/
theorem Answered.step (h : Answered before) (hCoherent : Coherent before)
    (hEffect : Effect config before after) : Answered after := by
  intro call value hInvoked
  cases hEffect with
  | added tx batch txs hBatch hTxs =>
      obtain ⟨execution, hExecution, hDecided⟩ := h call value hInvoked
      exact ⟨execution, hExecution, hDecided.append tx⟩
  | scheduled batch txs hExecutor =>
      obtain ⟨execution, hExecution, hDecided⟩ := h call value hInvoked
      exact ⟨execution, List.mem_append_left _ hExecution, hDecided⟩
  | executed place env batch txs out hPlace hExecute =>
      apply Slots.exists_mem_set hPlace ?_ (h call value hInvoked)
      rintro ⟨_, _, _, _, _, _, hRes, _⟩
      cases hRes
  | calledBack place next batch res txs entry hPlace hNext =>
      cases List.mem_append.mp hInvoked with
      | inl hOld => exact Slots.exists_mem_set hPlace id (h call value hOld)
      | inr hNew =>
          obtain ⟨rfl, hValue⟩ := Prod.mk.inj (List.mem_singleton.mp hNew)
          have hMem := List.mem_of_getElem? hPlace
          have hLt := (List.getElem?_eq_some_iff.mp hPlace).1
          exact ⟨_, List.mem_set hLt _, decided_of_txRes (hCoherent.executions _ hMem)
            (List.mem_of_getElem? hNext) (hCoherent.results _ hMem res rfl) hValue.symm⟩
  | _ => exact h call value hInvoked

/-- In every interleaving a callback is called at most once, only for a call that
was accepted, and with no other value than the decision of the execution of the
batch that holds the call's transaction. -/
theorem callbacks_answer_own_call {events : List Event}
    (hRun : run (step config) .initial events = some controller) :
    (∀ call, (controller.invoked.countP fun answer => answer.1 = call) ≤ 1) ∧
      ∀ call res, (call, res) ∈ controller.invoked →
        call < controller.accepted.length ∧ ∀ value, res = some value →
          ∃ execution ∈ controller.executions,
            Decided controller.accepted call value execution := by
  have hAccounted : Accounted controller :=
    run_invariant accounted_initial (fun _ _ _ h hStep => h.step (effect_of_step hStep)) hRun
  have hAnswered : Coherent controller ∧ Answered controller := by
    refine run_invariant (motive := fun controller => Coherent controller ∧ Answered controller)
      ⟨coherent_initial, by simp [Answered, Controller.initial]⟩ ?_ hRun
    intro before event after h hStep
    have hEffect := effect_of_step hStep
    exact ⟨h.1.step hEffect, h.2.step h.1 hEffect⟩
  have hCount : ∀ call, (controller.invoked.countP fun answer => answer.1 = call) ≤
      custody controller call := fun call => Nat.le_add_left _ _
  refine ⟨fun call => (hCount call).trans (hAccounted.once call), ?_⟩
  intro call res hInvoked
  constructor
  · by_contra hUnknown
    have hZero := hAccounted.known call (Nat.le_of_not_lt hUnknown)
    have hOne : 0 < controller.invoked.countP fun answer => answer.1 = call :=
      List.countP_pos_iff.mpr ⟨(call, res), hInvoked, by simp⟩
    have hLe := hCount call
    omega
  · intro value hValue
    rw [hValue] at hInvoked
    exact hAnswered.2 call value hInvoked

def oneShard : Config := ⟨.unused, .noAttestations, 2, [(0, 255)]⟩

/-- Shards that answer the lock request with these flags and accept the rest. -/
def answering (flags : List Bool) : DistributedTx.Env :=
  ⟨none, none, none, none, fun _ _ _ => some flags, fun _ _ _ => true, fun _ _ => true⟩

def mint (byte : UInt8) : CompactTx := ⟨Hash.ofByte byte, [], [], ∅⟩

/-- The second call comes in while the executor thread is about to swap, the
third one repeats the first transaction, and the later batch finishes first. -/
def crossingRun : List Event :=
  [.start, .startExecutor (Hash.ofByte 10), .executeTransaction true (mint 1),
    .makeBatch (Hash.ofByte 11), .executeTransaction true (mint 2), .swapBatch,
    .executeTransaction true (mint 1), .scheduleExec, .makeBatch (Hash.ofByte 12), .swapBatch,
    .scheduleExec, .execute 1 (answering [false]), .execute 0 (answering [true, false]),
    .callBack 1 0, .callBack 0 1, .stop, .callBack 0 0, .endExecutor, .start]

theorem callbacks_answer_own_call_crossingRun :
    ∃ controller, run (step oneShard) .initial crossingRun = some controller ∧
      controller.invoked = [(2, some false), (1, some false), (0, some true)] ∧
      ∃ execution ∈ controller.executions,
        Decided controller.accepted 2 false execution := by
  have hTest : (run (step oneShard) .initial crossingRun).any (fun controller =>
      controller.invoked = [(2, some false), (1, some false), (0, some true)]) = true := by
    decide
  obtain ⟨controller, hRun, hInvoked⟩ := exists_run_of_test hTest
  have hInvoked := of_decide_eq_true hInvoked
  have hMem : (2, some false) ∈ controller.invoked := by simp [hInvoked]
  have hOwn := (callbacks_answer_own_call hRun).2 2 (some false) hMem
  exact ⟨controller, hRun, hInvoked, hOwn.2 false rfl⟩

end OpenCbdc.Batching
