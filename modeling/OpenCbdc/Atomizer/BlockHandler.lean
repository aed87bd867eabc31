import OpenCbdc.Atomizer.Shard
import OpenCbdc.Library.Reach
import OpenCbdc.Watchtower.Watchtower

/-! The handlers of a block from an atomizer. A shard or watchtower that has missed
blocks asks the archiver for them, and asks again as long as it gets no answer. -/
namespace OpenCbdc

open Reach

/-- `archiver::client` as the handlers see it: the answer to each request, by its
number and the height that is asked for. Every block up to the top exists, and is
returned by some later request whenever it is asked for. -/
structure ArchiverClient where
  chain : Nat → Block
  top : Nat
  getBlock : Nat → Nat → Option Block
  heights : ∀ i, (chain i).height = i
  sound : ∀ request i blk, getBlock request i = some blk → blk = chain i
  fair : ∀ request i, 0 < i → i ≤ top → ∃ later ≥ request, getBlock later i = some (chain i)

/-- The blocks above one height, up to another one. -/
def ArchiverClient.between (client : ArchiverClient) (above upTo : Nat) : List Block :=
  (List.range' (above + 1) (upTo - above)).map client.chain

theorem ArchiverClient.between_of_le (client : ArchiverClient) {above upTo : Nat}
    (h : upTo ≤ above) : client.between above upTo = [] := by
  rw [between, Nat.sub_eq_zero_of_le h]
  rfl

theorem ArchiverClient.between_succ (client : ArchiverClient) {above i : Nat} (h : above ≤ i) :
    client.between above (i + 1) = client.between above i ++ [client.chain (i + 1)] := by
  have hLast : above + 1 + (i - above) = i + 1 := by omega
  rw [between, between, Nat.succ_sub h, List.range'_1_concat, List.map_append, hLast]
  rfl

/-- A block that exists is received, if it is asked for until it is. -/
theorem ArchiverClient.leadsTo_answered (client : ArchiverClient) {State : Type}
    {step : State → State} {asking : Nat → State → Prop} {received : State → Prop} {i : Nat}
    (hPositive : 0 < i) (hTop : i ≤ client.top)
    (hAnswered : ∀ request state, asking request state →
      client.getBlock request i = some (client.chain i) → received (step state))
    (hUnanswered : ∀ request state, asking request state →
      client.getBlock request i = none → asking (request + 1) (step state)) (request : Nat) :
    LeadsTo step (asking request) received := by
  apply LeadsTo.retry
  · intro request state hAsking
    cases hAnswer : client.getBlock request i with
    | none => exact Or.inr (hUnanswered request state hAsking hAnswer)
    | some blk =>
        rw [client.sound request i blk hAnswer] at hAnswer
        exact Or.inl (hAnswered request state hAsking hAnswer)
  · intro request
    obtain ⟨later, hLater, hAnswer⟩ := client.fair request i hPositive hTop
    exact ⟨later, hLater, fun state hAsking => hAnswered later state hAsking hAnswer⟩

namespace ShardController

/-- Where a call of the handler is: at the condition of the outer loop, or at the
condition of the inner one. -/
inductive Phase where
  | digest
  | fetch (i : Nat)
  | done
deriving DecidableEq

/-- A call of `shard::controller::atomizer_handler`, with the number of requests it
has made and the blocks that were digested during it. -/
structure Call where
  shard : Shard
  phase : Phase
  requests : Nat
  digested : List Block

def Call.new (shard : Shard) : Call :=
  { shard := shard, phase := .digest, requests := 0, digested := [] }

/-- One round of the outer or of the inner loop of
`shard::controller::atomizer_handler`. -/
def atomizerHandler (client : ArchiverClient) (blk : Block) (call : Call) : Call :=
  match call.phase with
  | .digest =>
      let (shard, digested) := call.shard.digestBlock blk
      if digested then
        { call with shard := shard, phase := .done, digested := call.digested ++ [blk] }
      else { call with shard := shard, phase := .fetch (shard.bestBlockHeight + 1) }
  | .fetch i =>
      if i < blk.height then
        match client.getBlock call.requests i with
        | some pastBlk =>
            let (shard, digested) := call.shard.digestBlock pastBlk
            { shard := shard
              phase := .fetch (i + 1)
              requests := call.requests + 1
              digested := if digested then call.digested ++ [pastBlk] else call.digested }
        -- The index is decremented before the loop increments it.
        | none => { call with requests := call.requests + 1 }
      else { call with phase := .digest }
  | .done => call

/-- The handler ends, has digested the missing blocks in order, and has the best
height that results. -/
def CatchesUp (client : ArchiverClient) (shard : Shard) (height : Nat) : Prop :=
  ∃ call, Reaches (atomizerHandler client (client.chain height)) (Call.new shard) call ∧
    call.phase = .done ∧
    call.digested = client.between shard.bestBlockHeight height ∧
    call.shard.bestBlockHeight = max shard.bestBlockHeight height

section Progress

variable {client : ArchiverClient} {above height i : Nat} {call : Call}

/-- The shard has digested the blocks below a height, and no others. -/
structure Digested (client : ArchiverClient) (above i : Nat) (call : Call) : Prop where
  best : call.shard.bestBlockHeight + 1 = i
  digested : call.digested = client.between above call.shard.bestBlockHeight
  after : above < i

/-- The inner loop is at a height, with some requests made. -/
structure Fetching (client : ArchiverClient) (above i request : Nat) (call : Call) : Prop where
  requests : call.requests = request
  phase : call.phase = .fetch i
  digested : Digested client above i call

/-- The same, whatever the number of requests. -/
def AtHeight (client : ArchiverClient) (above i : Nat) (call : Call) : Prop :=
  ∃ request, Fetching client above i request call

theorem Digested.digestBlock (h : Digested client above i call) :
    (call.shard.digestBlock (client.chain i)).2 = true ∧
    (call.shard.digestBlock (client.chain i)).1.bestBlockHeight = i ∧
    call.digested ++ [client.chain i] = client.between above i := by
  obtain ⟨rfl, hDigested, hAfter⟩ := h
  rw [Shard.digestBlock, if_pos (client.heights _), hDigested,
    client.between_succ (Nat.le_of_lt_succ hAfter)]
  exact ⟨rfl, rfl, rfl⟩

/-- An answered request takes the loop one block further. -/
theorem Fetching.answered {request : Nat} (h : Fetching client above i request call)
    (hBefore : i < height) (hAnswer : client.getBlock request i = some (client.chain i)) :
    Fetching client above (i + 1) (request + 1)
      (atomizerHandler client (client.chain height) call) := by
  obtain ⟨rfl, hPhase, hDigested⟩ := h
  obtain ⟨hOk, hBest, hBlocks⟩ := hDigested.digestBlock
  have hStep : atomizerHandler client (client.chain height) call =
      { shard := (call.shard.digestBlock (client.chain i)).1
        phase := .fetch (i + 1)
        requests := call.requests + 1
        digested := call.digested ++ [client.chain i] } := by
    simp only [atomizerHandler, hPhase, client.heights, hBefore, if_true, hAnswer, hOk]
  rw [hStep]
  refine ⟨rfl, rfl, congrArg Nat.succ hBest, ?_, Nat.lt_succ_of_lt hDigested.after⟩
  show call.digested ++ [client.chain i] = client.between above _
  rw [hBest, hBlocks]

theorem Fetching.unanswered {request : Nat} (h : Fetching client above i request call)
    (hBefore : i < height) (hAnswer : client.getBlock request i = none) :
    Fetching client above i (request + 1)
      (atomizerHandler client (client.chain height) call) := by
  obtain ⟨rfl, hPhase, hDigested⟩ := h
  have hStep : atomizerHandler client (client.chain height) call =
      { call with requests := call.requests + 1 } := by
    simp only [atomizerHandler, hPhase, client.heights, hBefore, if_true, hAnswer]
  rw [hStep]
  exact ⟨rfl, hPhase, hDigested.best, hDigested.digested, hDigested.after⟩

/-- The block that comes next is fetched, however often it must be asked for. -/
theorem leadsTo_fetched (hAfter : above < i) (hBefore : i < height) (hTop : height ≤ client.top) :
    LeadsTo (atomizerHandler client (client.chain height))
      (AtHeight client above i)
      (AtHeight client above (i + 1)) := by
  rintro call ⟨request, hFetching⟩
  exact client.leadsTo_answered (Nat.zero_lt_of_lt hAfter) (by omega)
    (fun request call h hAnswer => ⟨request + 1, h.answered hBefore hAnswer⟩)
    (fun request call h hAnswer => h.unanswered hBefore hAnswer) request call hFetching

/-- A block that comes next is digested at once. -/
theorem leadsTo_done :
    LeadsTo (atomizerHandler client (client.chain height))
      (fun call => call.phase = .digest ∧ Digested client above height call)
      (fun call => call.phase = .done ∧ call.digested = client.between above height ∧
        call.shard.bestBlockHeight = height) := by
  apply LeadsTo.of_step
  rintro call ⟨hPhase, hDigested⟩
  obtain ⟨hOk, hBest, hBlocks⟩ := hDigested.digestBlock
  simp only [atomizerHandler, hPhase, hOk, if_true]
  exact ⟨trivial, hBlocks, hBest⟩

/-- A block from further ahead is digested after those in between. -/
theorem leadsTo_digest (hGap : above + 1 < height) (hTop : height ≤ client.top) :
    LeadsTo (atomizerHandler client (client.chain height))
      (fun call => call.phase = .digest ∧ Digested client above (above + 1) call)
      (fun call => call.phase = .digest ∧ Digested client above height call) := by
  have hFetch : LeadsTo (atomizerHandler client (client.chain height))
      (fun call => call.phase = .digest ∧ Digested client above (above + 1) call)
      (AtHeight client above (above + 1)) := by
    apply LeadsTo.of_step
    rintro call ⟨hPhase, hBest, hDigested, hAfter⟩
    have hRefused : call.shard.digestBlock (client.chain height) = (call.shard, false) := by
      rw [Shard.digestBlock, if_neg]
      rw [client.heights]
      omega
    simp only [atomizerHandler, hPhase, hRefused, Bool.false_eq_true, if_false]
    exact ⟨call.requests, rfl, congrArg Phase.fetch hBest, hBest, hDigested, hAfter⟩
  have hStages : LeadsTo (atomizerHandler client (client.chain height))
      (AtHeight client above (above + 1))
      (AtHeight client above height) :=
    LeadsTo.stages (Nat.le_of_lt hGap) fun i hFrom hTo => leadsTo_fetched hFrom hTo hTop
  refine (hFetch.trans hStages).trans (LeadsTo.of_step ?_)
  rintro call ⟨request, _, hPhase, hDigested⟩
  simp only [atomizerHandler, hPhase, client.heights, Nat.lt_irrefl, if_false]
  exact ⟨trivial, hDigested.best, hDigested.digested, hDigested.after⟩

theorem digested_new (client : ArchiverClient) (shard : Shard) :
    Digested client shard.bestBlockHeight (shard.bestBlockHeight + 1) (Call.new shard) where
  best := rfl
  digested := (client.between_of_le (Nat.le_refl _)).symm
  after := Nat.lt_succ_self _

/-- The shard is past the block: neither loop can end. -/
structure Past (height : Nat) (call : Call) : Prop where
  best : height ≤ call.shard.bestBlockHeight
  running : call.phase ≠ .done
  fetch : ∀ i, call.phase = .fetch i → height < i

/-- Once the shard is past the block, no round of the handler ends the call. -/
theorem Past.atomizerHandler {call : Call} (h : Past height call) :
    Past height (atomizerHandler client (client.chain height) call) := by
  obtain ⟨hBest, hRunning, hFetch⟩ := h
  have hRefused : call.shard.digestBlock (client.chain height) = (call.shard, false) := by
    rw [Shard.digestBlock, if_neg]
    rw [client.heights]
    omega
  cases hPhase : call.phase with
  | digest =>
      simp only [ShardController.atomizerHandler, hPhase, hRefused, Bool.false_eq_true, if_false]
      refine ⟨hBest, by simp, ?_⟩
      rintro i ⟨rfl⟩
      exact Nat.lt_succ_of_le hBest
  | fetch i =>
      have hPassed : ¬i < height := Nat.not_lt.mpr (Nat.le_of_lt (hFetch i hPhase))
      simp only [ShardController.atomizerHandler, hPhase, client.heights, hPassed, if_false]
      exact ⟨hBest, by simp, by simp⟩
  | done => exact absurd hPhase hRunning

/-- A block that is not newer than the shard's best one keeps the handler forever. -/
theorem never_done {shard : Shard} (hOld : height ≤ shard.bestBlockHeight)
    (h : Reaches (atomizerHandler client (client.chain height)) (Call.new shard) call) :
    call.phase ≠ .done := by
  have hStart : Past height (Call.new shard) := ⟨hOld, by simp [Call.new], by simp [Call.new]⟩
  have hPast : Past height call := h.invariant (fun _ => Past.atomizerHandler) hStart
  exact hPast.running

/-- The handler catches up exactly if the block is newer than what the shard has. -/
theorem catchesUp_iff (hTop : height ≤ client.top) (shard : Shard) :
    CatchesUp client shard height ↔ shard.bestBlockHeight < height := by
  constructor
  · rintro ⟨call, hReaches, hDone, _⟩
    by_contra hOld
    exact never_done (Nat.le_of_not_lt hOld) hReaches hDone
  · intro hNewer
    have hNext : LeadsTo (atomizerHandler client (client.chain height))
        (fun call => call.phase = .digest ∧
          Digested client shard.bestBlockHeight (shard.bestBlockHeight + 1) call)
        (fun call => call.phase = .digest ∧ Digested client shard.bestBlockHeight height call) := by
      rcases Nat.eq_or_lt_of_le hNewer with hEq | hGap
      · rw [← hEq]
        exact LeadsTo.refl _
      · exact leadsTo_digest hGap hTop
    obtain ⟨call, hReaches, hDone, hDigested, hBest⟩ :=
      hNext.trans leadsTo_done (Call.new shard) ⟨rfl, digested_new client shard⟩
    rw [CatchesUp, Nat.max_eq_right (Nat.le_of_lt hNewer)]
    exact ⟨call, hReaches, hDone, hDigested, hBest⟩

end Progress

end ShardController

/-- The part of `watchtower::controller` that follows the blocks. -/
structure WatchtowerController where
  watchtower : Watchtower
  lastBlkHeight : Nat

namespace WatchtowerController

def addBlock (controller : WatchtowerController) (blk : Block) : WatchtowerController :=
  { watchtower := controller.watchtower.addBlock blk, lastBlkHeight := blk.height }

/-- A call of `watchtower::controller::atomizer_handler`, with the number of requests
it has made and the blocks that were digested during it. -/
structure Call where
  controller : WatchtowerController
  done : Bool
  requests : Nat
  digested : List Block

def Call.new (controller : WatchtowerController) : Call :=
  { controller := controller, done := false, requests := 0, digested := [] }

/-- One round of the loop in `watchtower::controller::atomizer_handler`, or what
follows it. -/
def atomizerHandler (client : ArchiverClient) (blk : Block) (call : Call) : Call :=
  if call.done then call
  else if blk.height ≠ call.controller.lastBlkHeight + 1 then
    match client.getBlock call.requests (call.controller.lastBlkHeight + 1) with
    | some missedBlk =>
        { call with
          controller := call.controller.addBlock missedBlk
          requests := call.requests + 1
          digested := call.digested ++ [missedBlk] }
    | none => { call with requests := call.requests + 1 }
  else
    { call with
      controller := call.controller.addBlock blk
      done := true
      digested := call.digested ++ [blk] }

/-- The height of the controller is that of its watchtower. -/
def InStep (controller : WatchtowerController) : Prop :=
  controller.watchtower.bc.bestBlkHeight = controller.lastBlkHeight

/-- The handler ends, has digested the missing blocks in order, and has the best
height that results. -/
def CatchesUp (client : ArchiverClient) (controller : WatchtowerController) (height : Nat) :
    Prop :=
  ∃ call, Reaches (atomizerHandler client (client.chain height)) (Call.new controller) call ∧
    call.done = true ∧
    call.digested = client.between controller.lastBlkHeight height ∧
    call.controller.InStep ∧
    call.controller.lastBlkHeight = max controller.lastBlkHeight height

section Progress

variable {client : ArchiverClient} {above height i : Nat} {call : Call}

/-- The watchtower has the blocks below a height, and no others since the call, and
some requests are made. -/
structure Fetching (client : ArchiverClient) (above i request : Nat) (call : Call) : Prop where
  requests : call.requests = request
  running : call.done = false
  best : call.controller.lastBlkHeight + 1 = i
  digested : call.digested = client.between above call.controller.lastBlkHeight
  inStep : call.controller.InStep
  after : above < i

/-- The same, whatever the number of requests. -/
def AtHeight (client : ArchiverClient) (above i : Nat) (call : Call) : Prop :=
  ∃ request, Fetching client above i request call

theorem InStep.addBlock {controller : WatchtowerController} (h : controller.InStep) {blk : Block}
    (hNext : blk.height = controller.lastBlkHeight + 1) : (controller.addBlock blk).InStep := by
  show (controller.watchtower.bc.pushBlock blk).bestBlkHeight = blk.height
  rw [BlockCache.bestBlkHeight_pushBlock, h, hNext, Nat.max_eq_right (Nat.le_succ _)]

theorem Fetching.answered {request : Nat} (h : Fetching client above i request call)
    (hBefore : i < height) (hAnswer : client.getBlock request i = some (client.chain i)) :
    Fetching client above (i + 1) (request + 1)
      (atomizerHandler client (client.chain height) call) := by
  obtain ⟨rfl, hRunning, rfl, hDigested, hInStep, hAfter⟩ := h
  have hStep : atomizerHandler client (client.chain height) call =
      { call with
        controller :=
          call.controller.addBlock (client.chain (call.controller.lastBlkHeight + 1))
        requests := call.requests + 1
        digested := call.digested ++ [client.chain (call.controller.lastBlkHeight + 1)] } := by
    simp only [atomizerHandler, hRunning, Bool.false_eq_true, if_false, client.heights,
      (Nat.ne_of_lt hBefore).symm, ne_eq, not_false_eq_true, if_true, hAnswer]
  rw [hStep]
  refine ⟨rfl, hRunning, congrArg Nat.succ (client.heights _), ?_,
    hInStep.addBlock (client.heights _), Nat.lt_succ_of_lt hAfter⟩
  show call.digested ++ [client.chain _] = client.between above (client.chain _).height
  rw [client.heights, client.between_succ (Nat.le_of_lt_succ hAfter), hDigested]

theorem Fetching.unanswered {request : Nat} (h : Fetching client above i request call)
    (hBefore : i < height) (hAnswer : client.getBlock request i = none) :
    Fetching client above i (request + 1)
      (atomizerHandler client (client.chain height) call) := by
  obtain ⟨rfl, hRunning, rfl, hDigested, hInStep, hAfter⟩ := h
  have hStep : atomizerHandler client (client.chain height) call =
      { call with requests := call.requests + 1 } := by
    simp only [atomizerHandler, hRunning, Bool.false_eq_true, if_false, client.heights,
      (Nat.ne_of_lt hBefore).symm, ne_eq, not_false_eq_true, if_true, hAnswer]
  rw [hStep]
  exact ⟨rfl, hRunning, rfl, hDigested, hInStep, hAfter⟩

/-- The block that comes next is fetched, however often it must be asked for. -/
theorem leadsTo_fetched (hAfter : above < i) (hBefore : i < height) (hTop : height ≤ client.top) :
    LeadsTo (atomizerHandler client (client.chain height))
      (AtHeight client above i) (AtHeight client above (i + 1)) := by
  rintro call ⟨request, hFetching⟩
  exact client.leadsTo_answered (Nat.zero_lt_of_lt hAfter) (by omega)
    (fun request call h hAnswer => ⟨request + 1, h.answered hBefore hAnswer⟩)
    (fun request call h hAnswer => h.unanswered hBefore hAnswer) request call hFetching

theorem leadsTo_done :
    LeadsTo (atomizerHandler client (client.chain height)) (AtHeight client above height)
      (fun call => call.done = true ∧ call.digested = client.between above height ∧
        call.controller.InStep ∧ call.controller.lastBlkHeight = height) := by
  apply LeadsTo.of_step
  rintro call ⟨request, _, hRunning, rfl, hDigested, hInStep, hAfter⟩
  simp only [atomizerHandler, hRunning, Bool.false_eq_true, if_false, client.heights, ne_eq,
    not_true_eq_false]
  refine ⟨trivial, ?_, hInStep.addBlock (client.heights _), client.heights _⟩
  rw [client.between_succ (Nat.le_of_lt_succ hAfter), hDigested]

/-- The watchtower is past the block: the condition of the loop stays true. -/
structure Past (height : Nat) (call : Call) : Prop where
  best : height ≤ call.controller.lastBlkHeight
  running : call.done = false

theorem Past.atomizerHandler {call : Call} (h : Past height call) :
    Past height (atomizerHandler client (client.chain height) call) := by
  obtain ⟨hBest, hRunning⟩ := h
  have hNotNext : ¬height = call.controller.lastBlkHeight + 1 := by omega
  simp only [WatchtowerController.atomizerHandler, hRunning, Bool.false_eq_true, if_false,
    client.heights, ne_eq, hNotNext, not_false_eq_true, if_true]
  split
  case h_1 missedBlk hAnswer =>
      refine ⟨?_, rfl⟩
      show height ≤ missedBlk.height
      rw [client.sound _ _ _ hAnswer, client.heights]
      omega
  case h_2 => exact ⟨hBest, rfl⟩

/-- A block that is not newer than the last one keeps the handler forever. -/
theorem never_done {controller : WatchtowerController} (hOld : height ≤ controller.lastBlkHeight)
    (h : Reaches (atomizerHandler client (client.chain height)) (Call.new controller) call) :
    call.done = false := by
  have hStart : Past height (Call.new controller) := ⟨hOld, rfl⟩
  have hPast : Past height call := h.invariant (fun _ => Past.atomizerHandler) hStart
  exact hPast.running

theorem catchesUp_iff (hTop : height ≤ client.top) {controller : WatchtowerController}
    (hInStep : controller.InStep) :
    CatchesUp client controller height ↔ controller.lastBlkHeight < height := by
  constructor
  · rintro ⟨call, hReaches, hDone, _⟩
    by_contra hOld
    rw [never_done (Nat.le_of_not_lt hOld) hReaches] at hDone
    cases hDone
  · intro hNewer
    have hStart : AtHeight client controller.lastBlkHeight (controller.lastBlkHeight + 1)
        (Call.new controller) :=
      ⟨0, rfl, rfl, rfl, (client.between_of_le (Nat.le_refl _)).symm, hInStep,
        Nat.lt_succ_self _⟩
    have hStages : LeadsTo (atomizerHandler client (client.chain height))
        (AtHeight client controller.lastBlkHeight (controller.lastBlkHeight + 1))
        (AtHeight client controller.lastBlkHeight height) :=
      LeadsTo.stages hNewer fun i hFrom hTo => leadsTo_fetched hFrom hTo hTop
    obtain ⟨call, hReaches, hDone, hDigested, hAfter, hBest⟩ :=
      hStages.trans leadsTo_done (Call.new controller) hStart
    rw [CatchesUp, Nat.max_eq_right (Nat.le_of_lt hNewer)]
    exact ⟨call, hReaches, hDone, hDigested, hAfter, hBest⟩

end Progress

end WatchtowerController

/-- The handler of a shard and the handler of a watchtower catch up with a block if and
only if the block is newer than their best one. -/
theorem catches_up_iff_newer (client : ArchiverClient) (shard : Shard)
    (controller : WatchtowerController) (height : Nat) (hTop : height ≤ client.top)
    (hInStep : controller.InStep) :
    (ShardController.CatchesUp client shard height ↔ shard.bestBlockHeight < height) ∧
      (WatchtowerController.CatchesUp client controller height ↔
        controller.lastBlkHeight < height) :=
  ⟨ShardController.catchesUp_iff hTop shard, WatchtowerController.catchesUp_iff hTop hInStep⟩

/-- An archiver that has the blocks up to this height, and returns one at every other
request. -/
def slowClient (top : Nat) : ArchiverClient where
  chain i := ⟨i, []⟩
  top
  getBlock request i := if request % 2 = 1 ∧ i ≤ top then some ⟨i, []⟩ else none
  heights _ := rfl
  sound request i blk h := by
    split at h
    · exact (Option.some.inj h).symm
    · cases h
  fair request i _ hTop := ⟨2 * request + 1, by omega, if_pos ⟨by omega, hTop⟩⟩

def freshShard : Shard := Shard.openDb (0, 255) ∅

def freshController : WatchtowerController := ⟨Watchtower.new 0 0, 0⟩

/-- The third block comes first: the two before it are asked for, and each is refused
once. -/
theorem catches_up_two_missing :
    ShardController.CatchesUp (slowClient 3) freshShard 3 ∧
      WatchtowerController.CatchesUp (slowClient 3) freshController 3 := by
  have h := catches_up_iff_newer (slowClient 3) freshShard freshController 3 (Nat.le_refl 3) rfl
  exact ⟨h.1.mpr (Nat.succ_pos 2), h.2.mpr (Nat.succ_pos 2)⟩

/-- A block that arrives a second time keeps both handlers forever. -/
theorem repeated_block_never_done :
    (∀ call, Reaches (ShardController.atomizerHandler (slowClient 1) ⟨1, []⟩)
        (ShardController.Call.new (freshShard.digestBlock ⟨1, []⟩).1) call → call.phase ≠ .done) ∧
      ∀ call, Reaches (WatchtowerController.atomizerHandler (slowClient 1) ⟨1, []⟩)
        (WatchtowerController.Call.new (freshController.addBlock ⟨1, []⟩)) call →
          call.done = false := by
  constructor
  · intro call hReaches
    exact ShardController.never_done (Nat.le_refl 1) hReaches
  · intro call hReaches
    exact WatchtowerController.never_done (Nat.le_refl 1) hReaches

end OpenCbdc
