import OpenCbdc.Coordinator.Replay
import OpenCbdc.Serialization.MessageTypes

/-! The replicated state machine of the coordinators as it stands in memory. It
reads the header of a command and keeps the bytes behind it as they are; a
leader that recovers decodes them from the answer to `get`. -/
namespace OpenCbdc

open Decoder Serialization TransitionSystem

/-- `state_machine::command`. -/
inductive CommandCode where
  | prepare
  | commit
  | discard
  | done
  | get
deriving DecidableEq

structure SmCommandHeader where
  comm : Wire.EnumValue CommandCode
  dtxId : Option Hash
deriving DecidableEq

namespace Serialization.Codec

def commandCode : Codec (Wire.EnumValue CommandCode) :=
  enumeration [.prepare, .commit, .discard, .done, .get] uint8

def smCommandHeader : Codec SmCommandHeader :=
  record commandCode (optional hash.toCodec) SmCommandHeader.mk SmCommandHeader.comm
    SmCommandHeader.dtxId fun _ => rfl

end Serialization.Codec

namespace SmCommand

/-- `m_header` of a command. -/
def header : SmCommand → SmCommandHeader
  | .prepare dtxId _ => ⟨.named .prepare, some dtxId⟩
  | .commit dtxId _ _ => ⟨.named .commit, some dtxId⟩
  | .discard dtxId => ⟨.named .discard, some dtxId⟩
  | .done dtxId => ⟨.named .done, some dtxId⟩
  | .get => ⟨.named .get, none⟩

def putData : SmCommand → Language UInt8
  | .prepare _ txs => (Codec.vector Codec.compactTx).put txs
  | .commit _ completeTxs txIdxs => Codec.commitTx.put (completeTxs, txIdxs)
  | _ => 1

/-- `operator<<` for a `sm_command`. -/
def put (command : SmCommand) : Language UInt8 :=
  Codec.smCommandHeader.put command.header * command.putData

def Fits : SmCommand → Prop
  | .prepare _ txs => (Codec.vector Codec.compactTx).Fits txs
  | .commit _ completeTxs txIdxs => Codec.commitTx.Fits (completeTxs, txIdxs)
  | _ => True

end SmCommand

/-- `state_machine::coordinator_state`, with the buffers it keeps. -/
structure BufferState where
  prepareTxs : Finmap fun _ : Hash => List UInt8
  commitTxs : Finmap fun _ : Hash => List UInt8
  discardTxs : Finset Hash

namespace BufferState

/-- How the state machine can fail on a command. -/
inductive Failure where
  | decoder (fault : Fault)
  | badOptionalAccess
  | fatal (fatal : CoordinatorState.Fatal)

def empty : BufferState := ⟨∅, ∅, ∅⟩

/-- `operator<<` for a map of buffers, which are written as they are. -/
def putBuffers (buffers : Finmap fun _ : Hash => List UInt8) : Language UInt8 :=
  putContainer (.table id) (fun entry : Hash × List UInt8 => Codec.hash.put entry.1 * {entry.2})
    buffers

/-- `operator<<` for a `coordinator_state`. -/
def put (state : BufferState) : Language UInt8 :=
  putBuffers state.prepareTxs * putBuffers state.commitTxs *
    (Codec.unorderedSet Codec.hash).put state.discardTxs

theorem exists_mem_putBuffers (buffers : Finmap fun _ : Hash => List UInt8) :
    ∃ bytes, bytes ∈ putBuffers buffers := by
  apply exists_mem_putContainer
  · intro key data _
    exact ⟨(key, data), rfl⟩
  · intro entry _
    exact exists_mem_mul (Codec.hash.writable entry.1 trivial) ⟨_, rfl⟩

/-- The state can always be written. -/
theorem exists_mem_put (state : BufferState) : ∃ bytes, bytes ∈ state.put :=
  exists_mem_mul
    (exists_mem_mul (exists_mem_putBuffers state.prepareTxs)
      (exists_mem_putBuffers state.commitTxs))
    ((Codec.unorderedSet Codec.hash).writable state.discardTxs ⟨trivial, fun _ _ => trivial⟩)

/-- The switch of `state_machine::commit`, with the bytes behind the header. Only
`get` has an answer, which is one of these byte strings. -/
def process (state : BufferState) (header : SmCommandHeader) (data : List UInt8) :
    Except Failure (BufferState × Option (Language UInt8)) :=
  match header.comm, header.dtxId with
  | .named .get, _ => .ok (state, some state.put)
  | .unnamed _, _ => .ok (state, none)
  | .named .prepare, some dtxId =>
      if dtxId ∈ state.prepareTxs then .error (.fatal (.duplicatePrepare dtxId))
      else .ok ({ state with prepareTxs := Table.emplace state.prepareTxs dtxId data }, none)
  | .named .commit, some dtxId =>
      if dtxId ∈ state.prepareTxs then
        .ok ({ state with
          prepareTxs := state.prepareTxs.erase dtxId
          commitTxs := Table.emplace state.commitTxs dtxId data }, none)
      else .error (.fatal (.prepareNotFound dtxId))
  | .named .discard, some dtxId =>
      if dtxId ∈ state.commitTxs then
        .ok ({ state with
          commitTxs := state.commitTxs.erase dtxId
          discardTxs := insert dtxId state.discardTxs }, none)
      else .error (.fatal (.commitNotFound dtxId))
  | .named .done, some dtxId =>
      if dtxId ∈ state.discardTxs then
        .ok ({ state with discardTxs := state.discardTxs.erase dtxId }, none)
      else .error (.fatal (.discardNotFound dtxId))
  | .named _, none => .error .badOptionalAccess

def commit (state : BufferState) (data : Buffer) :
    Except Failure (BufferState × Option (Language UInt8)) :=
  match Codec.smCommandHeader.get (Reader.ofBuffer data) with
  | .ok header after => state.process header after.rest
  | .error fault _ => .error (.decoder fault)

/-- A command as a transition of the running state machine. -/
def step (state : BufferState) (data : Buffer) : Option BufferState :=
  match state.commit data with
  | .error _ => none
  | .ok result => some result.1

end BufferState

section Refinement

variable {state : BufferState} {typed : CoordinatorState} {command : SmCommand}

/-- The header of every command can be written. -/
theorem SmCommand.header_fits (command : SmCommand) :
    Codec.smCommandHeader.Fits command.header := by
  have hCode : ∀ code : CommandCode, Codec.commandCode.Fits (.named code) := by
    intro code
    have hLt : Enumeration.toCode [.prepare, .commit, .discard, .done, .get]
        (Wire.EnumValue.named code) < 256 ^ 1 := by cases code <;> decide
    exact ⟨by cases code <;> simp [Enumeration.Valid], hLt⟩
  cases command with
  | prepare dtxId txs => exact ⟨hCode _, fun _ _ => trivial⟩
  | commit dtxId completeTxs txIdxs => exact ⟨hCode _, fun _ _ => trivial⟩
  | discard dtxId => exact ⟨hCode _, fun _ _ => trivial⟩
  | done dtxId => exact ⟨hCode _, fun _ _ => trivial⟩
  | get => exact ⟨hCode _, fun _ _ => trivial⟩

/-- The state machine finds the header and the data that the leader has written. -/
theorem BufferState.commit_eq_process {data : Buffer} (h : data.bytes ∈ command.put)
    (state : BufferState) :
    ∃ tail ∈ command.putData, state.commit data = state.process command.header tail := by
  obtain ⟨first, hFirst, tail, hTail, hBytes⟩ := Language.mem_mul.mp h
  obtain ⟨after, hGet, _, hRest⟩ := Codec.smCommandHeader.reads command.header
    command.header_fits first hFirst (Reader.ofBuffer data) tail rfl hBytes.symm
  refine ⟨tail, hTail, ?_⟩
  rw [BufferState.commit, hGet]
  simp [hRest]

def Encodes {α : Type} (codec : Codec α) (bytes : List UInt8) (value : α) : Prop :=
  bytes ∈ codec.put value ∧ codec.Fits value

/-- The buffers of the state machine hold the values of the typed one. -/
structure BufferState.Refines (state : BufferState) (typed : CoordinatorState) : Prop where
  prepareTxs : Table.Related (Encodes (Codec.vector Codec.compactTx)) state.prepareTxs
    typed.prepareTxs
  commitTxs : Table.Related (Encodes Codec.commitTx.toCodec) state.commitTxs typed.commitTxs
  discardTxs : state.discardTxs = typed.discardTxs

/-- A command that the state machine accepts is accepted by the typed one, and
leaves both with the same values. -/
theorem BufferState.Refines.step {data : Buffer} {next : BufferState} (h : state.Refines typed)
    (hFits : command.Fits) (hData : data.bytes ∈ command.put)
    (hStep : state.step data = some next) :
    ∃ nextTyped, typed.step command = some nextTyped ∧ next.Refines nextTyped := by
  obtain ⟨tail, hTail, hCommit⟩ := BufferState.commit_eq_process hData state
  rw [BufferState.step, hCommit] at hStep
  cases command with
  | prepare dtxId txs =>
      by_cases hIn : dtxId ∈ state.prepareTxs
      · simp [SmCommand.header, BufferState.process, hIn] at hStep
      · have hTyped : dtxId ∉ typed.prepareTxs := mt (h.prepareTxs.mem_iff dtxId).mpr hIn
        simp only [SmCommand.header, BufferState.process, hIn, if_false] at hStep
        cases hStep
        simp only [CoordinatorState.step, CoordinatorState.commit, hTyped, if_false]
        exact ⟨_, rfl, h.prepareTxs.emplace dtxId ⟨hTail, hFits⟩, h.commitTxs, h.discardTxs⟩
  | commit dtxId completeTxs txIdxs =>
      by_cases hIn : dtxId ∈ state.prepareTxs
      · have hTyped : dtxId ∈ typed.prepareTxs := (h.prepareTxs.mem_iff dtxId).mp hIn
        simp only [SmCommand.header, BufferState.process, hIn, if_true] at hStep
        cases hStep
        simp only [CoordinatorState.step, CoordinatorState.commit, hTyped, if_true]
        exact ⟨_, rfl, h.prepareTxs.erase dtxId, h.commitTxs.emplace dtxId ⟨hTail, hFits⟩,
          h.discardTxs⟩
      · simp [SmCommand.header, BufferState.process, hIn] at hStep
  | discard dtxId =>
      by_cases hIn : dtxId ∈ state.commitTxs
      · have hTyped : dtxId ∈ typed.commitTxs := (h.commitTxs.mem_iff dtxId).mp hIn
        simp only [SmCommand.header, BufferState.process, hIn, if_true] at hStep
        cases hStep
        simp only [CoordinatorState.step, CoordinatorState.commit, hTyped, if_true]
        exact ⟨_, rfl, h.prepareTxs, h.commitTxs.erase dtxId, by rw [h.discardTxs]⟩
      · simp [SmCommand.header, BufferState.process, hIn] at hStep
  | done dtxId =>
      by_cases hIn : dtxId ∈ state.discardTxs
      · have hTyped : dtxId ∈ typed.discardTxs := h.discardTxs ▸ hIn
        simp only [SmCommand.header, BufferState.process, hIn, if_true] at hStep
        cases hStep
        simp only [CoordinatorState.step, CoordinatorState.commit, hTyped, if_true]
        exact ⟨_, rfl, h.prepareTxs, h.commitTxs, by rw [h.discardTxs]⟩
      · simp [SmCommand.header, BufferState.process, hIn] at hStep
  | get =>
      simp only [SmCommand.header, BufferState.process] at hStep
      cases hStep
      exact ⟨typed, rfl, h⟩

/-- What is written element by element can be exchanged element by element. -/
theorem mem_prod_of_mem_prod {α : Type} {first second : α → Language UInt8} {values : List α}
    {bytes : List UInt8} (h : ∀ value ∈ values, ∀ piece ∈ first value, piece ∈ second value)
    (hBytes : bytes ∈ (values.map first).prod) : bytes ∈ (values.map second).prod := by
  induction values generalizing bytes with
  | nil => exact hBytes
  | cons value values ih =>
      rw [List.map_cons, List.prod_cons] at hBytes ⊢
      obtain ⟨before, hBefore, after, hAfter, rfl⟩ := Language.mem_mul.mp hBytes
      exact Language.append_mem_mul (h value (by simp) before hBefore)
        (ih (fun other hOther => h other (by simp [hOther])) hAfter)

/-- A map of buffers is written like the map of the values in them. -/
theorem mem_put_of_mem_putBuffers {α : Type} [Inhabited α] {element : Element α}
    {hMax : Codec.hash.sizeof + element.sizeof ≤ maximumReservation}
    {buffers : Finmap fun _ : Hash => List UInt8} {values : Finmap fun _ : Hash => α}
    (h : Table.Related (Encodes element.toCodec) buffers values) {bytes : List UInt8}
    (hBytes : bytes ∈ BufferState.putBuffers buffers) :
    bytes ∈ (Codec.unorderedMap Codec.hash element hMax).put values := by
  obtain ⟨order, hOrder, hWritten⟩ := hBytes
  let typedEntry : Hash × List UInt8 → Hash × α := fun entry =>
    (entry.1, (values.lookup entry.1).getD default)
  have hEntry : ∀ entry ∈ order, values.lookup entry.1 = some (typedEntry entry).2 ∧
      Encodes element.toCodec entry.2 (typedEntry entry).2 := by
    intro entry hIn
    have hLookup : buffers.lookup entry.1 = some entry.2 :=
      (Collection.table id).mem_of_order buffers order hOrder entry hIn
    obtain ⟨value, hValue, hEncodes⟩ := h.exists_of_lookup hLookup
    have hTyped : (typedEntry entry).2 = value := by simp [typedEntry, hValue]
    rw [hTyped]
    exact ⟨hValue, hEncodes⟩
  have hTypedOrder : (Collection.table id).Order values (order.map typedEntry) :=
    Collection.order_map_of_related h hOrder fun entry hIn => ⟨rfl, (hEntry entry hIn).1⟩
  refine ⟨order.map typedEntry, hTypedOrder, ?_⟩
  rw [Collection.size_eq _ hOrder] at hWritten
  rw [Collection.size_eq _ hTypedOrder, List.length_map, List.map_map]
  obtain ⟨size, hSize, body, hBody, rfl⟩ := Language.mem_mul.mp hWritten
  refine Language.append_mem_mul hSize (mem_prod_of_mem_prod ?_ hBody)
  intro entry hIn piece hPiece
  obtain ⟨key, hKey, tail, hTail, rfl⟩ := Language.mem_mul.mp hPiece
  obtain rfl : tail = entry.2 := hTail
  exact Language.append_mem_mul hKey (hEntry entry hIn).2.1

theorem BufferState.Refines.fits (h : state.Refines typed) :
    Codec.coordinatorState.Fits typed := by
  refine ⟨⟨Collection.proper_table_id _, ?_⟩, ⟨Collection.proper_table_id _, ?_⟩, trivial,
    fun _ _ => trivial⟩
  · intro entry hLookup
    obtain ⟨_, _, hEncodes⟩ := h.prepareTxs.exists_of_lookup_right hLookup
    exact ⟨trivial, hEncodes.2⟩
  · intro entry hLookup
    obtain ⟨_, _, hEncodes⟩ := h.commitTxs.exists_of_lookup_right hLookup
    exact ⟨trivial, hEncodes.2⟩

/-- The answer to `get` is what would be written for the typed state. -/
theorem BufferState.Refines.mem_put (h : state.Refines typed) {bytes : List UInt8}
    (hBytes : bytes ∈ state.put) : bytes ∈ Codec.coordinatorState.put typed := by
  obtain ⟨tables, hTables, discards, hDiscards, rfl⟩ := Language.mem_mul.mp hBytes
  obtain ⟨prepares, hPrepares, commits, hCommits, rfl⟩ := Language.mem_mul.mp hTables
  rw [h.discardTxs] at hDiscards
  have hPrepared : Table.Related (Encodes ((Codec.vector Codec.compactTx).element 24 (by decide)
      (by decide) (by decide)).toCodec) state.prepareTxs typed.prepareTxs := h.prepareTxs
  exact Language.append_mem_mul (Language.append_mem_mul
    (mem_put_of_mem_putBuffers hPrepared hPrepares)
    (mem_put_of_mem_putBuffers h.commitTxs hCommits)) hDiscards

end Refinement

/-- The buffers hold these commands, as some leader has written them. -/
def Written (commands : List SmCommand) (log : List Buffer) : Prop :=
  List.Forall₂ (fun command data => command.Fits ∧ data.bytes ∈ SmCommand.put command) commands
    log

/-- Over the bytes the state machine goes the same way as over the commands they encode. -/
theorem refines_of_run {commands : List SmCommand} {log : List Buffer} {state : BufferState}
    {start : BufferState} {typed : CoordinatorState} (hStart : start.Refines typed)
    (hWritten : Written commands log) (hRun : run BufferState.step start log = some state) :
    ∃ finish, run CoordinatorState.step typed commands = some finish ∧ state.Refines finish := by
  induction hWritten generalizing start typed with
  | nil =>
      cases hRun
      exact ⟨typed, rfl, hStart⟩
  | cons hCommand _ ih =>
      obtain ⟨next, hStep, hRest⟩ := Option.bind_eq_some_iff.mp hRun
      obtain ⟨nextTyped, hTyped, hNext⟩ := hStart.step hCommand.1 hCommand.2 hStep
      obtain ⟨finish, hFinish, hRefines⟩ := ih hNext hRest
      exact ⟨finish, by rw [run, hTyped]; exact hFinish, hRefines⟩

/-- A leader that decodes the answer to its `get` sees the dtxs of every phase
with the data that was replicated for them, and nothing else. -/
theorem recovery_decodes_replicated {commands : List SmCommand} {log : List Buffer}
    {state : BufferState} (hWritten : Written commands log)
    (hRun : run BufferState.step .empty log = some state) :
    ∃ recovered, CoordinatorState.replay commands = some recovered ∧
      CoordinatorState.Traced commands recovered ∧
      ∀ request : Buffer, request.bytes ∈ SmCommand.put .get →
        ∃ replies, state.commit request = .ok (state, some replies) ∧ (∃ bytes, bytes ∈ replies) ∧
          ∀ reply : Buffer, reply.bytes ∈ replies →
            fromBuffer .coordinatorState reply = .ok (some recovered) := by
  have hStart : BufferState.empty.Refines CoordinatorState.empty :=
    ⟨Table.related_empty _, Table.related_empty _, rfl⟩
  obtain ⟨recovered, hReplay, hRefines⟩ := refines_of_run hStart hWritten hRun
  refine ⟨recovered, hReplay, CoordinatorState.replay_traced hReplay, ?_⟩
  intro request hRequest
  obtain ⟨tail, _, hCommit⟩ := BufferState.commit_eq_process hRequest state
  refine ⟨state.put, hCommit, state.exists_mem_put, ?_⟩
  intro reply hReply
  have hFits : (MessageType.codec .coordinatorState).Fits recovered := hRefines.fits
  exact (fromBuffer_of_mem hFits (hRefines.mem_put hReply) (List.append_nil _).symm).1

def preparedCommand : SmCommand := .prepare (Hash.ofByte 1) [.unattested (Hash.ofByte 2) [] []]

def preparedBytes : List UInt8 :=
  putInteger 1 0 ++ (putInteger 1 1 ++ putArray (Hash.ofByte 1)) ++
    (putUInt64 1 ++ (putArray (Hash.ofByte 2) ++ putUInt64 0 ++ putUInt64 0 ++ putUInt64 0))

theorem preparedBytes_mem : preparedBytes ∈ preparedCommand.put := by
  have hHeader : putInteger 1 0 ++ (putInteger 1 1 ++ putArray (Hash.ofByte 1)) ∈
      Codec.smCommandHeader.put preparedCommand.header :=
    Language.append_mem_mul rfl (Language.append_mem_mul rfl rfl)
  have hHashes : putUInt64 0 ∈ (Codec.vector Codec.hash).put [] := mem_putContainer_nil rfl
  have hAttestations : putUInt64 0 ∈ Codec.attestations.put ∅ := mem_putContainer_nil rfl
  have hTx := Language.append_mem_mul (Language.append_mem_mul (Language.append_mem_mul
    (Set.mem_singleton (putArray (Hash.ofByte 2))) hHashes) hHashes) hAttestations
  exact Language.append_mem_mul hHeader (mem_putContainer_singleton rfl hTx)

def preparedLog : List Buffer := [⟨preparedBytes, by decide⟩]

theorem preparedLog_written : Written [preparedCommand] preparedLog := by
  have hFits : preparedCommand.Fits := ⟨trivial, fun tx _ => Codec.compactTx_fits tx⟩
  exact .cons ⟨hFits, preparedBytes_mem⟩ .nil

theorem recovery_decodes_replicated_prepared :
    ∃ state recovered, run BufferState.step .empty preparedLog = some state ∧
      CoordinatorState.replay [preparedCommand] = some recovered ∧
      ∀ request : Buffer, request.bytes ∈ SmCommand.put .get →
        ∃ replies, state.commit request = .ok (state, some replies) ∧ (∃ bytes, bytes ∈ replies) ∧
          ∀ reply : Buffer, reply.bytes ∈ replies →
            fromBuffer .coordinatorState reply = .ok (some recovered) := by
  have hTest : (run BufferState.step .empty preparedLog).isSome = true := by decide +kernel
  obtain ⟨state, hRun⟩ := Option.isSome_iff_exists.mp hTest
  obtain ⟨recovered, hReplay, _, hGet⟩ := recovery_decodes_replicated preparedLog_written hRun
  exact ⟨state, recovered, hRun, hReplay, hGet⟩

end OpenCbdc
