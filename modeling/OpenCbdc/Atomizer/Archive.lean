import OpenCbdc.Atomizer.Archiver
import OpenCbdc.Library.Run
import OpenCbdc.Library.Slots

/-! The state machine of the atomizers and the archivers that copy its blocks.
Blocks reach an archiver by the broadcast or as the answer to a request. Both
kinds of messages and the requests of the archivers stay deliverable for ever
and any number of times, and need never be delivered. -/
namespace OpenCbdc

open TransitionSystem

/-- The block store with the archivers. `published` holds the broadcasts, so
every block that was ever made, and `answered` the answers to `get_block`. -/
structure ArchiveSystem where
  sm : AtomizerStateMachine
  archivers : List Archiver
  published : List Block
  answered : List Block
  requests : List AtomizerStateMachine.Request

namespace ArchiveSystem

def initial (stxoCacheDepth archiverCount : Nat) : ArchiveSystem :=
  { sm := .initial stxoCacheDepth
    archivers := List.replicate archiverCount .initial
    published := []
    answered := []
    requests := [] }

/-- Only archivers ask to prune. -/
def Requested (system : ArchiveSystem) : AtomizerStateMachine.Request → Prop
  | .prune height => .prune height ∈ system.requests
  | .aggregateTxNotify _ | .makeBlock | .getBlock _ => True

instance (system : ArchiveSystem) :
    (request : AtomizerStateMachine.Request) → Decidable (system.Requested request)
  | .prune height => inferInstanceAs (Decidable (.prune height ∈ system.requests))
  | .aggregateTxNotify _ | .makeBlock | .getBlock _ => isTrue trivial

/-- What the leader sends to the archivers: a made block to all, a requested
block to the one that asked. -/
def send (system : ArchiveSystem) : Option AtomizerStateMachine.Response → ArchiveSystem
  | some (.makeBlock blk _) => { system with published := system.published ++ [blk] }
  | some (.getBlock blk) => { system with answered := system.answered ++ [blk] }
  | some (.errors _) | none => system

/-- The state machine processes the next request of the log. -/
def commit (system : ArchiveSystem) (request : AtomizerStateMachine.Request) :
    Option ArchiveSystem :=
  if system.Requested request then
    match system.sm.commit request with
    | .error _ => none
    | .ok (sm, response) => some ({ system with sm := sm }.send response)
  else none

def deliver (system : ArchiveSystem) (id : Nat) (blk : Block) : Option ArchiveSystem :=
  match system.archivers[id]? with
  | none => none
  | some archiver =>
      if blk ∈ system.published ∨ blk ∈ system.answered then
        some { system with
          archivers := system.archivers.set id (archiver.digestBlock blk).1
          requests := system.requests ++ (archiver.digestBlock blk).2 }
      else none

/-- An archiver loses what is not in its database. -/
def restart (system : ArchiveSystem) (id : Nat) : Option ArchiveSystem :=
  match system.archivers[id]? with
  | none => none
  | some archiver => some { system with archivers := system.archivers.set id archiver.restart }

inductive Event where
  | commit (request : AtomizerStateMachine.Request)
  | deliver (archiver : Nat) (blk : Block)
  | restart (archiver : Nat)

def step (system : ArchiveSystem) : Event → Option ArchiveSystem
  | .commit request => system.commit request
  | .deliver archiver blk => system.deliver archiver blk
  | .restart archiver => system.restart archiver

/-- The state after an event, as far as blocks and archivers are concerned, with
the guards that the event has passed. -/
inductive Effect (system : ArchiveSystem) : Event → ArchiveSystem → Prop where
  | notify {aggTxs : List AggregateTxNotification} {sm : AtomizerStateMachine}
      (height : sm.atomizer.bestHeight = system.sm.atomizer.bestHeight)
      (blocks : sm.blocks = system.sm.blocks) :
      Effect system (.commit (.aggregateTxNotify aggTxs)) { system with sm := sm }
  | makeBlock {sm : AtomizerStateMachine} {blk : Block}
      (blkHeight : blk.height = system.sm.atomizer.bestHeight + 1)
      (height : sm.atomizer.bestHeight = system.sm.atomizer.bestHeight + 1)
      (blocks : sm.blocks = Table.emplace system.sm.blocks blk.height blk) :
      Effect system (.commit .makeBlock)
        { system with sm := sm, published := system.published ++ [blk] }
  | getBlock {blockHeight : Nat} {blk : Block}
      (found : system.sm.blocks.lookup blockHeight = some blk) :
      Effect system (.commit (.getBlock blockHeight))
        { system with answered := system.answered ++ [blk] }
  | missing {blockHeight : Nat} : Effect system (.commit (.getBlock blockHeight)) system
  | prune {blockHeight : Nat} {sm : AtomizerStateMachine}
      (requested : .prune blockHeight ∈ system.requests)
      (height : sm.atomizer.bestHeight = system.sm.atomizer.bestHeight)
      (blocks : sm.blocks = Table.filterValues
        (fun blk => !decide (blk.height < blockHeight)) system.sm.blocks) :
      Effect system (.commit (.prune blockHeight)) { system with sm := sm }
  | deliver {id : Nat} {blk : Block} {archiver : Archiver}
      (found : system.archivers[id]? = some archiver)
      (sent : blk ∈ system.published ∨ blk ∈ system.answered) :
      Effect system (.deliver id blk)
        { system with
          archivers := system.archivers.set id (archiver.digestBlock blk).1
          requests := system.requests ++ (archiver.digestBlock blk).2 }
  | restart {id : Nat} {archiver : Archiver} (found : system.archivers[id]? = some archiver) :
      Effect system (.restart id)
        { system with archivers := system.archivers.set id archiver.restart }

variable {system next : ArchiveSystem} {event : Event}

/-- Every accepted event has one of these effects. -/
theorem effect_of_step (h : system.step event = some next) : Effect system event next := by
  cases event with
  | commit request =>
      simp only [step, commit] at h
      split at h
      case isFalse => cases h
      case isTrue hRequested =>
          split at h
          · cases h
          case h_2 sm response hCommit =>
              cases h
              cases request with
              | aggregateTxNotify aggTxs =>
                  simp only [AtomizerStateMachine.commit] at hCommit
                  split at hCommit
                  · cases hCommit
                  case h_2 atomizer errs hInsert =>
                      obtain ⟨rfl, rfl⟩ := Prod.mk.inj (Except.ok.inj hCommit)
                      have hHeight := AtomizerStateMachine.insertAll_bestHeight hInsert
                      by_cases hErrs : errs = []
                      · rw [if_pos hErrs]
                        exact .notify hHeight rfl
                      · rw [if_neg hErrs]
                        exact .notify hHeight rfl
              | makeBlock =>
                  cases hCommit
                  exact .makeBlock rfl rfl rfl
              | getBlock blockHeight =>
                  cases hCommit
                  cases hBlock : system.sm.blocks.lookup blockHeight with
                  | none => exact .missing
                  | some blk => exact .getBlock hBlock
              | prune blockHeight =>
                  cases hCommit
                  exact .prune hRequested rfl rfl
  | deliver id blk =>
      simp only [step, deliver] at h
      split at h
      · cases h
      case h_2 archiver hFound =>
          split at h
          case isTrue hSent =>
              cases h
              exact .deliver hFound hSent
          case isFalse => cases h
  | restart id =>
      simp only [step, restart] at h
      split at h
      · cases h
      case h_2 archiver hFound =>
          cases h
          exact .restart hFound

/-- The blocks made so far form a chain, the store and the messages hold
blocks of it only, each archiver follows it, and no archiver has asked to prune
more than it has stored. -/
structure Archived (system : ArchiveSystem) : Prop where
  heights : system.published.map Block.height = List.range' 1 system.sm.atomizer.bestHeight
  store : ∀ height blk, system.sm.blocks.lookup height = some blk →
    blk ∈ system.published ∧ blk.height = height
  answered : ∀ blk ∈ system.answered, blk ∈ system.published
  follows : ∀ archiver ∈ system.archivers, archiver.Follows system.published
  settled : ∀ archiver ∈ system.archivers, archiver.Settled
  pruned : ∀ height, .prune height ∈ system.requests →
    ∃ archiver ∈ system.archivers, height ≤ archiver.bestHeight
  kept : ∀ blk ∈ system.published, system.sm.blocks.lookup blk.height = some blk ∨
    ∃ archiver ∈ system.archivers, blk.height ≤ archiver.bestHeight

namespace Archived

theorem initial (stxoCacheDepth archiverCount : Nat) :
    Archived (.initial stxoCacheDepth archiverCount) where
  heights := rfl
  store := by simp [ArchiveSystem.initial, AtomizerStateMachine.initial]
  answered := by simp [ArchiveSystem.initial]
  follows := by
    intro archiver hArchiver
    rw [List.eq_of_mem_replicate hArchiver]
    exact Archiver.follows_initial
  settled := by
    intro archiver hArchiver
    rw [List.eq_of_mem_replicate hArchiver]
    exact Archiver.settled_initial
  pruned := by simp [ArchiveSystem.initial]
  kept := by simp [ArchiveSystem.initial]

theorem length_published (h : Archived system) :
    system.published.length = system.sm.atomizer.bestHeight := by
  simpa using congrArg List.length h.heights

/-- The chain is numbered from height 1. -/
theorem chain (h : Archived system) :
    system.published.map Block.height = List.range' 1 system.published.length := by
  rw [h.heights, h.length_published]

theorem sent_mem_published (h : Archived system) {blk : Block}
    (hSent : blk ∈ system.published ∨ blk ∈ system.answered) : blk ∈ system.published :=
  hSent.elim id (h.answered blk)

/-- The store has no block of the next height yet. -/
theorem lookup_next (h : Archived system) {height : Nat}
    (hHeight : height = system.sm.atomizer.bestHeight + 1) :
    system.sm.blocks.lookup height = none := by
  rw [Finmap.lookup_eq_none]
  intro hMem
  obtain ⟨old, hOld⟩ := Finmap.mem_iff.mp hMem
  obtain ⟨hPublished, hKey⟩ := h.store _ _ hOld
  have hRange : old.height ∈ List.range' 1 system.sm.atomizer.bestHeight :=
    h.heights ▸ List.mem_map_of_mem hPublished
  have hUpper := (List.mem_range'_1.mp hRange).2
  omega

/-- A block of the next height continues the chain. -/
theorem makeBlock (h : Archived system) {sm : AtomizerStateMachine} {blk : Block}
    (hBlk : blk.height = system.sm.atomizer.bestHeight + 1)
    (hHeight : sm.atomizer.bestHeight = system.sm.atomizer.bestHeight + 1)
    (hBlocks : sm.blocks = Table.emplace system.sm.blocks blk.height blk) :
    Archived { system with sm := sm, published := system.published ++ [blk] } := by
  have hUnused := h.lookup_next hBlk
  refine ⟨?_, ?_, ?_, ?_, h.settled, h.pruned, ?_⟩
  · rw [List.map_append, h.heights, hHeight, List.range'_1_concat, List.map_singleton, hBlk,
      Nat.add_comm]
  · intro height old hLookup
    rw [hBlocks] at hLookup
    rcases Table.of_lookup_emplace hLookup with ⟨rfl, rfl⟩ | hStored
    · exact ⟨List.mem_append_right _ (List.mem_singleton_self _), rfl⟩
    · obtain ⟨hPublished, hKey⟩ := h.store height old hStored
      exact ⟨List.mem_append_left _ hPublished, hKey⟩
  · exact fun old hOld => List.mem_append_left _ (h.answered old hOld)
  · intro archiver hArchiver
    exact (h.follows archiver hArchiver).concat (h.length_published ▸ hBlk)
  · intro old hOld
    rw [hBlocks]
    rcases List.mem_append.mp hOld with hPublished | hLast
    · exact (h.kept old hPublished).imp_left (Table.lookup_emplace_of_lookup _ _)
    · rw [List.mem_singleton.mp hLast]
      exact Or.inl (Table.lookup_emplace_self _ hUnused)

/-- What is pruned is in the database of the archiver that asked for it. -/
theorem prune (h : Archived system) {sm : AtomizerStateMachine} {blockHeight : Nat}
    (hRequested : .prune blockHeight ∈ system.requests)
    (hHeight : sm.atomizer.bestHeight = system.sm.atomizer.bestHeight)
    (hBlocks : sm.blocks = Table.filterValues
      (fun blk => !decide (blk.height < blockHeight)) system.sm.blocks) :
    Archived { system with sm := sm } := by
  refine ⟨hHeight ▸ h.heights, ?_, h.answered, h.follows, h.settled, h.pruned, ?_⟩
  · intro height blk hLookup
    rw [hBlocks, Table.lookup_filterValues] at hLookup
    exact h.store height blk hLookup.1
  · intro blk hBlk
    rcases h.kept blk hBlk with hLookup | hArchived
    · by_cases hBelow : blk.height < blockHeight
      · obtain ⟨archiver, hArchiver, hStored⟩ := h.pruned blockHeight hRequested
        exact Or.inr ⟨archiver, hArchiver, by omega⟩
      · refine Or.inl ?_
        rw [hBlocks, Table.lookup_filterValues]
        exact ⟨hLookup, by simpa using hBelow⟩
    · exact Or.inr hArchived

/-- An archiver has made progress along the chain. -/
theorem replace (h : Archived system) {id : Nat} {archiver : Archiver}
    {after : Archiver × List AtomizerStateMachine.Request}
    (hFound : system.archivers[id]? = some archiver)
    (hAfter : Archiver.Digested system.published archiver after) :
    Archived { system with
      archivers := system.archivers.set id after.1
      requests := system.requests ++ after.2 } := by
  have hGrows : ∀ height, height ≤ archiver.bestHeight → height ≤ after.1.bestHeight :=
    fun _ hHeight => hHeight.trans hAfter.grows
  refine ⟨h.heights, h.store, h.answered, ?_, ?_, ?_, ?_⟩
  · exact Slots.forall_mem_set h.follows hAfter.follows
  · exact Slots.forall_mem_set h.settled hAfter.settled
  · intro height hPrune
    rcases List.mem_append.mp hPrune with hOld | hNew
    · exact Slots.exists_mem_set hFound (hGrows height) (h.pruned height hOld)
    · have hLt := (List.getElem?_eq_some_iff.mp hFound).1
      exact ⟨after.1, List.mem_set hLt _, hAfter.pruned height hNew⟩
  · intro blk hBlk
    exact (h.kept blk hBlk).imp_right (Slots.exists_mem_set hFound (hGrows blk.height))

/-- A restart is no step back, since the database is as far as the archiver. -/
theorem digested_restart {chain : List Block} {archiver : Archiver}
    (h : archiver.Follows chain) : Archiver.Digested chain archiver (archiver.restart, []) where
  follows := h.restart
  settled := archiver.settled_restart
  grows := h.best.le
  pruned := by simp

/-- Every event keeps the chain, the store and the archivers in agreement. -/
theorem step (h : Archived system) (hStep : system.step event = some next) : Archived next := by
  cases effect_of_step hStep with
  | notify height blocks =>
      exact ⟨height ▸ h.heights, blocks ▸ h.store, h.answered, h.follows, h.settled, h.pruned,
        blocks ▸ h.kept⟩
  | makeBlock blkHeight height blocks => exact h.makeBlock blkHeight height blocks
  | getBlock found =>
      refine ⟨h.heights, h.store, ?_, h.follows, h.settled, h.pruned, h.kept⟩
      exact Slots.forall_mem_concat h.answered (h.store _ _ found).1
  | missing => exact h
  | prune requested height blocks => exact h.prune requested height blocks
  | deliver found sent =>
      have hMem := List.mem_of_getElem? found
      exact h.replace found ((h.follows _ hMem).digestBlock (h.settled _ hMem) h.chain
        (h.sent_mem_published sent))
  | restart found =>
      have hRestart := h.replace found (digested_restart (h.follows _ (List.mem_of_getElem? found)))
      simpa using hRestart

theorem run {stxoCacheDepth archiverCount : Nat} {events : List Event}
    (hRun : run ArchiveSystem.step (.initial stxoCacheDepth archiverCount) events =
      some system) : Archived system :=
  run_invariant (Archived.initial stxoCacheDepth archiverCount)
    (fun _ _ _ => Archived.step) hRun

end Archived

/-- One block was made for each height up to the best one, and each of them is
in the store or in the database of an archiver as it was made. -/
theorem no_block_lost {stxoCacheDepth archiverCount : Nat} {events : List Event}
    (hRun : run step (.initial stxoCacheDepth archiverCount) events =
      some system) :
    system.published.map Block.height = List.range' 1 system.sm.atomizer.bestHeight ∧
    ∀ blk ∈ system.published, system.sm.blocks.lookup blk.height = some blk ∨
      ∃ archiver ∈ system.archivers, archiver.getBlock blk.height = some blk := by
  have h := Archived.run hRun
  refine ⟨h.heights, fun blk hBlk => (h.kept blk hBlk).imp_right ?_⟩
  rintro ⟨archiver, hArchiver, hHeight⟩
  exact ⟨archiver, hArchiver, (h.follows archiver hArchiver).stored blk hBlk hHeight⟩

/-- Two empty blocks reach the archiver in the wrong order, and its last prune
request is served. -/
def prunedRun : List Event :=
  [.commit .makeBlock, .commit .makeBlock, .deliver 0 ⟨2, []⟩, .commit (.getBlock 1),
    .deliver 0 ⟨1, []⟩, .commit (.prune 2)]

theorem no_block_lost_prunedRun :
    ∃ system, run step (.initial 1 1) prunedRun = some system ∧
      system.sm.blocks.lookup 1 = none ∧
      system.published.map Block.height = List.range' 1 system.sm.atomizer.bestHeight ∧
      ∀ blk ∈ system.published, system.sm.blocks.lookup blk.height = some blk ∨
        ∃ archiver ∈ system.archivers, archiver.getBlock blk.height = some blk := by
  have hTest : (run step (.initial 1 1) prunedRun).any
      (fun system => decide (system.sm.blocks.lookup 1 = none)) = true := by decide
  obtain ⟨system, hRun, hPruned⟩ := exists_run_of_test hTest
  exact ⟨system, hRun, of_decide_eq_true hPruned, no_block_lost hRun⟩

end ArchiveSystem
end OpenCbdc
