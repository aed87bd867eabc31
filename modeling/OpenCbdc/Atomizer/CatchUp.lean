import OpenCbdc.Atomizer.Archive

/-! Whether an archiver that lags behind can still get the block it needs next.
A prune request carries the progress of the archiver that sends it, and deletes
the blocks below for all of them. -/
namespace OpenCbdc.ArchiveSystem

open TransitionSystem

/-- Every archiver that lags behind finds its next block in the store or among
the blocks it has deferred. -/
def CanCatchUp (system : ArchiveSystem) : Prop :=
  ∀ archiver ∈ system.archivers, archiver.bestHeight < system.sm.atomizer.bestHeight →
    archiver.bestHeight + 1 ∈ system.sm.blocks ∨ archiver.bestHeight + 1 ∈ archiver.deferred

instance (system : ArchiveSystem) : Decidable system.CanCatchUp :=
  inferInstanceAs (Decidable (∀ archiver ∈ system.archivers, _ → _))

/-- A prune request is processed only when every archiver has stored what it
deletes. -/
def PrunesArchived (system : ArchiveSystem) : Event → Prop
  | .commit (.prune blockHeight) =>
      ∀ archiver ∈ system.archivers, blockHeight ≤ archiver.bestHeight + 1
  | .commit (.aggregateTxNotify _) | .commit .makeBlock | .commit (.getBlock _) => True
  | .deliver _ _ | .restart _ => True

instance (system : ArchiveSystem) : (event : Event) → Decidable (system.PrunesArchived event)
  | .commit (.prune blockHeight) => inferInstanceAs
      (Decidable (∀ archiver ∈ system.archivers, blockHeight ≤ archiver.bestHeight + 1))
  | .commit (.aggregateTxNotify _) | .commit .makeBlock | .commit (.getBlock _) => isTrue trivial
  | .deliver _ _ | .restart _ => isTrue trivial

/-- The store holds every block that some archiver still lacks. -/
def Retained (system : ArchiveSystem) : Prop :=
  ∀ archiver ∈ system.archivers, ∀ blk ∈ system.published,
    archiver.bestHeight < blk.height → system.sm.blocks.lookup blk.height = some blk

variable {system next : ArchiveSystem} {event : Event}

/-- Along the chain there is a block of every height. -/
theorem Archived.exists_published (h : Archived system) {height : Nat} (hPositive : 0 < height)
    (hHeight : height ≤ system.sm.atomizer.bestHeight) :
    ∃ blk ∈ system.published, blk.height = height := by
  have hRange : height ∈ system.published.map Block.height := by
    rw [h.heights, List.mem_range'_1]
    omega
  exact List.mem_map.mp hRange

theorem Retained.canCatchUp (h : Archived system) (hRetained : system.Retained) :
    system.CanCatchUp := by
  intro archiver hArchiver hBehind
  obtain ⟨blk, hBlk, hHeight⟩ := h.exists_published (Nat.succ_pos archiver.bestHeight) hBehind
  have hLookup := hRetained archiver hArchiver blk hBlk (by omega)
  rw [hHeight] at hLookup
  exact Or.inl (Finmap.mem_iff.mpr ⟨blk, hLookup⟩)

/-- An archiver that has made progress lacks no block that it did not lack
before. -/
theorem Retained.replace (h : system.Retained) {id : Nat} {archiver after : Archiver}
    {requests : List AtomizerStateMachine.Request} (hFound : system.archivers[id]? = some archiver)
    (hAfter : archiver.bestHeight ≤ after.bestHeight) :
    Retained { system with archivers := system.archivers.set id after, requests := requests } := by
  refine Slots.forall_mem_set h fun blk hBlk hLacking => ?_
  exact h archiver (List.mem_of_getElem? hFound) blk hBlk (hAfter.trans_lt hLacking)

/-- The only step that deletes blocks is a prune request, and the guard keeps it to blocks
that all have stored. -/
theorem Retained.step (hRetained : system.Retained) (h : Archived system)
    (hGuard : system.PrunesArchived event) (hStep : system.step event = some next) :
    next.Retained := by
  cases effect_of_step hStep with
  | notify height blocks =>
      intro archiver hArchiver blk hBlk hLacking
      rw [blocks]
      exact hRetained archiver hArchiver blk hBlk hLacking
  | @makeBlock sm made blkHeight height blocks =>
      intro archiver hArchiver blk hBlk hLacking
      rw [blocks]
      rcases List.mem_append.mp hBlk with hOld | hLast
      · exact Table.lookup_emplace_of_lookup _ _ (hRetained archiver hArchiver blk hOld hLacking)
      · rw [List.mem_singleton.mp hLast]
        exact Table.lookup_emplace_self _ (h.lookup_next blkHeight)
  | getBlock found => exact hRetained
  | missing => exact hRetained
  | prune requested height blocks =>
      intro archiver hArchiver blk hBlk hLacking
      have hReached := hGuard archiver hArchiver
      rw [blocks, Table.lookup_filterValues]
      refine ⟨hRetained archiver hArchiver blk hBlk hLacking, ?_⟩
      simp only [Bool.not_eq_true', decide_eq_false_iff_not]
      omega
  | deliver found sent =>
      have hMem := List.mem_of_getElem? found
      refine hRetained.replace found ?_
      exact ((h.follows _ hMem).digestBlock (h.settled _ hMem) h.chain
        (h.sent_mem_published sent)).grows
  | restart found =>
      exact hRetained.replace found (h.follows _ (List.mem_of_getElem? found)).best.le

theorem retained_initial (stxoCacheDepth archiverCount : Nat) :
    (initial stxoCacheDepth archiverCount).Retained := by
  simp [Retained, initial]

/-- A prune request that reaches further than some archiver leaves that one
without its next block. -/
theorem prunesArchived_of_canCatchUp (h : Archived system)
    (hStep : system.step event = some next) (hNext : next.CanCatchUp) :
    system.PrunesArchived event := by
  cases effect_of_step hStep with
  | @prune blockHeight sm requested height blocks =>
      intro archiver hArchiver
      by_contra hBeyond
      obtain ⟨ahead, hAhead, hStored⟩ := h.pruned blockHeight requested
      have hBounded := (h.follows ahead hAhead).bounded
      rw [h.length_published] at hBounded
      have hBehind : archiver.bestHeight < sm.atomizer.bestHeight := by
        rw [height]
        omega
      rcases hNext archiver hArchiver hBehind with hBlock | hDeferred
      · obtain ⟨blk, hLookup⟩ := Finmap.mem_iff.mp hBlock
        rw [blocks, Table.lookup_filterValues] at hLookup
        have hKey := (h.store _ _ hLookup.1).2
        have hKeep := hLookup.2
        simp only [Bool.not_eq_true', decide_eq_false_iff_not] at hKeep
        omega
      · exact h.settled archiver hArchiver hDeferred
  | notify | makeBlock | getBlock | missing | deliver | restart => trivial

/-- Archivers can catch up in every state that a run passes exactly when no
prune request of the run reaches further than some archiver. -/
theorem canCatchUp_iff_prunesArchived {stxoCacheDepth archiverCount : Nat} {events : List Event}
    (hRun : run step (.initial stxoCacheDepth archiverCount) events =
      some system) :
    (∀ before after state, events = before ++ after →
      run step (.initial stxoCacheDepth archiverCount) before = some state →
        state.CanCatchUp) ↔
    Guarded step (.initial stxoCacheDepth archiverCount) PrunesArchived
      events := by
  constructor
  · intro hAll before event after state hEvents hBefore
    rw [hEvents, List.append_cons] at hRun
    obtain ⟨next, hNext, _⟩ := run_prefix hRun
    obtain ⟨middle, hMiddle, hStep⟩ := (run_concat ..).mp hNext
    obtain rfl : state = middle := Option.some.inj (hBefore.symm.trans hMiddle)
    have hCanCatchUp := hAll (before ++ [event]) after next (by simp [hEvents]) hNext
    exact prunesArchived_of_canCatchUp (Archived.run hBefore) hStep hCanCatchUp
  · intro hGuard before after state hEvents hBefore
    subst hEvents
    have hRetained : Archived state ∧ state.Retained :=
      guarded_invariant
        (motive := fun state : ArchiveSystem => Archived state ∧ state.Retained)
        ⟨Archived.initial _ _, retained_initial _ _⟩
        (fun _ _ _ hInv hNow hStep => ⟨hInv.1.step hStep, hInv.2.step hInv.1 hNow hStep⟩)
        hBefore hGuard.of_append
    exact hRetained.2.canCatchUp hRetained.1

/-- The second archiver has missed both broadcasts when the first one asks to
prune what it has stored. -/
def laggingRun : List Event :=
  [.commit .makeBlock, .commit .makeBlock, .deliver 0 ⟨1, []⟩, .deliver 0 ⟨2, []⟩,
    .commit (.prune 2)]

/-- The first block is gone before the second archiver has asked for it. -/
theorem not_canCatchUp_laggingRun :
    ∃ system, run step (.initial 1 2) laggingRun = some system ∧
      ¬system.CanCatchUp := by
  have hTest : (run step (.initial 1 2) laggingRun).any
      (fun system => decide ¬system.CanCatchUp) = true := by decide
  obtain ⟨system, hRun, hLost⟩ := exists_run_of_test hTest
  exact ⟨system, hRun, of_decide_eq_true hLost⟩

/-- The same blocks, with the prune request served once both archivers have
them. -/
def patientRun : List Event :=
  [.commit .makeBlock, .commit .makeBlock, .deliver 0 ⟨1, []⟩, .deliver 0 ⟨2, []⟩,
    .deliver 1 ⟨2, []⟩, .deliver 1 ⟨1, []⟩, .commit (.prune 2)]

theorem canCatchUp_iff_prunesArchived_patientRun :
    ∃ system, run step (.initial 1 2) patientRun = some system ∧
      Guarded step (.initial 1 2) PrunesArchived patientRun ∧
      ∀ before after state, patientRun = before ++ after →
        run step (.initial 1 2) before = some state → state.CanCatchUp := by
  have hTest : (run step (.initial 1 2) patientRun).any
      (fun system => decide (system.sm.blocks.lookup 1 = none)) = true := by decide
  obtain ⟨system, hRun, _⟩ := exists_run_of_test hTest
  have hGuard : Guarded step (.initial 1 2) PrunesArchived patientRun := by decide
  exact ⟨system, hRun, hGuard, (canCatchUp_iff_prunesArchived hRun).mpr hGuard⟩

end OpenCbdc.ArchiveSystem
