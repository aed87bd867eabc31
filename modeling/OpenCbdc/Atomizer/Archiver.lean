import OpenCbdc.Atomizer.StateMachine

/-! The archiver: it writes blocks to its database in the order of their heights
and defers those that come too early. -/
namespace OpenCbdc

/-- `archiver::controller`. The database has an entry for every block, under its
height, and one for the best height. -/
structure Archiver where
  db : Finmap fun _ : Nat => Block
  dbBestHeight : Nat
  bestHeight : Nat
  deferred : Finmap fun _ : Nat => Block

namespace Archiver

/-- `init` with an empty database. -/
def initial : Archiver := { db := ∅, dbBestHeight := 0, bestHeight := 0, deferred := ∅ }

/-- `init` after the process was restarted: only the database is left. -/
def restart (archiver : Archiver) : Archiver :=
  { archiver with bestHeight := archiver.dbBestHeight, deferred := ∅ }

/-- The database entry for the best height is read as long as that is zero. -/
def readBestHeight (archiver : Archiver) : Archiver :=
  if archiver.bestHeight = 0 then { archiver with bestHeight := archiver.dbBestHeight }
  else archiver

/-- The block is kept until the one before it has been digested. -/
def defer (archiver : Archiver) (blk : Block) : Archiver :=
  { archiver with deferred := Table.emplace archiver.deferred blk.height blk }

/-- The write batch of a block that continues the database. -/
def store (archiver : Archiver) (blk : Block) : Archiver :=
  { db := archiver.db.insert blk.height blk
    dbBestHeight := blk.height
    bestHeight := archiver.bestHeight + 1
    deferred := archiver.deferred.erase blk.height }

/-- `digest_block` with a bound on the depth of its recursion, and the requests
it sends to the atomizer cluster. -/
def digestBlockWithin : Nat → Archiver → Block → Archiver × List AtomizerStateMachine.Request
  | 0, archiver, _ => (archiver, [])
  | depth + 1, archiver, blk =>
      let archiver := archiver.readBestHeight
      if blk.height ≤ archiver.bestHeight then (archiver, [])
      else if blk.height = archiver.bestHeight + 1 then
        match archiver.deferred.lookup (blk.height + 1) with
        | none => (archiver.store blk, [.prune (archiver.bestHeight + 1)])
        | some next =>
            let later := digestBlockWithin depth (archiver.store blk) next
            (later.1, .prune (archiver.bestHeight + 1) :: later.2)
      else
        (archiver.defer blk,
          if blk.height - 1 ∈ archiver.deferred then [] else [.getBlock (blk.height - 1)])

/-- `digest_block`. Every further call takes up a deferred block, so their
number bounds the recursion. -/
def digestBlock (archiver : Archiver) (blk : Block) :
    Archiver × List AtomizerStateMachine.Request :=
  digestBlockWithin (archiver.deferred.keys.card + 1) archiver blk

def getBlock (archiver : Archiver) (height : Nat) : Option Block := archiver.db.lookup height

/-- The archiver holds the beginning of a chain of blocks, and what it defers
comes from later in the chain. -/
structure Follows (chain : List Block) (archiver : Archiver) : Prop where
  best : archiver.bestHeight = archiver.dbBestHeight
  bounded : archiver.bestHeight ≤ chain.length
  stored : ∀ blk ∈ chain, blk.height ≤ archiver.bestHeight →
    archiver.getBlock blk.height = some blk
  deferred : ∀ height blk, archiver.deferred.lookup height = some blk →
    blk ∈ chain ∧ blk.height = height ∧ archiver.bestHeight < height

/-- Nothing is deferred that could be digested now. -/
def Settled (archiver : Archiver) : Prop := archiver.bestHeight + 1 ∉ archiver.deferred

theorem follows_initial : Follows [] initial where
  best := rfl
  bounded := Nat.le_refl 0
  stored := by simp
  deferred := by simp [initial]

theorem settled_initial : initial.Settled := Finmap.notMem_empty

theorem settled_restart (archiver : Archiver) : archiver.restart.Settled := Finmap.notMem_empty

section Digest

variable {chain : List Block} {archiver : Archiver} {blk : Block}

theorem readBestHeight_eq (h : archiver.bestHeight = archiver.dbBestHeight) :
    archiver.readBestHeight = archiver := by
  obtain ⟨db, dbBestHeight, bestHeight, deferred⟩ := archiver
  obtain rfl : bestHeight = dbBestHeight := h
  exact ite_self _

theorem Follows.restart (h : Follows chain archiver) : Follows chain archiver.restart where
  best := rfl
  bounded := h.best.symm.le.trans h.bounded
  stored other hOther hHeight := h.stored other hOther (hHeight.trans h.best.symm.le)
  deferred := by simp [Archiver.restart]

/-- A longer chain is still followed. -/
theorem Follows.concat (h : Follows chain archiver) (hNew : blk.height = chain.length + 1) :
    Follows (chain ++ [blk]) archiver where
  best := h.best
  bounded := by
    rw [List.length_append]
    exact h.bounded.trans (Nat.le_add_right _ _)
  stored := by
    intro other hOther hHeight
    rcases List.mem_append.mp hOther with hOld | hLast
    · exact h.stored other hOld hHeight
    · have hBounded := h.bounded
      rw [List.mem_singleton.mp hLast] at hHeight
      omega
  deferred := by
    intro height other hLookup
    obtain ⟨hMem, hRest⟩ := h.deferred height other hLookup
    exact ⟨List.mem_append_left _ hMem, hRest⟩

theorem Follows.defer (h : Follows chain archiver) (hBlk : blk ∈ chain)
    (hHeight : archiver.bestHeight < blk.height) : Follows chain (archiver.defer blk) where
  best := h.best
  bounded := h.bounded
  stored := h.stored
  deferred := by
    intro height other hLookup
    rcases Table.of_lookup_emplace hLookup with ⟨rfl, rfl⟩ | hKnown
    · exact ⟨hBlk, rfl, hHeight⟩
    · exact h.deferred height other hKnown

/-- The next block of the chain continues the database. -/
theorem Follows.store (h : Follows chain archiver)
    (hChain : chain.map Block.height = List.range' 1 chain.length) (hBlk : blk ∈ chain)
    (hHeight : blk.height = archiver.bestHeight + 1) : Follows chain (archiver.store blk) where
  best := hHeight.symm
  bounded := by
    have hRange : blk.height ∈ List.range' 1 chain.length := hChain ▸ List.mem_map_of_mem hBlk
    have hUpper := (List.mem_range'_1.mp hRange).2
    simp only [Archiver.store]
    omega
  stored := by
    intro other hOther hBound
    rw [getBlock, Archiver.store]
    by_cases hSame : other.height = blk.height
    · have hNodup : (chain.map Block.height).Nodup := hChain ▸ List.nodup_range'
      rw [List.inj_on_of_nodup_map hNodup hOther hBlk hSame, Finmap.lookup_insert]
    · rw [Finmap.lookup_insert_of_ne _ hSame]
      refine h.stored other hOther ?_
      simp only [Archiver.store] at hBound
      omega
  deferred := by
    intro height other hLookup
    obtain ⟨hNe, hBefore⟩ := Table.of_lookup_erase hLookup
    obtain ⟨hMem, hKey, hAbove⟩ := h.deferred height other hBefore
    refine ⟨hMem, hKey, ?_⟩
    simp only [Archiver.store]
    omega

/-- What a call of `digest_block` achieves. -/
structure Digested (chain : List Block) (before : Archiver)
    (after : Archiver × List AtomizerStateMachine.Request) : Prop where
  follows : Follows chain after.1
  settled : after.1.Settled
  grows : before.bestHeight ≤ after.1.bestHeight
  pruned : ∀ height, .prune height ∈ after.2 → height ≤ after.1.bestHeight

/-- The recursion is deep enough, and every call keeps to the chain. The only
block that may be left to digest is the one in hand. -/
theorem Follows.digestBlockWithin (h : Follows chain archiver)
    (hChain : chain.map Block.height = List.range' 1 chain.length) (hBlk : blk ∈ chain)
    (hNext : archiver.bestHeight + 1 ∈ archiver.deferred → blk.height = archiver.bestHeight + 1)
    {depth : Nat} (hDepth : (archiver.deferred.keys.erase blk.height).card < depth) :
    Digested chain archiver (digestBlockWithin depth archiver blk) := by
  induction depth generalizing archiver blk with
  | zero => omega
  | succ depth ih =>
      rw [Archiver.digestBlockWithin, readBestHeight_eq h.best]
      dsimp only
      split
      case isTrue hOld =>
          refine ⟨h, fun hMem => ?_, Nat.le_refl _, by simp⟩
          have hHeight := hNext hMem
          omega
      case isFalse hNew =>
          split
          case isTrue hHeight =>
              have hStore := h.store hChain hBlk hHeight
              split
              case h_1 hNone =>
                  refine ⟨hStore, ?_, Nat.le_succ _, ?_⟩
                  · rw [Settled, Archiver.store, ← hHeight, Finmap.mem_erase]
                    exact fun hMem => Finmap.lookup_eq_none.mp hNone hMem.2
                  · simp [Archiver.store]
              case h_2 next hSome =>
                  obtain ⟨hMem, hKey, _⟩ := h.deferred _ _ hSome
                  have hDeferred : next.height ∈ archiver.deferred.keys.erase blk.height := by
                    rw [hKey, Finset.mem_erase]
                    exact ⟨by omega, Finmap.mem_keys.mpr (Finmap.mem_iff.mpr ⟨next, hSome⟩)⟩
                  have hLater := ih hStore hMem (fun _ => by rw [hKey, hHeight]; rfl) (by
                    rw [Archiver.store, Finmap.keys_erase, Finset.card_erase_of_mem hDeferred]
                    have hPositive := Finset.card_pos.mpr ⟨_, hDeferred⟩
                    omega)
                  refine ⟨hLater.follows, hLater.settled, ?_, ?_⟩
                  · exact (Nat.le_succ _).trans hLater.grows
                  · intro height hPrune
                    rcases List.mem_cons.mp hPrune with hFirst | hRest
                    · cases hFirst
                      exact hLater.grows
                    · exact hLater.pruned height hRest
          case isFalse hGap =>
              refine ⟨h.defer hBlk (by omega), ?_, Nat.le_refl _, ?_⟩
              · rw [Settled, Archiver.defer, Table.mem_emplace]
                rintro (hSame | hMem)
                · exact hGap hSame.symm
                · exact hGap (hNext hMem)
              · intro height hPrune
                split at hPrune <;> simp at hPrune

/-- `digest_block` keeps to the chain, digests every deferred block it can, and
asks to prune only below what it has stored. -/
theorem Follows.digestBlock (h : Follows chain archiver) (hSettled : archiver.Settled)
    (hChain : chain.map Block.height = List.range' 1 chain.length) (hBlk : blk ∈ chain) :
    Digested chain archiver (archiver.digestBlock blk) :=
  h.digestBlockWithin hChain hBlk (fun hMem => (hSettled hMem).elim)
    (Nat.lt_succ_of_le (Finset.card_le_card (Finset.erase_subset _ _)))

end Digest

end Archiver
end OpenCbdc
