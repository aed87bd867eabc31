import Mathlib.Algebra.GroupWithZero.Nat
import Mathlib.Algebra.Order.BigOperators.Group.Finset
import Mathlib.Algebra.Order.Ring.Nat
import OpenCbdc.Library.Ledger

/-! Value in a ledger. Every coin is worth something, and what is left after a
sound list of entries is what was there at the start, with the worth of all
created coins added and that of all consumed coins taken away. If every entry
that consumes anything creates as much as it consumes, value comes only from
the entries that consume nothing. -/
namespace Ledger

variable {Entry Coin : Type} (moves : Moves Entry Coin) (worth : Coin → Nat)

namespace Moves

/-- The coins that a list of entries consumes and creates are worth this much. -/
def consumedWorth (entries : List Entry) : Nat :=
  ((entries.flatMap moves.consumed).map worth).sum

def createdWorth (entries : List Entry) : Nat :=
  ((entries.flatMap moves.created).map worth).sum

def Balanced (entry : Entry) : Prop :=
  ((moves.created entry).map worth).sum = ((moves.consumed entry).map worth).sum

def issues (entries : List Entry) : List Entry :=
  entries.filter fun entry => (moves.consumed entry).isEmpty

variable {moves worth}

/-- Balanced entries cancel, and what is left on the created side is issued. -/
theorem createdWorth_of_balanced {entries : List Entry}
    (h : ∀ entry ∈ entries, moves.consumed entry ≠ [] → moves.Balanced worth entry) :
    moves.createdWorth worth entries =
      moves.consumedWorth worth entries + moves.createdWorth worth (moves.issues entries) := by
  induction entries with
  | nil => rfl
  | cons entry rest ih =>
      obtain ⟨hEntry, hRest⟩ := List.forall_mem_cons.mp h
      have hLater := ih hRest
      simp only [createdWorth, consumedWorth, issues, List.flatMap_cons, List.map_append,
        List.sum_append, List.filter_cons] at hLater ⊢
      by_cases hEmpty : moves.consumed entry = []
      · simp only [hEmpty, List.isEmpty_nil, if_true, List.flatMap_cons, List.map_append,
          List.sum_append, List.map_nil, List.sum_nil]
        omega
      · have hBalanced : ((moves.created entry).map worth).sum =
            ((moves.consumed entry).map worth).sum := hEntry hEmpty
        simp only [List.isEmpty_iff, hEmpty, if_false]
        omega

end Moves

variable {moves worth} [DecidableEq Coin] {genesis coins : Finset Coin} {entries : List Entry}

def total (worth : Coin → Nat) (coins : Finset Coin) : Nat := ∑ coin ∈ coins, worth coin

omit [DecidableEq Coin] in
/-- Coins that are divided between holders are worth as much as before, if each
has one holder. -/
theorem sum_total_filter {Holder : Type} {holders : List Holder} {holds : Holder → Coin → Bool}
    (hOne : ∀ coin ∈ coins, holders.countP (holds · coin) = 1) :
    (holders.map fun holder => total worth (coins.filter fun coin => holds holder coin)).sum =
      total worth coins := by
  have hCounted : (holders.map fun holder =>
      total worth (coins.filter fun coin => holds holder coin)).sum =
        ∑ coin ∈ coins, holders.countP (holds · coin) * worth coin := by
    clear hOne
    induction holders with
    | nil => simp
    | cons holder rest ih =>
        rw [List.map_cons, List.sum_cons, ih, total, Finset.sum_filter, ← Finset.sum_add_distrib]
        refine Finset.sum_congr rfl fun coin _ => ?_
        rw [List.countP_cons, Nat.add_mul, Nat.add_comm]
        split <;> simp
  rw [hCounted, total]
  exact Finset.sum_congr rfl fun coin hCoin => by rw [hOne coin hCoin, Nat.one_mul]

/-- A coin that is issued and not consumed is left. -/
theorem Moves.mem_unspent {coin : Coin}
    (hIssued : coin ∈ genesis ∨ ∃ maker ∈ entries, coin ∈ moves.created maker)
    (hKept : ∀ entry ∈ entries, coin ∉ moves.consumed entry) :
    coin ∈ moves.unspent genesis entries := by
  induction entries generalizing genesis with
  | nil =>
      rcases hIssued with hGenesis | ⟨maker, hMaker, _⟩
      · exact hGenesis
      · cases hMaker
  | cons entry rest ih =>
      obtain ⟨hEntry, hRest⟩ := List.forall_mem_cons.mp hKept
      refine @ih (moves.spend genesis entry) ?_ hRest
      have hSpend : coin ∈ genesis ∨ coin ∈ moves.created entry →
          coin ∈ moves.spend genesis entry := by
        intro hHere
        simpa [Moves.spend, hEntry] using hHere
      rcases hIssued with hGenesis | ⟨maker, hMaker, hMade⟩
      · exact Or.inl (hSpend (Or.inl hGenesis))
      · rcases List.mem_cons.mp hMaker with rfl | hLater
        · exact Or.inl (hSpend (Or.inr hMade))
        · exact Or.inr ⟨maker, hLater, hMade⟩

/-- Coins that no entry consumes, with the ones that are consumed once. -/
theorem Moves.total_add_consumedWorth
    (hKept : ∀ coin ∈ coins, ∀ entry ∈ entries, coin ∉ moves.consumed entry)
    (hOnce : (entries.flatMap moves.consumed).Nodup) :
    total worth coins + moves.consumedWorth worth entries =
      total worth (coins ∪ (entries.flatMap moves.consumed).toFinset) := by
  have hDisjoint : Disjoint coins (entries.flatMap moves.consumed).toFinset := by
    rw [Finset.disjoint_left]
    intro coin hCoin hConsumed
    obtain ⟨entry, hEntry, hIn⟩ := List.mem_flatMap.mp (List.mem_toFinset.mp hConsumed)
    exact hKept coin hCoin entry hEntry hIn
  rw [total, total, Finset.sum_union hDisjoint, List.sum_toFinset worth hOnce]
  rfl

/-- What is left after a part of a sound ledger is what was issued without what
was consumed, so nothing but issues adds value. -/
theorem Sound.total_unspent {ledger : Ledger Entry} (h : Sound moves genesis ledger)
    (hCreated : CreatedOnce moves genesis ledger.blocks.flatten)
    (hSeen : entries <+: ledger.blocks.flatten)
    (hConsumes : ∀ entry ∈ entries, (moves.consumed entry).Nodup)
    (hCreates : ∀ entry ∈ entries, (moves.created entry).Nodup)
    (hBalanced : ∀ entry ∈ entries, moves.consumed entry ≠ [] → moves.Balanced worth entry) :
    total worth (moves.unspent genesis entries) =
      total worth genesis + moves.createdWorth worth (moves.issues entries) := by
  have hEntries : entries <+: ledger.entries := hSeen.trans (List.prefix_append _ _)
  have hSpent := h.spentOnce.sublist hEntries.sublist
  have hEarlier := hCreated.of_prefix hSeen
  have hOnce : (entries.flatMap moves.consumed).Nodup := List.nodup_flatMap.mpr ⟨hConsumes, hSpent⟩
  -- Entries that create the same coin would consume the same.
  have hMade : (entries.flatMap moves.created).Nodup := by
    refine List.nodup_flatMap.mpr ⟨hCreates, (hEarlier.once.and hSpent).imp ?_⟩
    rintro first second ⟨hRepeats, hApart⟩ coin hFirst hSecond
    obtain ⟨hSame, hNonempty⟩ := hRepeats coin hFirst hSecond
    obtain ⟨shared, hShared⟩ := List.exists_mem_of_ne_nil _ hNonempty
    exact hApart shared hShared (hSame ▸ hShared)
  have hFresh : Disjoint genesis (entries.flatMap moves.created).toFinset := by
    rw [Finset.disjoint_right]
    intro coin hCoin
    obtain ⟨entry, hEntry, hIn⟩ := List.mem_flatMap.mp (List.mem_toFinset.mp hCoin)
    exact hEarlier.fresh entry hEntry coin hIn
  have hIssued : moves.unspent genesis entries ∪ (entries.flatMap moves.consumed).toFinset =
      genesis ∪ (entries.flatMap moves.created).toFinset := by
    ext coin
    simp only [Finset.mem_union, List.mem_toFinset, List.mem_flatMap]
    constructor
    · rintro (hLeft | ⟨entry, hEntry, hIn⟩)
      · exact Moves.created_of_mem_unspent hLeft
      · obtain ⟨place, hPlace⟩ := List.mem_iff_getElem?.mp hEntry
        refine (h.issued place entry (Slots.of_prefix hEntries hPlace) coin hIn).imp_right ?_
        rintro ⟨maker, hMaker, hMakes⟩
        obtain ⟨rest, hRest⟩ := hEntries
        rw [← hRest, List.take_append_of_le_length (List.getElem?_eq_some_iff.mp hPlace).1.le]
          at hMaker
        exact ⟨maker, List.mem_of_mem_take hMaker, hMakes⟩
    · intro hCoin
      by_cases hUsed : ∃ entry ∈ entries, coin ∈ moves.consumed entry
      · exact Or.inr hUsed
      · exact Or.inl (Moves.mem_unspent hCoin fun entry hEntry hIn => hUsed ⟨entry, hEntry, hIn⟩)
  have hTotal : total worth (moves.unspent genesis entries) + moves.consumedWorth worth entries =
      total worth genesis + moves.createdWorth worth entries := by
    rw [Moves.total_add_consumedWorth (fun _ hLeft _ hEntry =>
      h.not_consumed_of_unspent hCreated hSeen hLeft hEntry) hOnce, hIssued, total, total,
      Finset.sum_union hFresh, List.sum_toFinset worth hMade]
    rfl
  have hIssues := Moves.createdWorth_of_balanced hBalanced
  omega

end Ledger
