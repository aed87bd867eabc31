import Mathlib.Data.Finset.SDiff
import OpenCbdc.Library.Slots

/-! Ledgers that grow by blocks. An entry consumes coins and creates coins. It
is accepted on the word of witnesses, each of whom saw a coin unspent as of some
earlier block, after a search of the entries since the oldest of these blocks.
No coin is consumed by two entries then, however far apart the blocks are that
the witnesses have seen. -/

/-- The blocks so far, oldest first, and the entries of the next one. -/
structure Ledger (Entry : Type) where
  blocks : List (List Entry)
  pending : List Entry

namespace Ledger

/-- What an entry does to the set of coins. -/
structure Moves (Entry Coin : Type) where
  consumed : Entry → List Coin
  created : Entry → List Coin

variable {Entry Coin : Type} (moves : Moves Entry Coin) (genesis : Finset Coin)
  (ledger : Ledger Entry)

def entries : List Entry := ledger.blocks.flatten ++ ledger.pending

/-- The entries of the block that was closed so many blocks ago; those of the
next block have age 0. -/
def recent (age : Nat) : List Entry :=
  (ledger.pending :: ledger.blocks.reverse).getD age []

/-- No consumed coin is consumed by an entry since the oldest height. -/
def Unseen (entry : Entry) (oldest : Nat) : Prop :=
  ∀ age ≤ ledger.blocks.length - oldest, ∀ other ∈ ledger.recent age,
    ∀ coin ∈ moves.consumed entry, coin ∉ moves.consumed other

/-- New coins are not those of the start, and no two entries create the same
coin, unless they are repetitions of an entry that consumes something. -/
structure CreatedOnce (entries : List Entry) : Prop where
  fresh : ∀ entry ∈ entries, ∀ coin ∈ moves.created entry, coin ∉ genesis
  once : entries.Pairwise fun first second => ∀ coin ∈ moves.created first,
    coin ∈ moves.created second →
      moves.consumed first = moves.consumed second ∧ moves.consumed first ≠ []

/-- No coin is consumed twice, and every consumed coin was issued before. -/
structure Sound : Prop where
  spentOnce : ledger.entries.Pairwise fun first second =>
    ∀ coin ∈ moves.consumed first, coin ∉ moves.consumed second
  issued : ∀ (place : Nat) (entry : Entry), ledger.entries[place]? = some entry →
    ∀ coin ∈ moves.consumed entry, coin ∈ genesis ∨
      ∃ maker ∈ ledger.entries.take place, coin ∈ moves.created maker

section Basics

variable {moves genesis ledger}

/-- Everything since a height is among the recent blocks. -/
theorem mem_recent_of_mem_since {oldest : Nat} {entry : Entry}
    (h : entry ∈ (ledger.blocks.drop oldest).flatten ++ ledger.pending) :
    ∃ age ≤ ledger.blocks.length - oldest, entry ∈ ledger.recent age := by
  rcases List.mem_append.mp h with hBlocks | hPending
  · obtain ⟨block, hBlock, hEntry⟩ := List.mem_flatten.mp hBlocks
    obtain ⟨place, hPlace⟩ := List.mem_iff_getElem?.mp hBlock
    rw [List.getElem?_drop] at hPlace
    have hLt := (List.getElem?_eq_some_iff.mp hPlace).1
    refine ⟨ledger.blocks.length - 1 - (oldest + place) + 1, by omega, ?_⟩
    have hAge : ledger.blocks.length - 1 - (ledger.blocks.length - 1 - (oldest + place)) =
        oldest + place := by omega
    rw [recent, List.getD_cons_succ, List.getD_eq_getElem?_getD,
      List.getElem?_reverse (by omega), hAge, hPlace]
    exact hEntry
  · exact ⟨0, Nat.zero_le _, hPending⟩

/-- Closing a block makes everything one block older. -/
theorem recent_close_succ (age : Nat) :
    recent { blocks := ledger.blocks ++ [ledger.pending], pending := [] } (age + 1) =
      ledger.recent age := by
  simp [recent]

theorem CreatedOnce.of_prefix {first second : List Entry} (hPrefix : first <+: second)
    (h : CreatedOnce moves genesis second) : CreatedOnce moves genesis first where
  fresh entry hEntry := h.fresh entry (hPrefix.subset hEntry)
  once := h.once.sublist hPrefix.sublist

theorem sound_empty : Sound moves genesis { blocks := [], pending := [] } where
  spentOnce := List.Pairwise.nil
  issued place entry hEntry := by simp [entries] at hEntry

theorem Sound.close (hSound : Sound moves genesis ledger) :
    Sound moves genesis { blocks := ledger.blocks ++ [ledger.pending], pending := [] } := by
  have hEntries : entries { blocks := ledger.blocks ++ [ledger.pending], pending := [] } =
      ledger.entries := by simp [entries]
  exact ⟨hEntries ▸ hSound.spentOnce, hEntries ▸ hSound.issued⟩

end Basics

variable [DecidableEq Coin]

namespace Moves

/-- The coins an entry creates are added before the ones it consumes go. -/
def spend (coins : Finset Coin) (entry : Entry) : Finset Coin :=
  (coins ∪ (moves.created entry).toFinset) \ (moves.consumed entry).toFinset

def unspent (entries : List Entry) : Finset Coin :=
  entries.foldl moves.spend genesis

variable {moves genesis} {coin : Coin}

theorem unspent_append (first second : List Entry) :
    moves.unspent genesis (first ++ second) =
      moves.unspent (moves.unspent genesis first) second :=
  List.foldl_append

/-- A coin that is left was there at the start or has been created. -/
theorem created_of_mem_unspent {entries : List Entry}
    (h : coin ∈ moves.unspent genesis entries) :
    coin ∈ genesis ∨ ∃ maker ∈ entries, coin ∈ moves.created maker := by
  induction entries generalizing genesis with
  | nil => exact Or.inl h
  | cons entry rest ih =>
      rcases ih h with hSpend | ⟨maker, hMaker, hCreated⟩
      · have hBefore := (Finset.mem_sdiff.mp hSpend).1
        rw [Finset.mem_union, List.mem_toFinset] at hBefore
        exact hBefore.imp_right fun hCreated => ⟨entry, List.mem_cons_self, hCreated⟩
      · exact Or.inr ⟨maker, List.mem_cons_of_mem _ hMaker, hCreated⟩

/-- A coin that is left although it was consumed has been created again. -/
theorem created_after_consumed {before after : List Entry} {entry : Entry}
    (h : coin ∈ moves.unspent genesis (before ++ entry :: after))
    (hConsumed : coin ∈ moves.consumed entry) :
    ∃ maker ∈ after, coin ∈ moves.created maker := by
  rw [unspent_append] at h
  have hLeft : coin ∈ moves.unspent (moves.spend (moves.unspent genesis before) entry) after := h
  rcases created_of_mem_unspent hLeft with hSpend | hAfter
  · exact absurd (List.mem_toFinset.mpr hConsumed) (Finset.mem_sdiff.mp hSpend).2
  · exact hAfter

end Moves

/-- The coins that are left after the blocks up to a height. -/
def asOf (height : Nat) : Finset Coin :=
  moves.unspent genesis (ledger.blocks.take height).flatten

/-- Each consumed coin was seen unspent at the oldest height or later. -/
def Attested (entry : Entry) (oldest : Nat) : Prop :=
  ∀ coin ∈ moves.consumed entry, ∃ height, oldest ≤ height ∧
    height ≤ ledger.blocks.length ∧ coin ∈ ledger.asOf moves genesis height

/-- The two ways a ledger grows. -/
inductive Move : Ledger Entry → Prop where
  | accept (entry : Entry) (oldest : Nat) (hAttested : ledger.Attested moves genesis entry oldest)
      (hUnseen : ledger.Unseen moves entry oldest) :
      Move { ledger with pending := ledger.pending ++ [entry] }
  | close : Move { blocks := ledger.blocks ++ [ledger.pending], pending := [] }

variable {moves genesis ledger}

section Growth

variable {longer : Ledger Entry}

theorem asOf_eq_of_prefix (hPrefix : ledger.blocks <+: longer.blocks) {height : Nat}
    (hHeight : height ≤ ledger.blocks.length) :
    longer.asOf moves genesis height = ledger.asOf moves genesis height := by
  obtain ⟨more, hMore⟩ := hPrefix
  rw [asOf, asOf, ← hMore, List.take_append_of_le_length hHeight]

/-- What a witness has seen of the past stays true. -/
theorem Attested.later (hPrefix : ledger.blocks <+: longer.blocks) {entry : Entry} {oldest : Nat}
    (h : ledger.Attested moves genesis entry oldest) :
    longer.Attested moves genesis entry oldest := by
  intro coin hCoin
  obtain ⟨height, hOldest, hHeight, hSeen⟩ := h coin hCoin
  rw [← asOf_eq_of_prefix hPrefix hHeight] at hSeen
  exact ⟨height, hOldest, hHeight.trans hPrefix.length_le, hSeen⟩

end Growth

section Safety

/-- In a sound ledger a coin that is left after some blocks was not consumed
in them: it would have been created twice, by entries that consume the same. -/
theorem Sound.not_consumed_of_unspent (hSound : Sound moves genesis ledger)
    (hCreated : CreatedOnce moves genesis ledger.blocks.flatten) {seen : List Entry}
    (hSeen : seen <+: ledger.blocks.flatten) {coin : Coin}
    (hCoin : coin ∈ moves.unspent genesis seen) {other : Entry} (hOther : other ∈ seen) :
    coin ∉ moves.consumed other := by
  intro hConsumed
  obtain ⟨before, after, rfl⟩ := List.append_of_mem hOther
  obtain ⟨rest, hRest⟩ := hSeen
  obtain ⟨second, hSecond, hAgain⟩ := Moves.created_after_consumed hCoin hConsumed
  have hBlocks : ledger.blocks.flatten = before ++ (other :: after ++ rest) := by
    simp [← hRest]
  have hEntries : ledger.entries = before ++ (other :: (after ++ rest ++ ledger.pending)) := by
    simp [entries, hBlocks]
  have hSecondMem : second ∈ other :: after ++ rest := by simp [hSecond]
  have hIssued := hSound.issued before.length other (by simp [hEntries]) coin hConsumed
  rw [hEntries, List.take_left] at hIssued
  rcases hIssued with hGenesis | ⟨first, hFirst, hMade⟩
  · exact hCreated.fresh second (by rw [hBlocks]; exact List.mem_append_right _ hSecondMem)
      coin hAgain hGenesis
  · have hOnce := hCreated.once
    rw [hBlocks, List.pairwise_append] at hOnce
    obtain ⟨hSame, hNonempty⟩ := hOnce.2.2 first hFirst second hSecondMem coin hMade hAgain
    have hSpent := hSound.spentOnce
    rw [hEntries, List.pairwise_append] at hSpent
    obtain ⟨shared, hShared⟩ := List.exists_mem_of_ne_nil _ hNonempty
    exact hSpent.2.2 first hFirst second (by simp [hSecond]) shared hShared (hSame ▸ hShared)

/-- What the two checks of an acceptance exclude together. -/
theorem Sound.not_consumed_before (hSound : Sound moves genesis ledger)
    (hCreated : CreatedOnce moves genesis ledger.blocks.flatten) {entry : Entry} {oldest : Nat}
    (hAttested : ledger.Attested moves genesis entry oldest)
    (hUnseen : ledger.Unseen moves entry oldest) {other : Entry} (hOther : other ∈ ledger.entries)
    {coin : Coin} (hCoin : coin ∈ moves.consumed entry) : coin ∉ moves.consumed other := by
  obtain ⟨height, hOldest, _, hSeen⟩ := hAttested coin hCoin
  rw [entries, ← List.take_append_drop oldest ledger.blocks, List.flatten_append,
    List.append_assoc, List.mem_append] at hOther
  rcases hOther with hOld | hSince
  · refine hSound.not_consumed_of_unspent hCreated ?_ hSeen ?_
    · exact ⟨(ledger.blocks.drop height).flatten, by
        rw [← List.flatten_append, List.take_append_drop]⟩
    · obtain ⟨block, hBlock, hMem⟩ := List.mem_flatten.mp hOld
      exact List.mem_flatten.mpr ⟨block, List.take_subset_take_left _ hOldest hBlock, hMem⟩
  · obtain ⟨age, hAge, hMem⟩ := mem_recent_of_mem_since hSince
    exact hUnseen age hAge other hMem coin hCoin

/-- The heart of the matter: a coin that was unspent at the oldest height, and is consumed
by no entry since, is unspent still. -/
theorem Sound.accept (hSound : Sound moves genesis ledger)
    (hCreated : CreatedOnce moves genesis ledger.blocks.flatten) {entry : Entry} {oldest : Nat}
    (hAttested : ledger.Attested moves genesis entry oldest)
    (hUnseen : ledger.Unseen moves entry oldest) :
    Sound moves genesis { ledger with pending := ledger.pending ++ [entry] } := by
  have hEntries : entries { ledger with pending := ledger.pending ++ [entry] } =
      ledger.entries ++ [entry] := by simp [entries]
  constructor
  case spentOnce =>
      rw [hEntries, List.pairwise_append]
      refine ⟨hSound.spentOnce, List.pairwise_singleton _ _, ?_⟩
      intro other hOther last hLast coin hOtherCoin hCoin
      obtain rfl := List.mem_singleton.mp hLast
      exact hSound.not_consumed_before hCreated hAttested hUnseen hOther hCoin hOtherCoin
  case issued =>
      intro place found hFound coin hCoin
      rw [hEntries] at hFound ⊢
      rcases Slots.of_concat hFound with ⟨rfl, rfl⟩ | ⟨hPlace, hOld⟩
      · obtain ⟨height, _, _, hSeen⟩ := hAttested coin hCoin
        refine (Moves.created_of_mem_unspent hSeen).imp_right ?_
        rintro ⟨maker, hMaker, hMade⟩
        refine ⟨maker, ?_, hMade⟩
        obtain ⟨block, hBlock, hMem⟩ := List.mem_flatten.mp hMaker
        rw [List.take_left, entries]
        exact List.mem_append_left _
          (List.mem_flatten.mpr ⟨block, List.mem_of_mem_take hBlock, hMem⟩)
      · rw [List.take_append_of_le_length hPlace.le]
        exact hSound.issued place found hOld coin hCoin

/-- Safety of one move. -/
theorem Sound.move (hSound : Sound moves genesis ledger)
    (hCreated : CreatedOnce moves genesis ledger.blocks.flatten) {next : Ledger Entry}
    (hMove : Move moves genesis ledger next) : Sound moves genesis next := by
  cases hMove with
  | accept entry oldest hAttested hUnseen => exact hSound.accept hCreated hAttested hUnseen
  | close => exact hSound.close

end Safety

end Ledger
