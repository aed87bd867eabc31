import Mathlib.Data.List.Induction
import Mathlib.Data.Nat.Find
import OpenCbdc.Library.Table

/-! Queues of bounded length, and tables with a row for each key of the elements
in a queue. An element that leaves the queue takes the rows of its keys with it,
also those under which a younger element would be found. -/
namespace Window

variable {α Key : Type}

/-- The queue has no room for another element. A queue of size 0 is not bounded. -/
def Full (size : Nat) (queue : List α) : Prop := size ≠ 0 ∧ queue.length = size

instance (size : Nat) (queue : List α) : Decidable (Full size queue) :=
  inferInstanceAs (Decidable (size ≠ 0 ∧ queue.length = size))

def push (size : Nat) (queue : List α) (x : α) : List α :=
  (if Full size queue then queue.tail else queue) ++ [x]

/-- The elements that are in a queue of this size once all were pushed. -/
def latest (size : Nat) (pushed : List α) : List α :=
  if size = 0 then pushed else pushed.drop (pushed.length - size)

theorem latest_subset (size : Nat) (pushed : List α) : latest size pushed ⊆ pushed := by
  rw [latest]
  split
  · exact List.Subset.refl pushed
  · exact List.drop_subset _ pushed

section Queue

variable {size : Nat} {pushed : List α}

/-- What leaves a full queue is the oldest of its elements, and it was pushed as
many pushes ago as the queue is long. -/
theorem exists_of_full (h : Full size (latest size pushed)) :
    ∃ gone old rest, pushed = gone ++ old :: rest ∧ latest size pushed = old :: rest ∧
      gone.length + size = pushed.length := by
  obtain ⟨hSize, hLength⟩ := h
  have hDrop : latest size pushed = pushed.drop (pushed.length - size) := if_neg hSize
  cases hLatest : latest size pushed with
  | nil =>
      rw [hLatest] at hLength
      exact absurd hLength.symm hSize
  | cons old rest =>
      rw [hDrop, List.length_drop] at hLength
      refine ⟨pushed.take (pushed.length - size), old, rest, ?_, rfl, ?_⟩
      · rw [← hLatest, hDrop, List.take_append_drop]
      · rw [List.length_take]
        omega

/-- Pushing to a bounded queue is the same as cutting all that was pushed down to the
latest. -/
theorem push_latest (size : Nat) (pushed : List α) (x : α) :
    push size (latest size pushed) x = latest size (pushed ++ [x]) := by
  by_cases hSize : size = 0
  · simp [push, latest, Full, hSize]
  · have hLatest : latest size (pushed ++ [x]) =
        (pushed ++ [x]).drop (pushed.length + 1 - size) := by
      rw [latest, if_neg hSize, List.length_append, List.length_singleton]
    rw [hLatest, List.drop_append_of_le_length (by omega), push]
    congr 1
    split
    case isTrue hFull =>
        obtain ⟨gone, old, rest, rfl, hLatest, hLength⟩ := exists_of_full hFull
        have hDrop : (gone ++ old :: rest).length + 1 - size = gone.length + 1 := by omega
        rw [hLatest, hDrop, List.tail_cons]
        simp
    case isFalse hRoom =>
        have hDrop : latest size pushed = pushed.drop (pushed.length - size) := if_neg hSize
        have hShort : ¬(latest size pushed).length = size := fun hLength => hRoom ⟨hSize, hLength⟩
        rw [hDrop, List.length_drop] at hShort
        rw [hDrop]
        congr 1
        omega

/-- The latest elements are those at the last places. -/
theorem mem_latest {x : α} :
    x ∈ latest size pushed ↔
      ∃ place, pushed[place]? = some x ∧ (size = 0 ∨ pushed.length ≤ place + size) := by
  rw [latest]
  split
  case isTrue hSize => simp [hSize, List.mem_iff_getElem?]
  case isFalse hSize =>
      rw [List.mem_iff_getElem?]
      simp only [List.getElem?_drop, hSize, false_or]
      constructor
      · rintro ⟨place, hPlace⟩
        exact ⟨_, hPlace, by omega⟩
      · rintro ⟨place, hPlace, hLate⟩
        refine ⟨place - (pushed.length - size), ?_⟩
        rwa [Nat.add_sub_cancel' (by omega)]

end Queue

section Keys

variable {size : Nat} {keys : α → Multiset Key} {pushed : List α} {key : Key}

/-- Some element asked for a row under the key, and none of those that had asked
for one has left since. -/
def Found (size : Nat) (keys : α → Multiset Key) (pushed : List α) (key : Key) : Prop :=
  ∃ place x, pushed[place]? = some x ∧ key ∈ keys x ∧
    ∀ gone old, pushed[gone]? = some old → key ∈ keys old → size ≠ 0 →
      gone + size < pushed.length → gone + size ≤ place

/-- What one more push does to a row. -/
theorem found_concat (x : α) :
    Found size keys (pushed ++ [x]) key ↔ key ∈ keys x ∨
      Found size keys pushed key ∧
        ¬∃ gone old, pushed[gone]? = some old ∧ key ∈ keys old ∧ size ≠ 0 ∧
          gone + size = pushed.length := by
  have hLength : (pushed ++ [x]).length = pushed.length + 1 := by simp
  constructor
  · rintro ⟨place, found, hPlace, hKey, hLeft⟩
    by_cases hLast : place < pushed.length
    · rw [List.getElem?_append_left hLast] at hPlace
      refine Or.inr ⟨⟨place, found, hPlace, hKey, ?_⟩, ?_⟩
      · intro gone old hGone hOld hSize hBefore
        exact hLeft gone old (by rwa [List.getElem?_append_left (by omega)]) hOld hSize (by omega)
      · rintro ⟨gone, old, hGone, hOld, hSize, hNow⟩
        have hLe := hLeft gone old (by rwa [List.getElem?_append_left (by omega)]) hOld hSize
          (by omega)
        omega
    · have hEnd : place = pushed.length := by
        have hLt := (List.getElem?_eq_some_iff.mp hPlace).1
        omega
      rw [hEnd, List.getElem?_concat_length] at hPlace
      exact Or.inl (Option.some.inj hPlace ▸ hKey)
  · rintro (hKey | ⟨⟨place, found, hPlace, hKey, hLeft⟩, hNow⟩)
    · refine ⟨pushed.length, x, List.getElem?_concat_length, hKey, ?_⟩
      intro gone old _ _ _ hBefore
      omega
    · have hLt := (List.getElem?_eq_some_iff.mp hPlace).1
      refine ⟨place, found, by rwa [List.getElem?_append_left hLt], hKey, ?_⟩
      intro gone old hGone hOld hSize hBefore
      have hInside : gone < pushed.length := by omega
      rw [List.getElem?_append_left hInside] at hGone
      rcases Nat.lt_or_ge (gone + size) pushed.length with hEarlier | hJust
      · exact hLeft gone old hGone hOld hSize hEarlier
      · exact absurd ⟨gone, old, hGone, hOld, hSize, by omega⟩ hNow

/-- The element that leaves a full queue now. -/
theorem leaves_iff :
    (∃ gone old, pushed[gone]? = some old ∧ key ∈ keys old ∧ size ≠ 0 ∧
        gone + size = pushed.length) ↔
      Full size (latest size pushed) ∧
        ∃ old, (latest size pushed).head? = some old ∧ key ∈ keys old := by
  constructor
  · rintro ⟨gone, old, hGone, hOld, hSize, hNow⟩
    have hDrop : latest size pushed = pushed.drop gone := by
      rw [latest, if_neg hSize]
      congr 1
      omega
    rw [hDrop, Full, List.length_drop, List.head?_drop]
    exact ⟨⟨hSize, by omega⟩, old, hGone, hOld⟩
  · rintro ⟨hFull, old, hHead, hOld⟩
    obtain ⟨gone, first, rest, hPushed, hLatest, hLength⟩ := exists_of_full hFull
    rw [hLatest, List.head?_cons, Option.some.injEq] at hHead
    refine ⟨gone.length, old, ?_, hOld, hFull.1, hLength⟩
    rw [hPushed, ← hHead]
    simp

/-- Where an element that has left and an element of the queue share a key, some
element with the key was pushed when the first one left, or later. -/
def Renewed (size : Nat) (keys : α → Multiset Key) (pushed : List α) : Prop :=
  ∀ key gone old place x, pushed[gone]? = some old → key ∈ keys old →
    gone + size < pushed.length → pushed[place]? = some x → key ∈ keys x →
    pushed.length ≤ place + size →
      ∃ later y, pushed[later]? = some y ∧ key ∈ keys y ∧ gone + size ≤ later

theorem exists_latest_of_found (h : Found size keys pushed key) :
    ∃ x ∈ latest size pushed, key ∈ keys x := by
  obtain ⟨place, x, hPlace, hKey, hLeft⟩ := h
  refine ⟨x, mem_latest.mpr ⟨place, hPlace, ?_⟩, hKey⟩
  by_contra hNot
  obtain ⟨hSize, hBefore⟩ := not_or.mp hNot
  have hLe := hLeft place x hPlace hKey hSize (by omega)
  omega

/-- The last place of an element with the key. -/
theorem exists_last (h : ∃ (place : Nat) (x : α), pushed[place]? = some x ∧ key ∈ keys x) :
    ∃ (place : Nat) (x : α), pushed[place]? = some x ∧ key ∈ keys x ∧
      ∀ (other : Nat) (y : α), pushed[other]? = some y → key ∈ keys y → other ≤ place := by
  classical
  let Asks (place : Nat) : Prop := ∃ x, pushed[place]? = some x ∧ key ∈ keys x
  have hLe : ∀ place, Asks place → place ≤ pushed.length := by
    rintro place ⟨x, hPlace, _⟩
    exact (List.getElem?_eq_some_iff.mp hPlace).1.le
  obtain ⟨place, hPlace⟩ := h
  obtain ⟨y, hLast, hKey⟩ : Asks (Nat.findGreatest Asks pushed.length) :=
    Nat.findGreatest_spec (hLe place hPlace) hPlace
  refine ⟨_, y, hLast, hKey, ?_⟩
  intro other z hOther hOtherKey
  exact Nat.le_findGreatest (hLe other ⟨z, hOther, hOtherKey⟩) ⟨z, hOther, hOtherKey⟩

end Keys

section Index

variable [DecidableEq Key] {size : Nat} {keys : α → Multiset Key} {pushed : List α}

/-- Push an element to a queue, and keep the table that goes with it: the rows of
the element that leaves are erased, then those of the new one are inserted unless
their keys are there. -/
def pushIndexed (size : Nat) (keys : α → Multiset Key)
    (indexed : List α × Finmap fun _ : Key => α) (x : α) : List α × Finmap fun _ : Key => α :=
  let table := if Full size indexed.1 then
      indexed.1.head?.elim indexed.2 fun old => Table.eraseAll indexed.2 (keys old)
    else indexed.2
  (push size indexed.1 x, Table.emplaceAll table (keys x) x)

/-- The queue and its table once all elements were pushed. -/
def indexed (size : Nat) (keys : α → Multiset Key) (pushed : List α) :
    List α × Finmap fun _ : Key => α :=
  pushed.foldl (pushIndexed size keys) ([], ∅)

theorem indexed_concat (size : Nat) (keys : α → Multiset Key) (pushed : List α) (x : α) :
    indexed size keys (pushed ++ [x]) = pushIndexed size keys (indexed size keys pushed) x := by
  simp [indexed]

theorem queue_indexed (size : Nat) (keys : α → Multiset Key) (pushed : List α) :
    (indexed size keys pushed).1 = latest size pushed := by
  induction pushed using List.reverseRecOn with
  | nil => simp [indexed, latest]
  | append_singleton pushed x ih =>
      rw [indexed_concat, ← push_latest, ← ih]
      rfl

/-- A row is in the table exactly if it is found. -/
theorem mem_indexed {key : Key} :
    key ∈ (indexed size keys pushed).2 ↔ Found size keys pushed key := by
  induction pushed using List.reverseRecOn with
  | nil =>
      refine iff_of_false Finmap.notMem_empty ?_
      rintro ⟨place, x, hPlace, _⟩
      simp at hPlace
  | append_singleton pushed x ih =>
      rw [indexed_concat, found_concat, leaves_iff, ← ih, ← queue_indexed size keys pushed]
      simp only [pushIndexed, ← Finmap.lookup_isSome, Table.lookup_emplaceAll, Option.isSome_or]
      by_cases hFull : Full size (indexed size keys pushed).1
      · cases hHead : (indexed size keys pushed).1.head? with
        | none =>
            have hNil := List.head?_eq_none_iff.mp hHead
            rw [hNil] at hFull
            exact absurd hFull.2.symm hFull.1
        | some old =>
            by_cases hKey : key ∈ keys x
            · simp [hKey]
            · by_cases hOld : key ∈ keys old
              · simp [hFull, hKey, hOld, Table.lookup_eraseAll]
              · simp [hFull, hKey, hOld, Table.lookup_eraseAll]
      · by_cases hKey : key ∈ keys x
        · simp [hKey]
        · simp [hFull, hKey]

/-- The table finds the keys of the queue's elements exactly if those that went
with older elements were renewed. -/
theorem mem_indexed_iff_latest :
    (∀ key, key ∈ (indexed size keys pushed).2 ↔ ∃ x ∈ latest size pushed, key ∈ keys x) ↔
      Renewed size keys pushed := by
  simp only [mem_indexed]
  constructor
  · intro hExact key gone old place x hGone hOld hLeft hPlace hKey hLate
    have hFound := (hExact key).mpr ⟨x, mem_latest.mpr ⟨place, hPlace, Or.inr hLate⟩, hKey⟩
    have hSize : size ≠ 0 := by
      have hLt := (List.getElem?_eq_some_iff.mp hPlace).1
      omega
    obtain ⟨later, y, hLater, hY, hAfter⟩ := hFound
    exact ⟨later, y, hLater, hY, hAfter gone old hGone hOld hSize hLeft⟩
  · intro hRenewed key
    refine ⟨exists_latest_of_found, ?_⟩
    rintro ⟨x, hMem, hKey⟩
    obtain ⟨place, hPlace, hLate⟩ := mem_latest.mp hMem
    obtain ⟨last, y, hLast, hLastKey, hMax⟩ := exists_last ⟨place, x, hPlace, hKey⟩
    refine ⟨last, y, hLast, hLastKey, ?_⟩
    intro gone old hGone hOld hSize hLeft
    obtain ⟨later, z, hLater, hLaterKey, hLe⟩ :=
      hRenewed key gone old place x hGone hOld hLeft hPlace hKey (hLate.resolve_left hSize)
    exact hLe.trans (hMax later z hLater hLaterKey)

end Index

end Window
