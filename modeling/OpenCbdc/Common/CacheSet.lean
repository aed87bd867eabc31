import Mathlib.Data.Finset.Card
import Mathlib.Data.List.DropRight
import Mathlib.Data.List.Induction

/-! `cbdc::cache_set`, the bounded set that remembers recently confirmed
transaction IDs. -/
namespace OpenCbdc

/-- The values held, the order in which they were added, oldest first, and the
configured size. The source queues references to the stored values; the queue
below lists the values themselves. -/
structure CacheSet (K : Type) [DecidableEq K] where
  vals : Finset K
  evictionQueue : List K
  maxSize : Nat

namespace CacheSet

variable {K : Type} [DecidableEq K]

def empty (maxSize : Nat) : CacheSet K :=
  { vals := ∅, evictionQueue := [], maxSize := maxSize }

/-- `cache_set::add`. A new value enters the queue before the queue's length is
compared with the size, so that the comparison counts the new value too. -/
def add (cache : CacheSet K) (val : K) : CacheSet K × Bool :=
  if val ∈ cache.vals then (cache, false)
  else
    let vals := insert val cache.vals
    let queue := cache.evictionQueue ++ [val]
    if cache.maxSize ≤ queue.length then
      match queue with
      | [] => ({ cache with vals := vals, evictionQueue := queue }, true)
      | front :: rest =>
          ({ cache with vals := vals.erase front, evictionQueue := rest }, true)
    else ({ cache with vals := vals, evictionQueue := queue }, true)

def contains (cache : CacheSet K) (val : K) : Bool := decide (val ∈ cache.vals)

/-- Adding never brings in anything but the value itself. -/
theorem add_vals_subset (cache : CacheSet K) (val : K) :
    (cache.add val).1.vals ⊆ insert val cache.vals := by
  unfold add
  split
  · exact Finset.subset_insert val cache.vals
  · dsimp only
    split
    · split
      · exact Finset.Subset.refl _
      · exact Finset.erase_subset _ _
    · exact Finset.Subset.refl _

/-- The cache after some calls of `add`, and the values for which `add` has returned
true, in the order of the calls. -/
def addAll (cache : CacheSet K) (values : List K) : CacheSet K × List K :=
  values.foldl (fun (cache, added) val =>
    match cache.add val with
    | (next, true) => (next, added ++ [val])
    | (next, false) => (next, added)) (cache, [])

theorem addAll_concat (cache : CacheSet K) (values : List K) (val : K) :
    cache.addAll (values ++ [val]) =
      match (cache.addAll values).1.add val with
      | (next, true) => (next, (cache.addAll values).2 ++ [val])
      | (next, false) => (next, (cache.addAll values).2) := by
  rw [addAll, List.foldl_append]
  rfl

section Recent

variable {room : Nat} {values added : List K} {cache : CacheSet K}

/-- A cache of size `room + 1` has room for one value less, because a value that is
added takes its place before an old one leaves. -/
structure Recent (room : Nat) (values added : List K) (cache : CacheSet K) : Prop where
  maxSize : cache.maxSize = room + 1
  queue : cache.evictionQueue = added.rtake room
  vals : cache.vals = cache.evictionQueue.toFinset
  distinct : (added.rtake (room + 1)).Nodup
  same : added.toFinset = values.toFinset

theorem recent_empty (room : Nat) : Recent room [] [] (empty (room + 1) : CacheSet K) where
  maxSize := rfl
  queue := by simp [empty]
  vals := rfl
  distinct := by simp
  same := rfl

omit [DecidableEq K] in
theorem rtake_of_length_le {n : Nat} {l : List K} (h : l.length ≤ n) : l.rtake n = l := by
  rw [List.rtake, Nat.sub_eq_zero_of_le h, List.drop_zero]

omit [DecidableEq K] in
theorem rtake_concat_of_le {n : Nat} {l : List K} (h : n ≤ l.length) (x : K) :
    ∃ front, l.rtake n ++ [x] = front :: (l ++ [x]).rtake n := by
  have hLast : l.length - n < (l ++ [x]).length := by
    rw [List.length_append, List.length_singleton]
    omega
  refine ⟨(l ++ [x])[l.length - n], ?_⟩
  rw [← List.rtake_concat_succ, List.rtake, List.rtake, List.length_append,
    List.length_singleton, Nat.add_sub_add_right, List.drop_eq_getElem_cons hLast]
  congr 2
  omega

theorem Recent.queue_subset (h : Recent room values added cache) :
    cache.evictionQueue ⊆ added := by
  rw [h.queue]
  exact List.drop_subset _ _

/-- The values that can be found and a new one are distinct. -/
theorem Recent.distinct_concat (h : Recent room values added cache) {val : K}
    (hNew : val ∉ cache.vals) : (cache.evictionQueue ++ [val]).Nodup := by
  rw [h.vals, List.mem_toFinset] at hNew
  have hQueue : cache.evictionQueue.Nodup := by
    rw [h.queue, List.rtake]
    exact h.distinct.sublist (List.drop_sublist_drop_left added (by omega))
  exact List.nodup_append'.mpr ⟨hQueue, List.nodup_singleton val,
    List.disjoint_singleton.mpr hNew⟩

/-- A new value joins the queue, and the oldest one leaves if that makes the queue full. -/
theorem Recent.add_of_new (h : Recent room values added cache) {val : K}
    (hNew : val ∉ cache.vals) :
    ∃ next, cache.add val = (next, true) ∧
      Recent room (values ++ [val]) (added ++ [val]) next := by
  have hConcat := h.distinct_concat hNew
  have hVals : insert val cache.vals = (cache.evictionQueue ++ [val]).toFinset := by
    rw [h.vals, List.toFinset_append, Finset.union_comm]
    rfl
  have hSame : (added ++ [val]).toFinset = (values ++ [val]).toFinset := by
    rw [List.toFinset_append, List.toFinset_append, h.same]
  have hDistinct : ((added ++ [val]).rtake (room + 1)).Nodup := by
    rw [List.rtake_concat_succ, ← h.queue]
    exact hConcat
  have hLength : cache.evictionQueue.length = min room added.length := by
    rw [h.queue, List.rtake, List.length_drop]
    omega
  rw [CacheSet.add, if_neg hNew]
  by_cases hFull : cache.maxSize ≤ (cache.evictionQueue ++ [val]).length
  · rw [List.length_append, List.length_singleton, h.maxSize, hLength] at hFull
    obtain ⟨front, hFront⟩ := rtake_concat_of_le (show room ≤ added.length by omega) val
    rw [← h.queue] at hFront
    rw [hFront] at hConcat hVals
    have hErase : (insert val cache.vals).erase front = ((added ++ [val]).rtake room).toFinset := by
      rw [hVals, List.toFinset_cons, Finset.erase_insert]
      rw [List.mem_toFinset]
      exact (List.nodup_cons.mp hConcat).1
    refine ⟨⟨(insert val cache.vals).erase front, (added ++ [val]).rtake room, cache.maxSize⟩, ?_,
      ⟨h.maxSize, rfl, hErase, hDistinct, hSame⟩⟩
    have hCount : cache.maxSize ≤ (front :: (added ++ [val]).rtake room).length := by
      rw [← hFront, List.length_append, List.length_singleton, h.maxSize, hLength]
      exact hFull
    simp only [hFront, if_pos hCount]
  · refine ⟨⟨insert val cache.vals, cache.evictionQueue ++ [val], cache.maxSize⟩, ?_,
      ⟨h.maxSize, ?_, hVals, hDistinct, hSame⟩⟩
    · simp only [if_neg hFull]
    · rw [List.length_append, List.length_singleton, h.maxSize, hLength] at hFull
      show cache.evictionQueue ++ [val] = _
      rw [h.queue, rtake_of_length_le (by omega), rtake_of_length_le]
      rw [List.length_append, List.length_singleton]
      omega

theorem Recent.add_of_old (h : Recent room values added cache) {val : K}
    (hOld : val ∈ cache.vals) :
    cache.add val = (cache, false) ∧ Recent room (values ++ [val]) added cache := by
  refine ⟨if_pos hOld, ⟨h.maxSize, h.queue, h.vals, h.distinct, ?_⟩⟩
  rw [h.vals, List.mem_toFinset] at hOld
  have hIn : val ∈ values.toFinset := by
    rw [← h.same, List.mem_toFinset]
    exact h.queue_subset hOld
  rw [h.same, List.toFinset_append, List.toFinset_cons, List.toFinset_nil, Finset.union_insert,
    Finset.union_empty, Finset.insert_eq_of_mem hIn]

theorem recent_addAll (room : Nat) (values : List K) :
    Recent room values ((empty (room + 1)).addAll values).2
      ((empty (room + 1)).addAll values).1 := by
  induction values using List.reverseRecOn with
  | nil => exact recent_empty room
  | append_singleton values val ih =>
      rw [addAll_concat]
      by_cases hOld : val ∈ ((empty (room + 1)).addAll values).1.vals
      · obtain ⟨hAdd, hNext⟩ := ih.add_of_old hOld
        rw [hAdd]
        exact hNext
      · obtain ⟨next, hAdd, hNext⟩ := ih.add_of_new hOld
        rw [hAdd]
        exact hNext

/-- The last `room + 1` values that were added can all be found only if there are no
more than `room`. -/
theorem Recent.exact_iff (h : Recent room values added cache) :
    (∀ val, cache.contains val = true ↔ val ∈ added.rtake (room + 1)) ↔
      values.toFinset.card < room + 1 := by
  have hContains : ∀ val, cache.contains val = true ↔ val ∈ added.rtake room := by
    intro val
    rw [contains, decide_eq_true_iff, h.vals, List.mem_toFinset, h.queue]
  simp only [hContains]
  by_cases hMany : room < added.length
  · have hFirst : added.length - (room + 1) < added.length := by omega
    have hSplit : added.rtake (room + 1) =
        added[added.length - (room + 1)] :: added.rtake room := by
      rw [List.rtake, List.rtake, List.drop_eq_getElem_cons hFirst]
      congr 2
      omega
    have hDistinct := h.distinct
    rw [hSplit, List.nodup_cons] at hDistinct
    have hCard : room + 1 ≤ values.toFinset.card := by
      rw [← h.same]
      calc room + 1 = (added.rtake (room + 1)).length := by
            rw [List.rtake, List.length_drop]
            omega
        _ = (added.rtake (room + 1)).toFinset.card := (List.toFinset_card_of_nodup h.distinct).symm
        _ ≤ added.toFinset.card := Finset.card_le_card fun val hVal =>
            List.mem_toFinset.mpr (List.drop_subset _ _ (List.mem_toFinset.mp hVal))
    refine iff_of_false (fun hAll => hDistinct.1 ?_) (Nat.not_lt.mpr hCard)
    rw [hAll, hSplit]
    exact List.mem_cons_self
  · have hAll : added.rtake room = added := rtake_of_length_le (Nat.not_lt.mp hMany)
    have hMore : added.rtake (room + 1) = added := rtake_of_length_le (by omega)
    refine iff_of_true (fun val => by rw [hAll, hMore]) ?_
    rw [← h.same]
    exact (List.toFinset_card_le added).trans_lt (by omega)

end Recent

/-- The cache has exactly the last `maxSize` values that were added, if and only if fewer
values than that have been given to it. -/
theorem contains_recent_iff (maxSize : Nat) (hSize : 1 ≤ maxSize) (values : List K) :
    (∀ val, ((empty maxSize).addAll values).1.contains val = true ↔
      val ∈ ((empty maxSize).addAll values).2.rtake maxSize) ↔
    values.toFinset.card < maxSize := by
  obtain ⟨room, rfl⟩ := Nat.exists_eq_add_of_le' hSize
  exact (recent_addAll room values).exact_iff

theorem contains_recent_repeated :
    ((empty 3).addAll [1, 2, 1]).1.contains 1 = true ∧
      ((empty 3).addAll [1, 2, 1]).2.rtake 3 = [1, 2] := by
  have hAll := (contains_recent_iff 3 (by decide) [1, 2, 1]).mpr (by decide)
  exact ⟨(hAll 1).mpr (by decide), by decide⟩

/-- A cache of size 2 has forgotten the first of two values. -/
theorem second_value_evicts_first :
    ((empty 2).addAll [1, 2]).2.rtake 2 = [1, 2] ∧
      ((empty 2).addAll [1, 2]).1.contains 1 = false := by
  decide

end CacheSet
end OpenCbdc
