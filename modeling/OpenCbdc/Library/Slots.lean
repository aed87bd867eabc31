import Mathlib.Data.Finset.Card
import Mathlib.Data.List.Basic

/-! Tables whose rows are addressed by their position in a list. Rows are
replaced in place or added at the end, never removed. -/
namespace Slots

variable {α : Type} {rows : List α} {place : Nat} {row : α}

theorem of_set {other : Nat} {found : α} (h : (rows.set place row)[other]? = some found) :
    other = place ∧ found = row ∨ other ≠ place ∧ rows[other]? = some found := by
  by_cases hPlace : other = place
  · subst hPlace
    rw [List.getElem?_set_self'] at h
    obtain ⟨_, _, rfl⟩ := Option.map_eq_some_iff.mp h
    exact Or.inl ⟨rfl, rfl⟩
  · rw [List.getElem?_set_ne (Ne.symm hPlace)] at h
    exact Or.inr ⟨hPlace, h⟩

theorem of_concat {other : Nat} {found : α} (h : (rows ++ [row])[other]? = some found) :
    other = rows.length ∧ found = row ∨ other < rows.length ∧ rows[other]? = some found := by
  by_cases hPlace : other < rows.length
  · rw [List.getElem?_append_left hPlace] at h
    exact Or.inr ⟨hPlace, h⟩
  · rw [List.getElem?_append_right (Nat.le_of_not_lt hPlace)] at h
    obtain ⟨hLt, hFound⟩ := List.getElem?_eq_some_iff.mp h
    have hLast : other = rows.length := by
      rw [List.length_singleton] at hLt
      omega
    exact Or.inl ⟨hLast, by simpa using hFound.symm⟩

/-- A property of all rows survives a replacement by a row that has it. -/
theorem forall_mem_set {property : α → Prop} (h : ∀ old ∈ rows, property old)
    (hRow : property row) : ∀ found ∈ rows.set place row, property found := by
  intro found hFound
  rcases List.mem_or_eq_of_mem_set hFound with hOld | rfl
  · exact h found hOld
  · exact hRow

/-- A property of some row survives a replacement that keeps it. -/
theorem exists_mem_set {property : α → Prop} {old : α} (hOld : rows[place]? = some old)
    (hRow : property old → property row) (h : ∃ found ∈ rows, property found) :
    ∃ found ∈ rows.set place row, property found := by
  obtain ⟨found, hFound, hProperty⟩ := h
  obtain ⟨other, hOther⟩ := List.mem_iff_getElem?.mp hFound
  by_cases hPlace : other = place
  · subst hPlace
    obtain rfl : old = found := Option.some.inj (hOld.symm.trans hOther)
    have hLt := (List.getElem?_eq_some_iff.mp hOther).1
    exact ⟨row, List.mem_set hLt row, hRow hProperty⟩
  · refine ⟨found, List.mem_iff_getElem?.mpr ⟨other, ?_⟩, hProperty⟩
    rw [List.getElem?_set_ne (Ne.symm hPlace), hOther]

/-- Rows keep their place when others are put behind them. -/
theorem of_prefix {later : List α} (h : rows <+: later) (hRow : rows[place]? = some row) :
    later[place]? = some row := by
  obtain ⟨rest, rfl⟩ := h
  rw [List.getElem?_append_left (List.getElem?_eq_some_iff.mp hRow).1, hRow]

/-- Rows of one kind have one place if the kinds are listed without repetition. -/
theorem place_eq_of_nodup {β : Type} {kind : α → Option β} (hNodup : (rows.filterMap kind).Nodup)
    {other : Nat} {found : α} {key : β} (hRow : rows[place]? = some row)
    (hKey : kind row = some key) (hFound : rows[other]? = some found)
    (hSame : kind found = some key) : place = other := by
  rw [List.Nodup, List.pairwise_filterMap, List.pairwise_iff_getElem] at hNodup
  obtain ⟨hPlace, rfl⟩ := List.getElem?_eq_some_iff.mp hRow
  obtain ⟨hOther, rfl⟩ := List.getElem?_eq_some_iff.mp hFound
  rcases Nat.lt_trichotomy place other with hLt | hEq | hLt
  · exact (hNodup _ _ hPlace hOther hLt key hKey key hSame rfl).elim
  · exact hEq
  · exact (hNodup _ _ hOther hPlace hLt key hSame key hKey rfl).elim

/-- A test that at most one row passes is passed in one place. -/
theorem place_eq_of_countP_le {test : α → Bool} (hCount : rows.countP test ≤ 1) {other : Nat}
    {found : α} (hRow : rows[place]? = some row) (hTest : test row = true)
    (hFound : rows[other]? = some found) (hSame : test found = true) : place = other := by
  have hNodup : (rows.filterMap fun row => if test row then some () else none).Nodup := by
    refine List.nodup_iff_count_le_one.mpr fun _ => List.count_le_length.trans ?_
    rw [List.length_filterMap_eq_countP]
    refine le_of_eq_of_le (List.countP_congr fun row _ => ?_) hCount
    cases test row <;> simp
  exact place_eq_of_nodup hNodup hRow (if_pos hTest) hFound (if_pos hSame)

/-- The rows around a place, which a replacement or a removal there keeps. -/
theorem split_at (h : rows[place]? = some row) :
    ∃ before after, rows = before ++ row :: after ∧
      rows.eraseIdx place = before ++ after ∧
      ∀ other, rows.set place other = before ++ other :: after := by
  obtain ⟨hLt, rfl⟩ := List.getElem?_eq_some_iff.mp h
  refine ⟨rows.take place, rows.drop (place + 1), ?_, ?_, ?_⟩
  · simp
  · exact List.eraseIdx_eq_take_drop_succ rows place
  · intro other
    rw [List.set_eq_take_append_cons_drop, if_pos hLt]

/-- A property of all rows survives the addition of a row that has it. -/
theorem forall_mem_concat {property : α → Prop} (h : ∀ old ∈ rows, property old)
    (hRow : property row) : ∀ found ∈ rows ++ [row], property found := by
  simpa [or_imp, forall_and] using ⟨h, hRow⟩

/-- Distinct places below a bound are not more than the bound. -/
theorem length_le_of_nodup {places : List Nat} {bound : Nat} (hNodup : places.Nodup)
    (hBound : ∀ place ∈ places, place < bound) : places.length ≤ bound := by
  rw [← List.toFinset_card_of_nodup hNodup, ← Finset.card_range bound]
  apply Finset.card_le_card
  intro place hPlace
  exact Finset.mem_range.mpr (hBound place (List.mem_toFinset.mp hPlace))

/-- A split of a longer list at a row other than the last one is a split of
the list before. -/
theorem split_of_concat {first second : List α} {last : α} (hNe : row ≠ last)
    (h : rows ++ [last] = first ++ row :: second) : ∃ rest, rows = first ++ row :: rest := by
  rcases List.eq_nil_or_concat second with rfl | ⟨rest, final, rfl⟩
  · have hLast := (List.append_inj' h rfl).2
    exact (hNe (List.singleton_inj.mp hLast).symm).elim
  · rw [List.concat_eq_append, ← List.cons_append, ← List.append_assoc] at h
    exact ⟨rest, (List.append_inj' h rfl).1⟩

/-- Overwrite each row with the one below it, from a place down to place 1.
Place 0 keeps its row. -/
def shiftUp (rows : List α) : Nat → List α
  | 0 => rows
  | place + 1 => shiftUp ((rows[place]?).elim rows (rows.set (place + 1))) place

theorem length_shiftUp (rows : List α) (place : Nat) :
    (shiftUp rows place).length = rows.length := by
  induction place generalizing rows with
  | zero => rfl
  | succ place ih =>
      rw [shiftUp, ih]
      cases rows[place]? <;> simp

/-- The rows above the place are untouched, those up to it come from below. -/
theorem getElem?_shiftUp (hPlace : place < rows.length) (other : Nat) :
    (shiftUp rows place)[other]? =
      if 0 < other ∧ other ≤ place then rows[other - 1]? else rows[other]? := by
  induction place generalizing rows with
  | zero => rw [shiftUp, if_neg (by omega)]
  | succ place ih =>
      have hRow : rows[place]? = some rows[place] := List.getElem?_eq_getElem (by omega)
      rw [shiftUp, hRow, Option.elim_some, ih (by rw [List.length_set]; omega)]
      by_cases hLast : other = place + 1
      · simp [hLast, show place + 1 < rows.length from hPlace]
      · by_cases hLow : 0 < other ∧ other ≤ place
        · rw [if_pos hLow, if_pos (by omega), List.getElem?_set_ne (by omega)]
        · rw [if_neg hLow, if_neg (by omega), List.getElem?_set_ne (by omega)]

/-- A full shift with a new row in place 0. -/
theorem shiftUp_set_zero {depth : Nat} (hLength : rows.length = depth + 1) (row : α) :
    (shiftUp rows depth).set 0 row = row :: rows.take depth := by
  apply List.ext_getElem?
  intro other
  cases other with
  | zero => simp [length_shiftUp, hLength]
  | succ other =>
      rw [List.getElem?_set_ne (by omega), getElem?_shiftUp (by omega), List.getElem?_cons_succ,
        List.getElem?_take]
      by_cases hOther : other < depth
      · rw [if_pos (by omega), if_pos hOther, Nat.add_sub_cancel]
      · rw [if_neg (by omega), if_neg hOther, List.getElem?_eq_none (by omega)]

end Slots
