import Mathlib.Algebra.GroupWithZero.Nat
import Mathlib.Algebra.Order.BigOperators.Group.List
import Mathlib.Algebra.Order.Group.Nat
import Mathlib.Data.Set.List
import OpenCbdc.Library.Table

/-! Containers that are filled by inserting one element after the other. What an
iteration visits is a list of the elements, in an order that the container need
not determine; inserting the elements of such a list again gives the container
back. -/

/-- Each value in turn makes the container larger by one. -/
def Collection.Grows {γ α : Type} (add : γ → α → γ) (size : γ → Nat) : γ → List α → Prop
  | _, [] => True
  | filled, value :: rest =>
      size (add filled value) = size filled + 1 ∧ Grows add size (add filled value) rest

/-- A container type. The order predicate says which lists an iteration may
visit. A container that is not proper need not have one. -/
structure Collection (γ α : Type) where
  empty : γ
  add : γ → α → γ
  size : γ → Nat
  Mem : α → γ → Prop
  Proper : γ → Prop
  Order : γ → List α → Prop
  size_empty : size empty = 0
  size_add_le : ∀ filled value, size (add filled value) ≤ size filled + 1
  exists_order : ∀ filled, Proper filled → ∃ values, Order filled values
  mem_of_order : ∀ filled values, Order filled values → ∀ value ∈ values, Mem value filled
  foldl_add : ∀ filled values, Order filled values → values.foldl add empty = filled
  grows : ∀ filled values, Order filled values → Collection.Grows add size empty values

namespace Collection

variable {γ α Key Value : Type}

theorem Grows.size_foldl {add : γ → α → γ} {size : γ → Nat} {filled : γ} {values : List α}
    (h : Grows add size filled values) :
    size (values.foldl add filled) = size filled + values.length := by
  induction values generalizing filled with
  | nil => rfl
  | cons value values ih =>
      rw [List.foldl_cons, ih h.2, h.1, List.length_cons]
      omega

/-- An iteration visits as many elements as the container has. -/
theorem size_eq (collection : Collection γ α) {filled : γ} {values : List α}
    (h : collection.Order filled values) : collection.size filled = values.length := by
  have hSize := (collection.grows filled values h).size_foldl
  rw [collection.foldl_add filled values h, collection.size_empty] at hSize
  omega

theorem foldl_concat (first second : List α) :
    second.foldl (fun filled value => filled ++ [value]) first = first ++ second := by
  induction second generalizing first with
  | nil => simp
  | cons value second ih => simp [ih]

theorem grows_concat (first second : List α) :
    Grows (fun filled value => filled ++ [value]) List.length first second := by
  induction second generalizing first with
  | nil => trivial
  | cons value second ih => exact ⟨by simp, ih _⟩

/-- Sequences are visited in their own order. -/
def sequence (α : Type) : Collection (List α) α where
  empty := []
  add filled value := filled ++ [value]
  size := List.length
  Mem value filled := value ∈ filled
  Proper _ := True
  Order filled values := values = filled
  size_empty := rfl
  size_add_le filled value := by simp
  exists_order filled _ := ⟨filled, rfl⟩
  mem_of_order filled values hOrder value hValue := hOrder ▸ hValue
  foldl_add filled values hOrder := by
    rw [foldl_concat, List.nil_append, hOrder]
  grows filled values _ := grows_concat [] values

section Finset

variable [DecidableEq α]

/-- Distinct values that are not there yet are added to a set. -/
theorem foldl_insert_val {filled : Finset α} {values : List α} (hNodup : values.Nodup)
    (hNew : ∀ value ∈ values, value ∉ filled) :
    (values.foldl (fun filled value => insert value filled) filled).val =
        filled.val + (values : Multiset α) ∧
      Grows (fun filled value => insert value filled) Finset.card filled values := by
  induction values generalizing filled with
  | nil => exact ⟨by simp, trivial⟩
  | cons value values ih =>
      have hHere : value ∉ filled := hNew value (by simp)
      obtain ⟨hFirst, hRest⟩ := List.nodup_cons.mp hNodup
      have hLater : ∀ other ∈ values, other ∉ insert value filled := by
        intro other hOther hIn
        cases Finset.mem_insert.mp hIn with
        | inl hSame => exact hFirst (hSame ▸ hOther)
        | inr hOld => exact hNew other (by simp [hOther]) hOld
      obtain ⟨hVal, hGrows⟩ := ih hRest hLater
      refine ⟨?_, Finset.card_insert_of_notMem hHere, hGrows⟩
      rw [List.foldl_cons, hVal, Finset.insert_val_of_notMem hHere, ← Multiset.cons_coe,
        Multiset.add_cons, Multiset.cons_add]

/-- Sets are visited in any order. -/
def finset (α : Type) [DecidableEq α] : Collection (Finset α) α where
  empty := ∅
  add filled value := insert value filled
  size := Finset.card
  Mem value filled := value ∈ filled
  Proper _ := True
  Order filled values := filled.val = values
  size_empty := rfl
  size_add_le filled value := Finset.card_insert_le value filled
  exists_order filled _ := ⟨filled.val.toList, by simp⟩
  mem_of_order filled values hOrder value hValue := by
    rw [Finset.mem_def, hOrder]
    simpa using hValue
  foldl_add filled values hOrder := by
    have hNodup : values.Nodup := by simpa [hOrder] using filled.nodup
    have hVal := (foldl_insert_val hNodup fun value _ => Finset.notMem_empty value).1
    apply Finset.val_inj.mp
    rw [hVal, hOrder, Finset.empty_val, Multiset.zero_add]
  grows filled values hOrder := by
    have hNodup : values.Nodup := by simpa [hOrder] using filled.nodup
    exact (foldl_insert_val hNodup (by simp)).2

end Finset

section Table

variable [DecidableEq Key]

def emplaceRow (entry : α → Key × Value) (table : Finmap fun _ : Key => Value) (value : α) :
    Finmap fun _ : Key => Value :=
  Table.emplace table (entry value).1 (entry value).2

def row (entry : α → Key × Value) (value : α) : Sigma fun _ : Key => Value :=
  ⟨(entry value).1, (entry value).2⟩

theorem entries_emplaceRow {entry : α → Key × Value} {table : Finmap fun _ : Key => Value}
    {value : α} (h : (entry value).1 ∉ table) :
    (emplaceRow entry table value).entries = row entry value ::ₘ table.entries := by
  rw [emplaceRow, Table.emplace, if_neg h, Finmap.entries_insert_of_notMem h]
  rfl

/-- Rows with distinct keys that are not there yet are added to a table. -/
theorem foldl_emplaceRow {entry : α → Key × Value} {table : Finmap fun _ : Key => Value}
    {values : List α} (hNodup : (values.map fun value => (entry value).1).Nodup)
    (hNew : ∀ value ∈ values, (entry value).1 ∉ table) :
    (values.foldl (emplaceRow entry) table).entries =
        table.entries + (values.map (row entry) : Multiset (Sigma fun _ : Key => Value)) ∧
      Grows (emplaceRow entry) (fun table => table.entries.card) table values := by
  induction values generalizing table with
  | nil => exact ⟨by simp, trivial⟩
  | cons value values ih =>
      have hHere : (entry value).1 ∉ table := hNew value (by simp)
      rw [List.map_cons, List.nodup_cons] at hNodup
      have hLater : ∀ other ∈ values, (entry other).1 ∉ emplaceRow entry table value := by
        intro other hOther hIn
        cases (Table.mem_emplace _ _ _ _).mp hIn with
        | inl hSame => exact hNodup.1 (List.mem_map.mpr ⟨other, hOther, hSame⟩)
        | inr hOld => exact hNew other (by simp [hOther]) hOld
      obtain ⟨hEntries, hGrows⟩ := ih hNodup.2 hLater
      refine ⟨?_, by simp [entries_emplaceRow hHere], hGrows⟩
      rw [List.foldl_cons, hEntries, entries_emplaceRow hHere, List.map_cons, ← Multiset.cons_coe,
        Multiset.add_cons, Multiset.cons_add]

omit [DecidableEq Key] in
theorem nodup_keys_of_entries {entry : α → Key × Value} {table : Finmap fun _ : Key => Value}
    {values : List α} (h : table.entries = (values.map (row entry) : List _)) :
    (values.map fun value => (entry value).1).Nodup := by
  have hNodup := table.nodupKeys.nodup_keys
  rw [h] at hNodup
  simpa [Multiset.keys, row, Function.comp_def] using hNodup

/-- Tables are visited in any order. The elements are the rows, as they stand in
the table. -/
def table (entry : α → Key × Value) : Collection (Finmap fun _ : Key => Value) α where
  empty := ∅
  add := emplaceRow entry
  size table := table.entries.card
  Mem value table := table.lookup (entry value).1 = some (entry value).2
  Proper table := ∀ key value, table.lookup key = some value →
    ∃ element, entry element = (key, value)
  Order table values := table.entries = (values.map (row entry) : List _)
  size_empty := rfl
  size_add_le table value := by
    by_cases hKey : (entry value).1 ∈ table
    · simp [emplaceRow, Table.emplace, hKey]
    · simp [entries_emplaceRow hKey]
  exists_order table hProper := by
    have hRows : ∀ found ∈ table.entries, ∃ element, row entry element = found := by
      intro found hFound
      obtain ⟨element, hElement⟩ :=
        hProper found.1 found.2 (Finmap.lookup_eq_some_iff.mpr hFound)
      exact ⟨element, by simp [row, hElement]⟩
    have hList : table.entries.toList ∈ Set.range (List.map (row entry)) := by
      rw [Set.range_list_map]
      intro found hFound
      exact hRows found (by simpa using hFound)
    obtain ⟨values, hValues⟩ := hList
    exact ⟨values, by rw [hValues, Multiset.coe_toList]⟩
  mem_of_order table values hOrder value hValue := by
    rw [Finmap.lookup_eq_some_iff, hOrder]
    exact List.mem_map.mpr ⟨value, hValue, rfl⟩
  foldl_add table values hOrder := by
    have hEntries := (foldl_emplaceRow (nodup_keys_of_entries hOrder)
      fun _ _ => Finmap.notMem_empty).1
    apply Finmap.ext
    rw [hEntries, hOrder]
    exact Multiset.zero_add _
  grows table values hOrder :=
    (foldl_emplaceRow (nodup_keys_of_entries hOrder) fun _ _ => Finmap.notMem_empty).2

instance [DecidableEq Value] (entry : α → Key × Value) (rows : Finmap fun _ : Key => Value)
    (values : List α) : Decidable ((table entry).Order rows values) :=
  inferInstanceAs (Decidable (rows.entries = (values.map (row entry) : List _)))

theorem proper_table_id (rows : Finmap fun _ : Key => Value) :
    (table (id : Key × Value → Key × Value)).Proper rows :=
  fun key value _ => ⟨(key, value), rfl⟩

/-- An iteration over a table visits each of its rows once. -/
theorem order_table_iff {entry : α → Key × Value} {rows : Finmap fun _ : Key => Value}
    {values : List α} :
    (table entry).Order rows values ↔ (values.map fun value => (entry value).1).Nodup ∧
      ∀ key found, rows.lookup key = some found ↔ (key, found) ∈ values.map entry := by
  have hMem : ∀ key found, (⟨key, found⟩ : Sigma fun _ : Key => Value) ∈ values.map (row entry) ↔
      (key, found) ∈ values.map entry := by
    intro key found
    simp [row, Prod.ext_iff]
  constructor
  · intro hOrder
    refine ⟨nodup_keys_of_entries hOrder, ?_⟩
    intro key found
    rw [Finmap.lookup_eq_some_iff, ← hMem, hOrder]
    exact Multiset.mem_coe
  · rintro ⟨hNodup, hRows⟩
    have hDistinct : (values.map (row entry)).Nodup := by
      apply List.Nodup.of_map Sigma.fst
      simpa [row, Function.comp_def] using hNodup
    refine (Multiset.Nodup.ext rows.nodup_entries (Multiset.coe_nodup.mpr hDistinct)).mpr ?_
    rintro ⟨key, found⟩
    rw [← Finmap.lookup_eq_some_iff, hRows, ← hMem]
    exact Multiset.mem_coe.symm

/-- Tables with related rows can be visited in the same order of keys. -/
theorem order_map_of_related {Other : Type} {R : Value → Other → Prop}
    {rows : Finmap fun _ : Key => Value} {others : Finmap fun _ : Key => Other}
    {order : List (Key × Value)} {translate : Key × Value → Key × Other}
    (h : Table.Related R rows others) (hOrder : (table id).Order rows order)
    (hTranslate : ∀ entry ∈ order, (translate entry).1 = entry.1 ∧
      others.lookup entry.1 = some (translate entry).2) :
    (table id).Order others (order.map translate) := by
  obtain ⟨hNodup, hRows⟩ := order_table_iff.mp hOrder
  have hKeys : (order.map translate).map Prod.fst = order.map Prod.fst := by
    rw [List.map_map]
    exact List.map_congr_left fun entry hEntry => (hTranslate entry hEntry).1
  rw [order_table_iff]
  refine ⟨hKeys.symm ▸ hNodup, ?_⟩
  intro key value
  rw [List.map_id, List.mem_map]
  constructor
  · intro hLookup
    obtain ⟨found, hFound, _⟩ := h.exists_of_lookup_right hLookup
    have hIn : (key, found) ∈ order := by simpa using (hRows key found).mp hFound
    obtain ⟨hKey, hValue⟩ := hTranslate _ hIn
    exact ⟨_, hIn, Prod.ext hKey (Option.some.inj (hValue.symm.trans hLookup))⟩
  · rintro ⟨entry, hIn, hSame⟩
    obtain ⟨hKey, hValue⟩ := hTranslate entry hIn
    rw [hSame] at hKey hValue
    rwa [← hKey] at hValue

end Table

/-- Sums over the elements of a container, for a type in which an insertion that
does not make the container larger leaves it as it is. -/
structure Sums (collection : Collection γ α) where
  total : (α → Nat) → γ → Nat
  total_eq : ∀ weight filled values, collection.Order filled values →
    total weight filled = (values.map weight).sum
  add_eq : ∀ filled value,
    collection.size (collection.add filled value) ≠ collection.size filled + 1 →
      collection.add filled value = filled
  order_foldl : ∀ values, Grows collection.add collection.size collection.empty values →
    collection.Order (values.foldl collection.add collection.empty) values
  exists_order : ∀ filled, ∃ values, collection.Order filled values

/-- A part of a list that weighs as much as the list is the list. -/
theorem eq_of_sublist_of_sum_eq {weight : α → Nat} {kept values : List α}
    (hSub : kept.Sublist values) (hPos : ∀ value ∈ values, 0 < weight value)
    (hSum : (kept.map weight).sum = (values.map weight).sum) : kept = values := by
  induction hSub with
  | slnil => rfl
  | @cons kept values value hSub _ =>
      have hLe : (kept.map weight).sum ≤ (values.map weight).sum :=
        (hSub.map weight).sum_le_sum fun _ _ => Nat.zero_le _
      have hValue := hPos value (by simp)
      rw [List.map_cons, List.sum_cons] at hSum
      omega
  | cons_cons value hSub ih =>
      rw [List.map_cons, List.map_cons, List.sum_cons, List.sum_cons] at hSum
      rw [ih (fun other hOther => hPos other (by simp [hOther])) (by omega)]

namespace Sums

variable {collection : Collection γ α}

/-- Only the insertions that make a container larger count. -/
theorem exists_sublist (sums : Sums collection) (filled : γ) (values : List α) :
    ∃ kept, kept.Sublist values ∧ Grows collection.add collection.size filled kept ∧
      kept.foldl collection.add filled = values.foldl collection.add filled := by
  induction values generalizing filled with
  | nil => exact ⟨[], List.Sublist.refl _, trivial, rfl⟩
  | cons value values ih =>
      by_cases hGrown : collection.size (collection.add filled value) = collection.size filled + 1
      · obtain ⟨kept, hSub, hGrows, hFold⟩ := ih (collection.add filled value)
        exact ⟨value :: kept, hSub.cons_cons value, ⟨hGrown, hGrows⟩, hFold⟩
      · obtain ⟨kept, hSub, hGrows, hFold⟩ := ih filled
        refine ⟨kept, hSub.cons value, hGrows, ?_⟩
        rw [hFold, List.foldl_cons, sums.add_eq filled value hGrown]

theorem total_foldl_le (sums : Sums collection) (weight : α → Nat) (values : List α) :
    sums.total weight (values.foldl collection.add collection.empty) ≤ (values.map weight).sum := by
  obtain ⟨kept, hSub, hGrows, hFold⟩ := sums.exists_sublist collection.empty values
  rw [← hFold, sums.total_eq weight _ kept (sums.order_foldl kept hGrows)]
  exact (hSub.map weight).sum_le_sum fun _ _ => Nat.zero_le _

/-- The sum is that of the inserted elements only if each of them was new. -/
theorem grows_of_total_eq (sums : Sums collection) {weight : α → Nat} {values : List α}
    (hPos : ∀ value ∈ values, 0 < weight value)
    (hTotal : sums.total weight (values.foldl collection.add collection.empty) =
      (values.map weight).sum) :
    Grows collection.add collection.size collection.empty values := by
  obtain ⟨kept, hSub, hGrows, hFold⟩ := sums.exists_sublist collection.empty values
  rw [← hFold, sums.total_eq weight _ kept (sums.order_foldl kept hGrows)] at hTotal
  rwa [eq_of_sublist_of_sum_eq hSub hPos hTotal] at hGrows

def sequence (α : Type) : Sums (Collection.sequence α) where
  total weight filled := (filled.map weight).sum
  total_eq weight filled values hOrder := by
    rw [show values = filled from hOrder]
  add_eq filled value h := (h (by simp [Collection.sequence])).elim
  order_foldl values _ := by
    show values = values.foldl (fun filled value => filled ++ [value]) []
    rw [foldl_concat, List.nil_append]
  exists_order filled := ⟨filled, rfl⟩

/-- A set grows with every value only if no value comes twice. -/
theorem nodup_of_grows_insert [DecidableEq α] {filled : Finset α} {values : List α}
    (h : Grows (fun filled value => insert value filled) Finset.card filled values) :
    values.Nodup ∧ ∀ value ∈ values, value ∉ filled := by
  induction values generalizing filled with
  | nil => simp
  | cons value values ih =>
      obtain ⟨hNodup, hNew⟩ := ih h.2
      have hHere : value ∉ filled := by
        intro hIn
        have hGrown : (insert value filled).card = filled.card + 1 := h.1
        rw [Finset.insert_eq_of_mem hIn] at hGrown
        omega
      refine ⟨List.nodup_cons.mpr ⟨?_, hNodup⟩, ?_⟩
      · intro hAgain
        exact hNew value hAgain (Finset.mem_insert_self value filled)
      · intro other hOther
        cases List.mem_cons.mp hOther with
        | inl hSame => exact hSame ▸ hHere
        | inr hLater => exact fun hIn => hNew other hLater (Finset.mem_insert_of_mem hIn)

def finset (α : Type) [DecidableEq α] : Sums (Collection.finset α) where
  total weight filled := (filled.val.map weight).sum
  total_eq weight filled values hOrder := by
    rw [show filled.val = values from hOrder, Multiset.map_coe, Multiset.sum_coe]
  add_eq filled value h := by
    apply Finset.insert_eq_of_mem
    by_contra hNew
    exact h (Finset.card_insert_of_notMem hNew)
  order_foldl values h := by
    have hNodup := nodup_of_grows_insert h
    have hVal := (foldl_insert_val hNodup.1 hNodup.2).1
    exact hVal.trans (Multiset.zero_add _)
  exists_order filled := (Collection.finset α).exists_order filled trivial

/-- A table grows with every row only if no key comes twice. -/
theorem nodup_of_grows_emplaceRow [DecidableEq Key] {entry : α → Key × Value}
    {rows : Finmap fun _ : Key => Value} {values : List α}
    (h : Grows (emplaceRow entry) (fun rows => rows.entries.card) rows values) :
    (values.map fun value => (entry value).1).Nodup ∧ ∀ value ∈ values, (entry value).1 ∉ rows := by
  induction values generalizing rows with
  | nil => simp
  | cons value values ih =>
      obtain ⟨hNodup, hNew⟩ := ih h.2
      have hHere : (entry value).1 ∉ rows := by
        intro hIn
        have hGrown := h.1
        simp [emplaceRow, Table.emplace, hIn] at hGrown
      rw [List.map_cons, List.nodup_cons]
      refine ⟨⟨?_, hNodup⟩, ?_⟩
      · intro hAgain
        obtain ⟨other, hOther, hSame⟩ := List.mem_map.mp hAgain
        exact hNew other hOther ((Table.mem_emplace _ _ _ _).mpr (.inl hSame))
      · intro other hOther
        cases List.mem_cons.mp hOther with
        | inl hSame => exact hSame ▸ hHere
        | inr hLater =>
            exact fun hIn => hNew other hLater ((Table.mem_emplace _ _ _ _).mpr (.inr hIn))

def table [DecidableEq Key] (entry : α → Key × Value) (element : Key × Value → α)
    (hElement : ∀ value, element (entry value) = value)
    (hEntry : ∀ found, entry (element found) = found) : Sums (Collection.table entry) where
  total weight rows := (rows.entries.map fun found => weight (element (found.1, found.2))).sum
  total_eq weight rows values hOrder := by
    have hWeights : ∀ value, weight (element ((row entry value).1, (row entry value).2)) =
        weight value := by
      intro value
      exact congrArg weight (hElement value)
    rw [show rows.entries = (values.map (row entry) : List _) from hOrder, Multiset.map_coe,
      Multiset.sum_coe, List.map_map]
    exact congrArg List.sum (List.map_congr_left fun value _ => hWeights value)
  add_eq rows value h := by
    have hOld : (entry value).1 ∈ rows := by
      by_contra hNew
      exact h (by simp [Collection.table, entries_emplaceRow hNew])
    simp [Collection.table, emplaceRow, Table.emplace, hOld]
  order_foldl values h := by
    have hNodup := nodup_of_grows_emplaceRow h
    have hEntries := (foldl_emplaceRow hNodup.1 hNodup.2).1
    exact hEntries.trans (Multiset.zero_add _)
  exists_order rows := (Collection.table entry).exists_order rows fun key value _ =>
    ⟨element (key, value), hEntry _⟩

end Sums

end Collection
