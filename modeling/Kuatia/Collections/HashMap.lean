import Mathlib.Data.List.AList
import Mathlib.Data.List.Forall2
import Mathlib.Algebra.BigOperators.Group.Finset.Basic
import Mathlib.Algebra.BigOperators.Group.List.Basic

/-! # Hash maps as association lists

A hash map is an association list without repeated keys. Its list order is
never observed directly: what iterates over a map goes through an
`IterationOrder`, which may arrange the entries in any way.
-/

/-- A hash map from `K` to `V`. -/
abbrev HashMap (K V : Type) := AList fun _ : K => V

/-- The order in which a hash map or a hash set happens to be iterated. -/
structure IterationOrder where
  arrange : ∀ {α : Type}, List α → List α
  arrange_perm : ∀ {α : Type} (entries : List α), (arrange entries).Perm entries

namespace IterationOrder

/-- The order that leaves the entries as they are. -/
def listed : IterationOrder := ⟨fun entries => entries, fun _ => .refl _⟩

instance : Nonempty IterationOrder := ⟨listed⟩

@[simp] theorem mem_arrange {α : Type} (order : IterationOrder) {entries : List α} {entry : α} :
    entry ∈ order.arrange entries ↔ entry ∈ entries :=
  (order.arrange_perm entries).mem_iff

/-- Entries may come in any order. -/
theorem exists_arrange {α : Type} {entries list : List α} (hperm : list.Perm entries) :
    ∃ order : IterationOrder, order.arrange entries = list := by
  classical
  let arrange {β : Type} (others : List β) : List β :=
    if hsame : ∃ heq : α = β, heq ▸ entries = others then hsame.choose ▸ list else others
  have hfound : arrange entries = list := by
    have hsame : ∃ heq : α = α, heq ▸ entries = entries := ⟨rfl, rfl⟩
    simp only [arrange, dif_pos hsame]
  refine ⟨⟨arrange, ?_⟩, hfound⟩
  intro β others
  by_cases hsame : ∃ heq : α = β, heq ▸ entries = others
  · obtain ⟨rfl, rfl⟩ := hsame
    exact hfound ▸ hperm
  · simp only [arrange, dif_neg hsame]
    exact .refl _

end IterationOrder

namespace HashMap

variable {K V : Type} [DecidableEq K]

/-- The stored values, in no particular order. -/
def values (map : HashMap K V) : List V := map.entries.map Sigma.snd

theorem lookup_eq_some_iff {map : HashMap K V} {key : K} {value : V} :
    map.lookup key = some value ↔ (⟨key, value⟩ : Σ _ : K, V) ∈ map.entries :=
  AList.mem_lookup_iff

theorem mem_values_iff {map : HashMap K V} {value : V} :
    value ∈ map.values ↔ ∃ key, map.lookup key = some value := by
  simp only [values, List.mem_map, lookup_eq_some_iff]
  constructor
  · rintro ⟨⟨key, value⟩, hentry, rfl⟩
    exact ⟨key, hentry⟩
  · rintro ⟨key, hentry⟩
    exact ⟨_, hentry, rfl⟩

theorem lookup_insert_eq (map : HashMap K V) (key other : K) (value : V) :
    (map.insert other value).lookup key = if key = other then some value else map.lookup key := by
  split
  next heq =>
    subst heq
    exact AList.lookup_insert map
  next hne => exact AList.lookup_insert_ne hne

theorem lookup_erase_eq (map : HashMap K V) (key other : K) :
    (map.erase other).lookup key = if key = other then none else map.lookup key := by
  split
  next heq =>
    subst heq
    exact AList.lookup_erase key map
  next hne => exact AList.lookup_erase_ne hne

theorem mem_iff_exists_lookup {map : HashMap K V} {key : K} :
    key ∈ map ↔ ∃ value, map.lookup key = some value := by
  rw [← AList.lookup_isSome, Option.isSome_iff_exists]

/-! ## Looking up several keys -/

section LookupAll

variable {map : HashMap K V} {keys : List K} {values : List V}

theorem filterMap_lookup_eq
    (hall : List.Forall₂ (fun key value => map.lookup key = some value) keys values) :
    keys.filterMap map.lookup = values := by
  induction hall with
  | nil => rfl
  | cons hhead _ ih => simp [hhead, ih]

theorem forall₂_filterMap_lookup (hkeys : ∀ key ∈ keys, key ∈ map) :
    List.Forall₂ (fun key value => map.lookup key = some value) keys
      (keys.filterMap map.lookup) := by
  induction keys with
  | nil => exact .nil
  | cons head tail ih =>
      obtain ⟨value, hvalue⟩ := mem_iff_exists_lookup.mp (hkeys head List.mem_cons_self)
      rw [List.filterMap_cons, hvalue]
      exact .cons hvalue (ih fun key hkey => hkeys key (List.mem_cons_of_mem _ hkey))

/-- Values stored under their own keys name the keys they are found under. -/
theorem map_key_eq {keyOf : V → K}
    (hkeyed : ∀ key value, map.lookup key = some value → keyOf value = key)
    (hall : List.Forall₂ (fun key value => map.lookup key = some value) keys values) :
    values.map keyOf = keys := by
  induction hall with
  | nil => rfl
  | cons hhead _ ih => rw [List.map_cons, ih, hkeyed _ _ hhead]

/-- Values stored under their own keys have distinct ones. -/
theorem nodup_map_values {keyOf : V → K}
    (hkeyed : ∀ key value, map.lookup key = some value → keyOf value = key) :
    (map.values.map keyOf).Nodup := by
  have hkeys : map.values.map keyOf = map.entries.keys := by
    rw [HashMap.values, List.map_map, List.keys]
    exact List.map_congr_left fun entry hentry =>
      hkeyed entry.1 entry.2 (lookup_eq_some_iff.mpr hentry)
  rw [hkeys]
  exact map.nodupKeys

end LookupAll

/-! ## Removing and inserting many entries -/

def eraseAll (map : HashMap K V) (keys : List K) : HashMap K V :=
  keys.foldl (fun map key => map.erase key) map

def insertAll (map : HashMap K V) (key : V → K) (items : List V) : HashMap K V :=
  items.foldl (fun map value => map.insert (key value) value) map

theorem lookup_eraseAll (map : HashMap K V) (keys : List K) (key : K) :
    (map.eraseAll keys).lookup key = if key ∈ keys then none else map.lookup key := by
  induction keys generalizing map with
  | nil => simp [eraseAll]
  | cons head tail ih =>
      change (eraseAll (map.erase head) tail).lookup key = _
      rw [ih, lookup_erase_eq]
      by_cases hhead : key = head <;> by_cases htail : key ∈ tail <;> simp [hhead, htail]

theorem lookup_insertAll_of_notMem {map : HashMap K V} {keyOf : V → K} {items : List V} {key : K}
    (hkey : ∀ item ∈ items, keyOf item ≠ key) :
    (map.insertAll keyOf items).lookup key = map.lookup key := by
  induction items generalizing map with
  | nil => rfl
  | cons head tail ih =>
      change (insertAll (map.insert (keyOf head) head) keyOf tail).lookup key = _
      rw [ih fun item hitem => hkey item (List.mem_cons_of_mem _ hitem),
        AList.lookup_insert_ne (hkey head List.mem_cons_self).symm]

/-- What is inserted under a key does not depend on what was there before. -/
theorem lookup_insertAll_congr {map : HashMap K V} (other : HashMap K V) {keyOf : V → K} {items : List V}
    {item : V} (hitem : item ∈ items) :
    (map.insertAll keyOf items).lookup (keyOf item) =
      (other.insertAll keyOf items).lookup (keyOf item) := by
  induction items generalizing map other item with
  | nil => cases hitem
  | cons head tail ih =>
      change (insertAll (map.insert _ head) keyOf tail).lookup _ =
        (insertAll (other.insert _ head) keyOf tail).lookup _
      by_cases htail : ∃ later ∈ tail, keyOf later = keyOf item
      · obtain ⟨later, hlater, hkey⟩ := htail
        rw [← hkey]
        exact ih _ hlater
      · have hnone : ∀ later ∈ tail, keyOf later ≠ keyOf item :=
          fun later hlater hkey => htail ⟨later, hlater, hkey⟩
        rw [lookup_insertAll_of_notMem hnone, lookup_insertAll_of_notMem hnone]
        rcases List.mem_cons.mp hitem with rfl | hitem
        · rw [AList.lookup_insert, AList.lookup_insert]
        · exact absurd rfl (hnone item hitem)

/-- An item is of no account when a later one takes its key. -/
theorem lookup_insertAll_shadowed {map : HashMap K V} {keyOf : V → K} {items : List V}
    {first later : V} (hlater : later ∈ items) (hsame : keyOf later = keyOf first) (key : K) :
    (map.insertAll keyOf (first :: items)).lookup key = (map.insertAll keyOf items).lookup key := by
  change (insertAll (map.insert (keyOf first) first) keyOf items).lookup key = _
  by_cases hkey : ∃ item ∈ items, keyOf item = key
  · obtain ⟨item, hitem, rfl⟩ := hkey
    exact lookup_insertAll_congr _ hitem
  · have hnone : ∀ item ∈ items, keyOf item ≠ key :=
      fun item hitem heq => hkey ⟨item, hitem, heq⟩
    rw [lookup_insertAll_of_notMem hnone, lookup_insertAll_of_notMem hnone,
      AList.lookup_insert_ne fun heq => hnone later hlater (hsame.trans heq.symm)]

/-- Maps that agree everywhere hold the same values. -/
theorem values_perm {map other : HashMap K V} (hsame : ∀ key, map.lookup key = other.lookup key) :
    map.values.Perm other.values := by
  refine List.Perm.map _ (List.lookup_ext map.nodupKeys other.nodupKeys fun key value => ?_)
  exact Iff.of_eq (congrArg (value ∈ ·) (hsame key))

/-- The last item inserted under a key is the one stored there. -/
theorem lookup_insertAll_of_split {map : HashMap K V} {keyOf : V → K} {before after : List V}
    {item : V} (hafter : ∀ other ∈ after, keyOf other ≠ keyOf item) :
    (map.insertAll keyOf (before ++ item :: after)).lookup (keyOf item) = some item := by
  simp only [insertAll, List.foldl_append, List.foldl_cons]
  exact (lookup_insertAll_of_notMem hafter).trans (AList.lookup_insert _)

/-- Whatever is found after inserting was inserted, or was there before. -/
theorem lookup_insertAll_cases {map : HashMap K V} {keyOf : V → K} {items : List V} {key : K}
    {value : V} (hvalue : (map.insertAll keyOf items).lookup key = some value) :
    (value ∈ items ∧ keyOf value = key) ∨
      (map.lookup key = some value ∧ ∀ item ∈ items, keyOf item ≠ key) := by
  induction items generalizing map with
  | nil => exact .inr ⟨hvalue, by simp⟩
  | cons head tail ih =>
      obtain ⟨hmem, hkey⟩ | ⟨hold, hnone⟩ := @ih (map.insert (keyOf head) head) hvalue
      · exact .inl ⟨List.mem_cons_of_mem _ hmem, hkey⟩
      · rw [lookup_insert_eq] at hold
        split at hold
        next heq =>
          cases hold
          exact .inl ⟨List.mem_cons_self, heq.symm⟩
        next hne =>
          refine .inr ⟨hold, ?_⟩
          rintro item hitem
          rcases List.mem_cons.mp hitem with rfl | hitem
          · exact fun heq => hne heq.symm
          · exact hnone item hitem

/-- The last item under a key counts, and without one what was there before. -/
theorem lookup_foldl_insert {α : Type} (keyOf : α → K) (valueOf : α → V) (items : List α)
    (map : HashMap K V) (key : K) :
    (items.foldl (fun map item => map.insert (keyOf item) (valueOf item)) map).lookup key =
      ((items.filter (keyOf · = key)).getLast?.map valueOf).or (map.lookup key) := by
  induction items generalizing map with
  | nil => rfl
  | cons head tail ih =>
      rw [List.foldl_cons, ih, lookup_insert_eq, List.filter_cons]
      by_cases hhead : keyOf head = key
      · simp only [hhead, decide_true, if_true, List.getLast?_cons]
        cases (tail.filter (keyOf · = key)).getLast? <;> simp
      · simp [hhead, Ne.symm hhead]

theorem lookup_insertAll (map : HashMap K V) (keyOf : V → K) (items : List V) (key : K) :
    (map.insertAll keyOf items).lookup key =
      (items.filter (keyOf · = key)).getLast?.or (map.lookup key) := by
  have hlast := lookup_foldl_insert keyOf (fun item : V => item) items map key
  rw [Option.map_id'] at hlast
  exact hlast

theorem mem_insertAll {map : HashMap K V} {keyOf : V → K} {items : List V} {key : K} :
    key ∈ map.insertAll keyOf items ↔ key ∈ map ∨ ∃ item ∈ items, keyOf item = key := by
  induction items generalizing map with
  | nil => simp [insertAll]
  | cons head tail ih =>
      change key ∈ insertAll (map.insert (keyOf head) head) keyOf tail ↔ _
      simp only [ih, AList.mem_insert, List.mem_cons, exists_eq_or_imp, eq_comm (a := key)]
      tauto

theorem mem_eraseAll {map : HashMap K V} {keys : List K} {key : K} :
    key ∈ map.eraseAll keys ↔ key ∈ map ∧ key ∉ keys := by
  rw [← AList.lookup_isSome, ← AList.lookup_isSome, lookup_eraseAll]
  by_cases hkey : key ∈ keys <;> simp [hkey]

/-- With distinct keys, every inserted item is found. -/
theorem lookup_insertAll_of_mem {map : HashMap K V} {keyOf : V → K} {items : List V} {item : V}
    (hnodup : (items.map keyOf).Nodup) (hitem : item ∈ items) :
    (map.insertAll keyOf items).lookup (keyOf item) = some item := by
  obtain ⟨before, after, rfl⟩ := List.append_of_mem hitem
  refine lookup_insertAll_of_split fun other hother heq => ?_
  rw [List.map_append, List.map_cons, List.nodup_append] at hnodup
  have hfresh := (List.nodup_cons.mp hnodup.2.1).1
  exact hfresh (heq ▸ List.mem_map_of_mem hother)

/-! ## The values after removing and inserting -/

/-- Values stored under their own keys: those that removing some keys leaves. -/
theorem values_eraseAll_perm_filter {map : HashMap K V} {keyOf : V → K} (keys : List K)
    (hkeyed : ∀ key value, map.lookup key = some value → keyOf value = key) :
    (map.eraseAll keys).values.Perm (map.values.filter fun value => keyOf value ∉ keys) := by
  have hleft : ∀ key value, (map.eraseAll keys).lookup key = some value → keyOf value = key := by
    intro key value hlookup
    rw [lookup_eraseAll] at hlookup
    split at hlookup
    next => cases hlookup
    next => exact hkeyed key value hlookup
  apply (List.perm_ext_iff_of_nodup (.of_map _ (nodup_map_values hleft))
    ((List.Nodup.of_map _ (nodup_map_values hkeyed)).filter _)).mpr
  intro value
  rw [List.mem_filter, mem_values_iff, mem_values_iff, decide_eq_true_eq]
  constructor
  · rintro ⟨key, hlookup⟩
    have hkey := hleft key value hlookup
    rw [lookup_eraseAll] at hlookup
    split at hlookup
    next => cases hlookup
    next hnot => exact ⟨⟨key, hlookup⟩, hkey ▸ hnot⟩
  · rintro ⟨⟨key, hlookup⟩, hnot⟩
    have hkey := hkeyed key value hlookup
    exact ⟨key, by rw [lookup_eraseAll, if_neg (hkey ▸ hnot), hlookup]⟩

theorem values_insert (map : HashMap K V) (key : K) (value : V) :
    values (map.insert key value) = value :: values (map.erase key) := rfl

theorem values_erase_sublist (map : HashMap K V) (key : K) :
    (values (map.erase key)).Sublist map.values :=
  (List.kerase_sublist key map.entries).map _

theorem values_eraseAll_sublist (map : HashMap K V) (keys : List K) :
    (map.eraseAll keys).values.Sublist map.values := by
  induction keys generalizing map with
  | nil => exact .refl _
  | cons key keys ih => exact (ih (map.erase key)).trans (values_erase_sublist map key)

theorem values_insert_perm {map : HashMap K V} {key : K} {value : V} (hfresh : key ∉ map) :
    (values (map.insert key value)).Perm (value :: map.values) := by
  simp only [values, AList.entries_insert_of_notMem hfresh, List.map_cons]
  exact .refl _

theorem values_erase_perm {map : HashMap K V} {key : K} {value : V}
    (hlookup : map.lookup key = some value) :
    map.values.Perm (value :: values (map.erase key)) := by
  have hfresh : key ∉ map.erase key := by simp [AList.mem_erase]
  have hentries : map.entries.Perm ((map.erase key).insert key value).entries := by
    refine List.lookup_ext map.nodupKeys (AList.nodupKeys _) fun other entry => ?_
    change entry ∈ map.lookup other ↔ entry ∈ ((map.erase key).insert key value).lookup other
    rw [lookup_insert_eq, lookup_erase_eq]
    split
    next heq => rw [heq, hlookup]
    next => rfl
  have hvalues : map.values.Perm (values ((map.erase key).insert key value)) :=
    hentries.map _
  exact hvalues.trans (values_insert_perm hfresh)

/-- Removing entries under distinct keys takes exactly their values away. -/
theorem values_eraseAll_perm {map : HashMap K V} {keyOf : V → K} {items : List V}
    (hnodup : (items.map keyOf).Nodup)
    (hlookup : ∀ item ∈ items, map.lookup (keyOf item) = some item) :
    map.values.Perm (items ++ (map.eraseAll (items.map keyOf)).values) := by
  induction items generalizing map with
  | nil => exact .refl _
  | cons head tail ih =>
      rw [List.map_cons, List.nodup_cons] at hnodup
      have hrest := @ih (map.erase (keyOf head)) hnodup.2 fun item hitem => by
        have hne : keyOf item ≠ keyOf head := fun heq =>
          hnodup.1 (heq ▸ List.mem_map_of_mem hitem)
        rw [lookup_erase_eq, if_neg hne]
        exact hlookup item (List.mem_cons_of_mem _ hitem)
      exact (values_erase_perm (hlookup head List.mem_cons_self)).trans (hrest.cons head)

/-- Inserting items under distinct fresh keys adds exactly their values. -/
theorem values_insertAll_perm {map : HashMap K V} {keyOf : V → K} {items : List V}
    (hnodup : (items.map keyOf).Nodup) (hfresh : ∀ item ∈ items, keyOf item ∉ map) :
    (map.insertAll keyOf items).values.Perm (items ++ map.values) := by
  induction items generalizing map with
  | nil => exact .refl _
  | cons head tail ih =>
      rw [List.map_cons, List.nodup_cons] at hnodup
      have hrest := @ih (map.insert (keyOf head) head) hnodup.2 fun item hitem => by
        rw [AList.mem_insert, not_or]
        exact ⟨fun heq => hnodup.1 (heq ▸ List.mem_map_of_mem hitem),
          hfresh item (List.mem_cons_of_mem _ hitem)⟩
      refine (hrest.trans ((values_insert_perm (hfresh head List.mem_cons_self)).append_left
        tail)).trans ?_
      exact List.perm_middle

/-- Inserting items under fresh keys adds the values that they leave in an empty
map: of several items under one key only the last. -/
theorem values_insertAll_perm_of_fresh {map : HashMap K V} {keyOf : V → K} {items : List V}
    (hfresh : ∀ item ∈ items, keyOf item ∉ map) :
    (map.insertAll keyOf items).values.Perm ((insertAll ∅ keyOf items).values ++ map.values) := by
  have hdisjoint : ∀ key, key ∈ insertAll (∅ : HashMap K V) keyOf items → key ∉ map := by
    intro key hkey
    obtain hempty | ⟨item, hitem, rfl⟩ := mem_insertAll.mp hkey
    · exact absurd hempty (AList.notMem_empty key)
    · exact hfresh item hitem
  have hkeys : ((insertAll (∅ : HashMap K V) keyOf items).entries ++ map.entries).NodupKeys := by
    rw [List.NodupKeys, List.keys, List.map_append, List.nodup_append]
    refine ⟨AList.nodupKeys _, map.nodupKeys, ?_⟩
    rintro key hmade _ hold rfl
    exact hdisjoint key hmade hold
  have hentries : (map.insertAll keyOf items).entries.Perm
      ((insertAll ∅ keyOf items).entries ++ map.entries) := by
    refine List.lookup_ext (AList.nodupKeys _) hkeys fun key value => ?_
    rw [List.dlookup_append]
    change value ∈ (map.insertAll keyOf items).lookup key ↔
      value ∈ ((insertAll ∅ keyOf items).lookup key).or (map.lookup key)
    by_cases hmade : ∃ item ∈ items, keyOf item = key
    · obtain ⟨item, hitem, rfl⟩ := hmade
      have hsome : (insertAll (∅ : HashMap K V) keyOf items).lookup (keyOf item) ≠ none :=
        fun hnone => AList.lookup_eq_none.mp hnone (mem_insertAll.mpr (.inr ⟨item, hitem, rfl⟩))
      rw [lookup_insertAll_congr ∅ hitem]
      cases hlookup : (insertAll (∅ : HashMap K V) keyOf items).lookup (keyOf item) with
      | none => exact absurd hlookup hsome
      | some _ => rfl
    · have hnone : ∀ item ∈ items, keyOf item ≠ key :=
        fun item hitem hkey => hmade ⟨item, hitem, hkey⟩
      rw [lookup_insertAll_of_notMem hnone, lookup_insertAll_of_notMem hnone]
      rfl
  rw [values, values, values, ← List.map_append]
  exact hentries.map _

end HashMap
