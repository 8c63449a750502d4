import Mathlib.Data.List.Sort
import Mathlib.Data.List.Destutter
import Mathlib.Data.List.Dedup

/-! # Sorting and removing repetitions

A stable sort is `List.insertionSort`; removing consecutive repetitions is
`List.destutter`. Only what stays in the list matters for most uses.
-/

namespace List

variable {α : Type*} [DecidableEq α]

/-- Remove every element that equals its predecessor. -/
def dedupConsecutive (list : List α) : List α := list.destutter (· ≠ ·)

theorem mem_destutter'_ne {list : List α} {first value : α} :
    value ∈ list.destutter' (· ≠ ·) first ↔ value = first ∨ value ∈ list := by
  induction list generalizing first with
  | nil => simp [destutter'_nil]
  | cons head tail ih =>
      by_cases hne : first ≠ head
      · rw [destutter'_cons_pos _ hne]
        simp [ih]
      · rw [destutter'_cons_neg _ hne, ih]
        have heq : first = head := not_not.mp hne
        simp [heq]

@[simp] theorem mem_dedupConsecutive {list : List α} {value : α} :
    value ∈ list.dedupConsecutive ↔ value ∈ list := by
  cases list with
  | nil => simp [dedupConsecutive, destutter_nil]
  | cons head tail => rw [dedupConsecutive, destutter_cons', mem_destutter'_ne, mem_cons]

/-- Sort, then remove repetitions. -/
def sortDedup (le : α → α → Prop) [DecidableRel le] (list : List α) : List α :=
  (list.insertionSort le).dedupConsecutive

@[simp] theorem mem_sortDedup {le : α → α → Prop} [DecidableRel le] {list : List α} {value : α} :
    value ∈ list.sortDedup le ↔ value ∈ list := by
  rw [sortDedup, mem_dedupConsecutive]
  exact (perm_insertionSort le list).mem_iff

theorem destutter'_ne_of_forall {list : List α} {value : α} (hall : ∀ other ∈ list, other = value) :
    list.destutter' (· ≠ ·) value = [value] := by
  induction list with
  | nil => rfl
  | cons head tail ih =>
      rw [forall_mem_cons] at hall
      rw [destutter'_cons_neg _ (not_not.mpr hall.1.symm)]
      exact ih hall.2

/-- Of equal elements one is left. -/
theorem sortDedup_of_forall {le : α → α → Prop} [DecidableRel le] {list : List α} {value : α}
    (hnonempty : list ≠ []) (hall : ∀ other ∈ list, other = value) :
    list.sortDedup le = [value] := by
  have hperm := perm_insertionSort le list
  rw [sortDedup, dedupConsecutive]
  cases hsorted : list.insertionSort le with
  | nil => exact absurd (hsorted ▸ hperm).nil_eq.symm hnonempty
  | cons head tail =>
      have hsame : ∀ other ∈ head :: tail, other = value :=
        fun other hother => hall other (hperm.mem_iff.mp (hsorted ▸ hother))
      rw [forall_mem_cons] at hsame
      rw [destutter_cons', hsame.1, destutter'_ne_of_forall hsame.2]

/-- Keep the first occurrence of every element. -/
def dedupFirst (list : List α) : List α := list.reverse.dedup.reverse

@[simp] theorem mem_dedupFirst {list : List α} {value : α} :
    value ∈ list.dedupFirst ↔ value ∈ list := by
  simp [dedupFirst]

theorem dedupFirst_of_nodup {list : List α} (hnodup : list.Nodup) : list.dedupFirst = list := by
  rw [dedupFirst, (nodup_reverse.mpr hnodup).dedup, reverse_reverse]

omit [DecidableEq α] in
theorem one_lt_length_iff_of_nodup {list : List α} (hnodup : list.Nodup) :
    1 < list.length ↔ ∃ first ∈ list, ∃ second ∈ list, first ≠ second := by
  match list, hnodup with
  | [], _ => simp
  | [_], _ => simp
  | first :: second :: rest, hnodup =>
      have hne : first ≠ second := fun heq => by simp [heq] at hnodup
      exact ⟨fun _ => ⟨first, by simp, second, by simp, hne⟩, fun _ => by simp⟩

end List
