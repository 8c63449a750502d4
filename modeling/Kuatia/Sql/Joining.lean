import Mathlib.Data.List.Basic
import Mathlib.Tactic.Common

/-! # Joined rows

A join lists each row once for every partner. It lists the rows that have one,
each once, as long as no row has two.
-/

namespace List

variable {α β : Type*} {list : List α} {count : α → Nat}

/-- Each element as often as it counts: with counts up to one, those that count. -/
theorem flatMap_replicate_of_le_one (f : α → β) (hone : ∀ value ∈ list, count value ≤ 1) :
    list.flatMap (fun value => replicate (count value) (f value)) =
      (list.filter (0 < count ·)).map f := by
  induction list with
  | nil => rfl
  | cons head tail ih =>
      rw [forall_mem_cons] at hone
      rw [flatMap_cons, ih hone.2, filter_cons]
      obtain hzero | hpos := Nat.eq_zero_or_pos (count head)
      · simp [hzero]
      · have heq : count head = 1 := by omega
        simp [heq]

theorem length_flatMap_replicate_ge (list : List α) (count : α → Nat) (f : α → β) :
    (list.filter (0 < count ·)).length ≤
    (list.flatMap fun value => replicate (count value) (f value)).length := by
  induction list with
  | nil => exact Nat.le_refl _
  | cons head tail ih =>
      rw [flatMap_cons, filter_cons, length_append, length_replicate]
      split
      next hpos =>
        rw [decide_eq_true_eq] at hpos
        rw [length_cons]
        omega
      next => omega

/-- What counts twice makes the list longer. -/
theorem length_flatMap_replicate_gt (f : α → β) (htwice : ∃ value ∈ list, 1 < count value) :
    (list.filter (0 < count ·)).length <
      (list.flatMap fun value => replicate (count value) (f value)).length := by
  induction list with
  | nil => simp at htwice
  | cons head tail ih =>
      have hrest := length_flatMap_replicate_ge tail count f
      rw [flatMap_cons, filter_cons, length_append, length_replicate]
      obtain ⟨value, hvalue, hcount⟩ := htwice
      rcases mem_cons.mp hvalue with rfl | htail
      · rw [if_pos (decide_eq_true (by omega)), length_cons]
        omega
      · have hlt := ih ⟨value, htail, hcount⟩
        split
        next hpos =>
          rw [decide_eq_true_eq] at hpos
          rw [length_cons]
          omega
        next => omega

end List
