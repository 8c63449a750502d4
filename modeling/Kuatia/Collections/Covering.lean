import Mathlib.Algebra.Order.BigOperators.Group.List
import Mathlib.Data.List.Perm.Subperm
import Mathlib.Data.Set.Basic
import Mathlib.Order.Bounds.Defs

/-! # Covering an amount with few parts

Some of the parts cover an amount when they sum to at least the amount. Of as many
parts, none sum to more than the largest ones, so the shortest prefix of the parts
in descending order that covers the amount has as few parts as any cover.
-/

namespace Covering

variable {α β : Type*} [AddCommMonoid α] [LinearOrder α] [IsOrderedAddMonoid α]

/-- The numbers of parts with which some of the parts cover the amount. -/
def sizes (size : β → α) (parts : List β) (amount : α) : Set Nat :=
  {n | ∃ chosen : List β, chosen.Sublist parts ∧ amount ≤ (chosen.map size).sum ∧ chosen.length = n}

variable {size : β → α} {parts other chosen : List β} {amount : α}

omit [IsOrderedAddMonoid α] in
/-- The order of the parts does not matter. -/
theorem sizes_perm (hperm : parts.Perm other) : sizes size parts amount = sizes size other amount := by
  have hsubset : ∀ {first second : List β}, first.Perm second →
      sizes size first amount ⊆ sizes size second amount := by
    rintro first second hperm n ⟨chosen, hsub, hcovers, hlength⟩
    obtain ⟨rearranged, hsame, hsub⟩ := hsub.subperm.trans hperm.subperm
    exact ⟨rearranged, hsub, (hsame.map size).sum_eq.symm ▸ hcovers, hsame.length_eq.trans hlength⟩
  exact Set.Subset.antisymm (hsubset hperm) (hsubset hperm.symm)

/-- A larger part in front makes no prefix smaller. -/
theorem sum_take_le_cons {first : β} (hlargest : ∀ part ∈ parts, size part ≤ size first) {n : Nat}
    (hn : n ≤ parts.length) :
    ((parts.take n).map size).sum ≤ (((first :: parts).take n).map size).sum := by
  cases n with
  | zero => rfl
  | succ n =>
      rw [List.take_succ_cons, List.map_cons, List.sum_cons, List.take_add_one, List.map_append,
        List.sum_append, add_comm]
      refine add_le_add_left ?_ _
      rw [List.getElem?_eq_getElem hn, Option.toList_some, List.map_singleton, List.sum_singleton]
      exact hlargest _ (List.getElem_mem hn)

/-- No parts sum to more than as many of the largest ones. -/
theorem sum_le_sum_take (hsorted : parts.Pairwise fun first second => size second ≤ size first)
    (hsub : chosen.Sublist parts) :
    (chosen.map size).sum ≤ ((parts.take chosen.length).map size).sum := by
  induction hsub with
  | slnil => exact le_rfl
  | cons first hsub ih =>
      obtain ⟨hlargest, hsorted⟩ := List.pairwise_cons.mp hsorted
      exact (ih hsorted).trans (sum_take_le_cons hlargest hsub.length_le)
  | cons_cons first _ ih =>
      rw [List.length_cons, List.take_succ_cons, List.map_cons, List.map_cons, List.sum_cons,
        List.sum_cons]
      exact add_le_add_right (ih (List.pairwise_cons.mp hsorted).2) _

/-- The shortest prefix of the descending parts that covers the amount is a smallest cover. -/
theorem isLeast_of_prefix {earlier later : List β} {last : β}
    (hsorted : (earlier ++ last :: later).Pairwise fun first second => size second ≤ size first)
    (hnonneg : ∀ part ∈ earlier, 0 ≤ size part)
    (hshort : (earlier.map size).sum < amount)
    (henough : amount ≤ ((earlier ++ [last]).map size).sum) :
    IsLeast (sizes size (earlier ++ last :: later) amount) (earlier.length + 1) := by
  refine ⟨⟨earlier ++ [last], ?_, henough, by simp⟩, ?_⟩
  · exact (List.sublist_append_left [last] later).append_left earlier
  · rintro n ⟨chosen, hsub, hcovers, rfl⟩
    by_contra hfewer
    -- so few parts sum to no more than a part of the prefix without its last
    have htaken := sum_le_sum_take hsorted hsub
    rw [List.take_append_of_le_length (by omega)] at htaken
    have hprefix : ((earlier.take chosen.length).map size).sum ≤ (earlier.map size).sum :=
      ((List.take_sublist chosen.length earlier).map size).sum_le_sum fun value hvalue => by
        obtain ⟨part, hpart, rfl⟩ := List.mem_map.mp hvalue
        exact hnonneg part hpart
    exact (hcovers.trans (htaken.trans hprefix)).not_gt hshort

end Covering
