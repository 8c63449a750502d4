import Mathlib.Data.List.Count
import Mathlib.Data.List.Infix
import Mathlib.Data.List.Nodup
import Mathlib.Data.List.Sort
import Mathlib.Data.Nat.ModEq

/-! # Stamps of a time and a counter

Items that arrive one after the other are stamped with the time and with a counter
that runs on, whatever the time, and starts over at `width`. As long as time does not
go back, the stamps are distinct exactly when no time sees more than `width` items.
-/

namespace Stamps

variable {α : Type*} {width start : Nat} {times : List α} {time : α}

/-- The stamps of items that arrive at these times, from a counter at `start`. -/
def stamps (width start : Nat) (times : List α) : List (α × Nat) :=
  times.mapIdx fun index time => (time, (start + index) % width)

theorem length_stamps : (stamps width start times).length = times.length := List.length_mapIdx

theorem getElem?_stamps {index : Nat} : (stamps width start times)[index]? =
    times[index]?.map fun time => (time, (start + index) % width) :=
  List.getElem?_mapIdx

theorem stamps_cons (head : α) (tail : List α) :
    stamps width start (head :: tail) = (head, start % width) :: stamps width (start + 1) tail := by
  rw [stamps, List.mapIdx_cons, stamps]
  simp only [Nat.add_zero, Nat.add_right_comm, Nat.add_assoc]

/-- Where the counter starts matters up to multiples of `width`. -/
theorem stamps_congr {other : Nat} (hmod : start ≡ other [MOD width]) :
    stamps width start times = stamps width other times := by
  have hstamp : ∀ index, (start + index) % width = (other + index) % width :=
    fun index => hmod.add_right index
  simp only [stamps, hstamp]

/-- The counter is at the same place again after the multiples of `width`. -/
theorem counter_eq_iff {first second : Nat} (hle : first ≤ second) :
    (start + first) % width = (start + second) % width ↔ width ∣ second - first := by
  rw [← Nat.add_sub_add_left start second first]
  exact Nat.modEq_iff_dvd' (by omega)

section Sorted

variable [PartialOrder α] [DecidableEq α]

/-- The least element of a sorted list stands at its beginning. -/
theorem isPrefix_replicate (hsorted : times.Pairwise (· ≤ ·))
    (hleast : ∀ other ∈ times, time ≤ other) :
    List.replicate (times.count time) time <+: times := by
  induction times with
  | nil => exact List.prefix_rfl
  | cons head tail ih =>
      rw [List.pairwise_cons] at hsorted
      rw [List.forall_mem_cons] at hleast
      by_cases hhead : head = time
      · rw [hhead, List.count_cons_self, List.replicate_succ]
        exact (List.prefix_cons_inj time).mpr (ih hsorted.2 hleast.2)
      · -- everything is above the head then
        have hnone : time ∉ head :: tail := by
          rw [List.mem_cons]
          rintro (heq | hmem)
          · exact hhead heq.symm
          · exact hhead (le_antisymm (hsorted.1 time hmem) hleast.1)
        rw [List.count_eq_zero_of_not_mem hnone]
        exact List.nil_prefix

/-- Equal elements of a sorted list stand together. -/
theorem isInfix_replicate (hsorted : times.Pairwise (· ≤ ·)) (time : α) :
    List.replicate (times.count time) time <:+: times := by
  induction times with
  | nil => exact List.infix_rfl
  | cons head tail ih =>
      by_cases hhead : head = time
      · subst hhead
        refine (isPrefix_replicate hsorted ?_).isInfix
        exact List.forall_mem_cons.mpr ⟨le_rfl, (List.pairwise_cons.mp hsorted).1⟩
      · rw [List.count_cons_of_ne hhead]
        exact (ih (List.pairwise_cons.mp hsorted).2).trans (List.suffix_cons head tail).isInfix

/-- Between two equal elements of a sorted list there are only equal ones. -/
theorem sub_lt_count (hsorted : times.Pairwise (· ≤ ·)) {first second : Nat} (hle : first ≤ second)
    (hfirst : times[first]? = some time) (hsecond : times[second]? = some time) :
    second - first < times.count time := by
  obtain ⟨_, hfirst⟩ := List.getElem?_eq_some_iff.mp hfirst
  obtain ⟨_, hsecond⟩ := List.getElem?_eq_some_iff.mp hsecond
  have hslice : (times.drop first).take (second - first + 1) =
      List.replicate (second - first + 1) time := by
    rw [List.eq_replicate_iff]
    constructor
    · rw [List.length_take, List.length_drop]
      omega
    · intro other hother
      obtain ⟨index, hindex, rfl⟩ := List.mem_iff_getElem.mp hother
      rw [List.length_take, List.length_drop] at hindex
      rw [List.getElem_take, List.getElem_drop]
      have hmonotone := hsorted.sortedLE
      apply le_antisymm
      · rw [← hsecond]
        exact hmonotone.getElem_le_getElem_of_le (by omega)
      · rw [← hfirst]
        exact hmonotone.getElem_le_getElem_of_le (by omega)
  have hsublist : (List.replicate (second - first + 1) time).Sublist times := by
    rw [← hslice]
    exact (List.take_sublist _ _).trans (List.drop_sublist _ _)
  exact List.replicate_sublist_iff.mp hsublist

/-- While time does not go back, stamps repeat exactly when some time sees more items
than the counter has values. -/
theorem nodup_stamps_iff (hwidth : 0 < width) (hsorted : times.Pairwise (· ≤ ·)) :
    (stamps width start times).Nodup ↔ ∀ time, times.count time ≤ width := by
  rw [List.nodup_iff_getElem?_ne_getElem?]
  constructor
  · intro hdistinct time
    by_contra hmany
    obtain ⟨before, after, hblock⟩ := isInfix_replicate hsorted time
    -- the first item of the time and the one `width` later have the same stamp
    have hitem : ∀ index, index ≤ width → times[before.length + index]? = some time := by
      intro index hindex
      rw [← hblock, List.append_assoc, List.getElem?_append_right (by omega),
        Nat.add_sub_cancel_left, List.getElem?_append_left (by rw [List.length_replicate]; omega),
        List.getElem?_replicate_of_lt (by omega)]
    have hfirst := hitem 0 (Nat.zero_le _)
    have hlast := hitem width le_rfl
    have hcounter : (start + (before.length + 0)) % width =
        (start + (before.length + width)) % width := by
      rw [counter_eq_iff (by omega), Nat.add_sub_add_left, Nat.sub_zero]
    obtain ⟨hlength, _⟩ := List.getElem?_eq_some_iff.mp hlast
    apply hdistinct (before.length + 0) (before.length + width) (by omega)
      (by rwa [length_stamps])
    rw [getElem?_stamps, getElem?_stamps, hfirst, hlast, Option.map_some, Option.map_some,
      hcounter]
  · intro hrate first second hlt hlength heq
    rw [length_stamps] at hlength
    have hsecond := List.getElem?_eq_getElem hlength
    have hfirst := List.getElem?_eq_getElem (hlt.trans hlength)
    rw [getElem?_stamps, getElem?_stamps, hfirst, hsecond, Option.map_some, Option.map_some,
      Option.some.injEq, Prod.mk.injEq, counter_eq_iff hlt.le] at heq
    rw [← heq.1] at hsecond
    have hnear := (sub_lt_count hsorted hlt.le hfirst hsecond).trans_le (hrate _)
    exact absurd (Nat.le_of_dvd (by omega) heq.2) (by omega)

end Sorted

end Stamps
