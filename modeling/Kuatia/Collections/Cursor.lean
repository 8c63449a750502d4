import Mathlib.Order.Defs.LinearOrder
import Mathlib.Data.List.Basic
import Mathlib.Data.List.Sort

/-! # Reading a log by number

A reader keeps the number of the last item it has received and asks for the next
page of items numbered above it. As long as the log is sorted by strictly
increasing numbers and extends what was received, no item is missed or repeated.
-/

namespace Cursor

variable {α β : Type*} (number : α → β)

/-- Where a reader continues: after the last item it has received. -/
def position (start : β) (received : List α) : β := (received.getLast?.map number).getD start

variable {number} in
theorem position_append_singleton (start : β) (received : List α) (last : α) :
    position number start (received ++ [last]) = number last := by
  simp [position]

variable [LinearOrder β]

/-- At most `limit` items numbered above `after`, in the order of the log. -/
def page (after : β) (limit : Nat) (log : List α) : List α :=
  (log.filter (after < number ·)).take limit

variable {number} {start : β} {received rest : List α}

theorem le_position (start : β) (hsorted : received.Pairwise (number · < number ·)) {item : α}
    (hitem : item ∈ received) : number item ≤ position number start received := by
  rcases List.eq_nil_or_concat received with rfl | ⟨init, last, rfl⟩
  · cases hitem
  · rw [List.concat_eq_append] at hsorted hitem ⊢
    rw [position_append_singleton]
    rcases List.mem_append.mp hitem with hinit | hlast
    · exact ((List.pairwise_append.mp hsorted).2.2 item hinit last List.mem_cons_self).le
    · rw [List.mem_singleton.mp hlast]

/-- The items numbered above the position are those that were not received yet. -/
theorem filter_position (start : β)
    (hsorted : (received ++ rest).Pairwise (number · < number ·))
    (hstart : ∀ item ∈ rest, start < number item) :
    (received ++ rest).filter (position number start received < number ·) = rest := by
  rcases List.eq_nil_or_concat received with rfl | ⟨init, last, rfl⟩
  · simp only [position, List.nil_append, List.getLast?_nil, Option.map_none, Option.getD_none]
    exact List.filter_eq_self.mpr fun item hitem => decide_eq_true (hstart item hitem)
  · rw [List.concat_eq_append] at hsorted ⊢
    rw [position_append_singleton, List.filter_append]
    obtain ⟨hreceived, _, hbetween⟩ := List.pairwise_append.mp hsorted
    have hold : (init ++ [last]).filter (number last < number ·) = [] := by
      apply List.filter_eq_nil_iff.mpr
      intro item hitem
      have hle := le_position start hreceived hitem
      rw [position_append_singleton] at hle
      simpa using hle
    have hnew : rest.filter (number last < number ·) = rest := by
      apply List.filter_eq_self.mpr
      intro item hitem
      exact decide_eq_true (hbetween last (by simp) item hitem)
    rw [hold, hnew, List.nil_append]

/-- A page takes up where the reader has stopped. -/
theorem append_page (start : β) (hsorted : (received ++ rest).Pairwise (number · < number ·))
    (hstart : ∀ item ∈ rest, start < number item) (limit : Nat) :
    received ++ page number (position number start received) limit (received ++ rest) =
      received ++ rest.take limit := by
  rw [page, filter_position start hsorted hstart]

/-- A new item numbered above all that was received comes after it. -/
theorem prefix_of_insert {log next : List α} {new : α} (hinitial : received <+: log)
    (hlog : log.Pairwise (number · < number ·)) (hnext : next.Pairwise (number · < number ·))
    (hperm : next.Perm (new :: log)) (hbehind : ∀ item ∈ received, number item < number new) :
    received <+: next := by
  induction received generalizing log next with
  | nil => exact List.nil_prefix
  | cons head received ih =>
      obtain ⟨rest, rfl⟩ := hinitial
      rw [List.forall_mem_cons] at hbehind
      rw [List.cons_append, List.pairwise_cons] at hlog
      cases next with
      | nil => exact absurd hperm.length_eq (by simp)
      | cons first next =>
          rw [List.pairwise_cons] at hnext
          -- The least item of the new list is the least of the old one.
          have hfirst : first = head := by
            by_contra hne
            have hlater : head ∈ next := by
              have hmem : head ∈ first :: next := hperm.mem_iff.mpr (by simp)
              exact (List.mem_cons.mp hmem).resolve_left (Ne.symm hne)
            have hlt := hnext.1 head hlater
            have hmem : first ∈ new :: head :: (received ++ rest) :=
              hperm.mem_iff.mp List.mem_cons_self
            rcases List.mem_cons.mp hmem with rfl | hmem
            · exact lt_asymm hlt hbehind.1
            · rcases List.mem_cons.mp hmem with rfl | hmem
              · exact hne rfl
              · exact lt_asymm hlt (hlog.1 first hmem)
          subst hfirst
          have htail : next.Perm (new :: (received ++ rest)) :=
            (hperm.trans (.swap _ _ _)).cons_inv
          exact (List.prefix_cons_inj first).mpr
            (ih (List.prefix_append _ _) hlog.2 hnext.2 htail hbehind.2)

end Cursor
