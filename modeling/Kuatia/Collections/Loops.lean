import Mathlib.Data.List.Forall2
import Mathlib.Tactic.Common

/-! # Loops that may stop early

A loop that checks each element of a list and stops at the first failure is
`List.forM` in the `Except` monad; one that collects results is `List.mapM`,
and what it has collected is related to the list by `List.Forall₂`.
-/

universe u v

namespace Except

variable {ε : Type u} {α β : Type v}

theorem bind_eq_ok_iff {first : Except ε α} {rest : α → Except ε β} {value : β} :
    (first >>= rest) = .ok value ↔ ∃ middle, first = .ok middle ∧ rest middle = .ok value := by
  cases first with
  | error err => simp [bind, Except.bind]
  | ok middle => simp [bind, Except.bind]

theorem bind_eq_error_iff {first : Except ε α} {rest : α → Except ε β} {err : ε} :
    (first >>= rest) = .error err ↔
      first = .error err ∨ ∃ middle, first = .ok middle ∧ rest middle = .error err := by
  cases first with
  | error err' => simp [bind, Except.bind]
  | ok middle => simp [bind, Except.bind]

/-- What succeeds in two parts succeeds. -/
theorem exists_bind_eq_ok {first : Except ε α} {rest : α → Except ε β} {middle : α}
    (hfirst : first = .ok middle) (hrest : ∃ value, rest middle = .ok value) :
    ∃ value, (first >>= rest) = .ok value :=
  hrest.imp fun _ hvalue => bind_eq_ok_iff.mpr ⟨middle, hfirst, hvalue⟩

@[simp] theorem mapError_eq_ok_iff {ε' : Type u} {convert : ε → ε'} {result : Except ε α}
    {value : α} : result.mapError convert = .ok value ↔ result = .ok value := by
  cases result <;> simp [Except.mapError]

theorem mapError_eq_error_iff {ε' : Type u} {convert : ε → ε'} {result : Except ε α} {err : ε'} :
    result.mapError convert = .error err ↔ ∃ cause, result = .error cause ∧ convert cause = err := by
  cases result <;> simp [Except.mapError]

end Except

namespace List

variable {ε : Type*} {α : Type*}

/-- Pieces of the given size; only the last one may be shorter. -/
def chunks (size : Nat) (list : List α) : List (List α) :=
  (range ((list.length + size - 1) / size)).map fun index => (list.drop (index * size)).take size

theorem flatten_chunks {size : Nat} (hsize : 0 < size) (list : List α) :
    (list.chunks size).flatten = list := by
  have hpieces : ∀ count, ((range count).map fun index =>
      (list.drop (index * size)).take size).flatten = list.take (count * size) := by
    intro count
    induction count with
    | zero => simp
    | succ count ih =>
        rw [range_succ, map_append, flatten_append, ih, Nat.succ_mul, take_add]
        simp
  rw [chunks, hpieces]
  apply take_of_length_le
  have hround := Nat.div_add_mod (list.length + size - 1) size
  have hrest := Nat.mod_lt (list.length + size - 1) hsize
  rw [Nat.mul_comm]
  omega

theorem forM_eq_ok_iff {list : List α} {check : α → Except ε PUnit} :
    list.forM check = .ok ⟨⟩ ↔ ∀ value ∈ list, check value = .ok ⟨⟩ := by
  induction list with
  | nil => simp [pure, Except.pure]
  | cons head tail ih =>
      rw [List.forM, Except.bind_eq_ok_iff, forall_mem_cons]
      exact ⟨fun ⟨_, hhead, htail⟩ => ⟨hhead, ih.mp htail⟩,
        fun ⟨hhead, htail⟩ => ⟨_, hhead, ih.mpr htail⟩⟩

/-- A loop that collects results succeeds when every element does. -/
theorem mapM_eq_ok_iff {α β : Type*} {list : List α} {f : α → Except ε β} {results : List β} :
    list.mapM f = .ok results ↔ Forall₂ (fun value result => f value = .ok result) list results := by
  induction list generalizing results with
  | nil =>
      rw [mapM_nil, forall₂_nil_left_iff]
      exact ⟨fun hnil => (Except.ok.inj hnil).symm, fun hnil => hnil ▸ rfl⟩
  | cons head tail ih =>
      simp only [mapM_cons, Except.bind_eq_ok_iff, ih]
      constructor
      · rintro ⟨result, hhead, rest, htail, hresults⟩
        cases hresults
        exact .cons hhead htail
      · rintro (_ | ⟨hhead, htail⟩)
        exact ⟨_, hhead, _, htail, rfl⟩

theorem mapM_eq_ok_iff_map {α β : Type*} {list : List α} {f : α → Except ε β} {results : List β} :
    list.mapM f = .ok results ↔ list.map f = results.map .ok := by
  rw [mapM_eq_ok_iff, ← forall₂_eq_eq_eq, forall₂_map_left_iff, forall₂_map_right_iff]

/-- The loop succeeds when each of its steps does. -/
theorem exists_mapM_eq_ok {α β : Type*} {list : List α} {f : α → Except ε β}
    (hall : ∀ value ∈ list, ∃ result, f value = .ok result) :
    ∃ results, list.mapM f = .ok results := by
  induction list with
  | nil => exact ⟨[], rfl⟩
  | cons head tail ih =>
      rw [forall_mem_cons] at hall
      obtain ⟨result, hhead⟩ := hall.1
      obtain ⟨results, htail⟩ := ih hall.2
      exact ⟨result :: results, mapM_eq_ok_iff.mpr (.cons hhead (mapM_eq_ok_iff.mp htail))⟩

theorem find?_congr_left {list : List α} {p q : α → Bool}
    (hsame : ∀ value ∈ list, p value = q value) : list.find? p = list.find? q := by
  induction list with
  | nil => rfl
  | cons head tail ih =>
      rw [forall_mem_cons] at hsame
      rw [find?_cons, find?_cons, hsame.1, ih hsame.2]

theorem mapM_congr_left {α β : Type*} {list : List α} {f g : α → Except ε β}
    (hsame : ∀ value ∈ list, f value = g value) : list.mapM f = list.mapM g := by
  induction list with
  | nil => rfl
  | cons head tail ih =>
      rw [forall_mem_cons] at hsame
      rw [mapM_cons, mapM_cons, hsame.1, ih hsame.2]

theorem exists_of_mapM_eq_error {α β : Type*} {list : List α} {f : α → Except ε β} {err : ε}
    (hloop : list.mapM f = .error err) : ∃ value ∈ list, f value = .error err := by
  induction list with
  | nil => simp [pure, Except.pure] at hloop
  | cons head tail ih =>
      simp only [mapM_cons, Except.bind_eq_error_iff] at hloop
      obtain hhead | ⟨_, _, htail | ⟨_, _, hpure⟩⟩ := hloop
      · exact ⟨head, mem_cons_self, hhead⟩
      · obtain ⟨value, hmem, hvalue⟩ := ih htail
        exact ⟨value, mem_cons_of_mem _ hmem, hvalue⟩
      · cases hpure

theorem exists_of_forM_eq_error {list : List α} {check : α → Except ε PUnit} {err : ε}
    (hloop : list.forM check = .error err) : ∃ value ∈ list, check value = .error err := by
  induction list with
  | nil => simp [pure, Except.pure] at hloop
  | cons head tail ih =>
      rw [List.forM, Except.bind_eq_error_iff] at hloop
      obtain hhead | ⟨_, _, htail⟩ := hloop
      · exact ⟨head, mem_cons_self, hhead⟩
      · obtain ⟨value, hmem, hvalue⟩ := ih htail
        exact ⟨value, mem_cons_of_mem _ hmem, hvalue⟩

namespace Forall₂

variable {α β : Type*} {related : α → β → Prop} {left : List α} {right : List β}

theorem exists_of_mem_right (hall : Forall₂ related left right) {b : β} (hb : b ∈ right) :
    ∃ a ∈ left, related a b := by
  induction hall with
  | nil => cases hb
  | cons hhead _ ih =>
      rcases mem_cons.mp hb with rfl | hb
      · exact ⟨_, mem_cons_self, hhead⟩
      · obtain ⟨a, ha, hrelated⟩ := ih hb
        exact ⟨a, mem_cons_of_mem _ ha, hrelated⟩

theorem exists_of_mem_left (hall : Forall₂ related left right) {a : α} (ha : a ∈ left) :
    ∃ b ∈ right, related a b := by
  obtain ⟨b, hb, hrelated⟩ := hall.flip.exists_of_mem_right ha
  exact ⟨b, hb, hrelated⟩

/-- Two lists that a function relates to the same list are equal. -/
theorem unique {f : α → Option β} {other : List β}
    (hright : Forall₂ (fun a b => f a = some b) left right)
    (hother : Forall₂ (fun a b => f a = some b) left other) : right = other := by
  induction hright generalizing other with
  | nil => exact (forall₂_nil_left_iff.mp hother).symm
  | cons hhead _ ih =>
      obtain _ | ⟨hhead', htail'⟩ := hother
      rw [ih htail', Option.some.inj (hhead.symm.trans hhead')]

end Forall₂

end List
