import Kuatia.Collections.HashMap
import Kuatia.Collections.Loops
import Mathlib.Algebra.BigOperators.Group.Finset.Piecewise
import Mathlib.Algebra.Order.BigOperators.Group.Finset
import Mathlib.Algebra.Order.BigOperators.Group.List
import Mathlib.Algebra.Order.Group.Abs
import Mathlib.Tactic.Ring

/-! # Monetary amounts

A `Cent` is a signed amount in the smallest unit of an asset. The width of the
integer behind it is chosen once at compile time; everything here holds for
every choice. All arithmetic is checked.
-/

namespace Kuatia

/-- The integers a `Cent` may be backed by. -/
inductive Backing where
  | i64
  | i128
  deriving DecidableEq

namespace Backing

def bits : Backing → Nat
  | .i64 => 64
  | .i128 => 128

def min (backing : Backing) : Int := -2 ^ (backing.bits - 1)

def max (backing : Backing) : Int := 2 ^ (backing.bits - 1) - 1

theorem i64_le_max (backing : Backing) : 2 ^ 63 - 1 ≤ backing.max := by
  cases backing <;> decide

theorem min_le_i64 (backing : Backing) : backing.min ≤ -2 ^ 63 := by
  cases backing <;> decide

theorem min_eq (backing : Backing) : backing.min = -backing.max - 1 := by
  simp only [min, max]
  omega

end Backing

/-- The compile-time choice of the integer behind every `Cent`. -/
class MoneyWidth where
  backing : Backing

variable [MoneyWidth]

open MoneyWidth (backing)

/-- A monetary amount in the smallest unit of one asset. -/
@[ext] structure Cent where
  val : Int
  min_le : Backing.min backing ≤ val
  le_max : val ≤ Backing.max backing
  deriving DecidableEq

/-- A `Cent` operation would leave the range of the backing integer. -/
inductive OverflowError where
  | overflow
  deriving DecidableEq

namespace Cent

omit [MoneyWidth] in
theorem zero_fits (backing : Backing) : backing.min ≤ 0 ∧ 0 ≤ backing.max := by
  cases backing <;> decide

/-- The zero amount. -/
def ZERO : Cent := ⟨0, (zero_fits _).1, (zero_fits _).2⟩

@[simp] theorem val_ZERO : ZERO.val = 0 := rfl

/-- `From<i64>`: both backings hold every `i64`. -/
def ofI64 (v : Int64) : Cent where
  val := v.toInt
  min_le := by
    have hmin := Backing.min_le_i64 backing
    have := v.le_toInt
    omega
  le_max := by
    have hmax := Backing.i64_le_max backing
    have := v.toInt_lt
    omega

instance : LE Cent := ⟨fun a b => a.val ≤ b.val⟩

instance : LT Cent := ⟨fun a b => a.val < b.val⟩

instance : DecidableRel fun a b : Cent => a ≤ b := fun a b => Int.decLe a.val b.val

instance : DecidableRel fun a b : Cent => a < b := fun a b => Int.decLt a.val b.val

theorem le_iff {a b : Cent} : a ≤ b ↔ a.val ≤ b.val := .rfl

theorem lt_iff {a b : Cent} : a < b ↔ a.val < b.val := .rfl

def isPositive (a : Cent) : Bool := decide (0 < a.val)

def isNegative (a : Cent) : Bool := decide (a.val < 0)

@[simp] theorem isPositive_iff {a : Cent} : a.isPositive = true ↔ 0 < a.val := by
  simp [isPositive]

@[simp] theorem isNegative_iff {a : Cent} : a.isNegative = true ↔ a.val < 0 := by
  simp [isNegative]

/-- The amount `v`, when the backing integer holds it. -/
def checked (v : Int) : Except OverflowError Cent :=
  if h : Backing.min backing ≤ v ∧ v ≤ Backing.max backing then .ok ⟨v, h.1, h.2⟩
  else .error .overflow

def checkedAdd (a b : Cent) : Except OverflowError Cent := checked (a.val + b.val)

def checkedSub (a b : Cent) : Except OverflowError Cent := checked (a.val - b.val)

def checkedNeg (a : Cent) : Except OverflowError Cent := checked (-a.val)

/-- Sum with overflow checking at every step. -/
def checkedSum (amounts : List Cent) : Except OverflowError Cent :=
  amounts.foldlM checkedAdd ZERO

theorem checked_eq_ok_iff {v : Int} {a : Cent} : checked v = .ok a ↔ a.val = v := by
  unfold checked
  split
  next h =>
    rw [Except.ok.injEq]
    exact ⟨fun heq => (congrArg val heq).symm, fun heq => Cent.ext heq.symm⟩
  next h =>
    refine ⟨nofun, fun heq => ?_⟩
    exact absurd ⟨heq ▸ a.min_le, heq ▸ a.le_max⟩ h

theorem exists_checked_eq_ok {v : Int} (hmin : Backing.min backing ≤ v)
    (hmax : v ≤ Backing.max backing) : ∃ a, checked v = .ok a ∧ a.val = v :=
  ⟨⟨v, hmin, hmax⟩, by simp [checked_eq_ok_iff], rfl⟩

@[simp] theorem checkedAdd_eq_ok_iff {a b c : Cent} :
    a.checkedAdd b = .ok c ↔ c.val = a.val + b.val := checked_eq_ok_iff

@[simp] theorem checkedSub_eq_ok_iff {a b c : Cent} :
    a.checkedSub b = .ok c ↔ c.val = a.val - b.val := checked_eq_ok_iff

@[simp] theorem checkedNeg_eq_ok_iff {a b : Cent} :
    a.checkedNeg = .ok b ↔ b.val = -a.val := checked_eq_ok_iff

/-- A checked fold that succeeds has computed the exact sum. -/
theorem val_of_foldlM_checkedAdd {amounts : List Cent} {start total : Cent}
    (hfold : amounts.foldlM checkedAdd start = .ok total) :
    total.val = start.val + (amounts.map val).sum := by
  induction amounts generalizing start with
  | nil =>
      rw [List.foldlM_nil] at hfold
      cases hfold
      simp
  | cons head tail ih =>
      rw [List.foldlM_cons, Except.bind_eq_ok_iff] at hfold
      obtain ⟨middle, hhead, htail⟩ := hfold
      rw [ih htail, checkedAdd_eq_ok_iff.mp hhead, List.map_cons, List.sum_cons, add_assoc]

theorem val_of_checkedSum {amounts : List Cent} {total : Cent}
    (hsum : checkedSum amounts = .ok total) : total.val = (amounts.map val).sum := by
  simpa using val_of_foldlM_checkedAdd hsum

/-- The sum of the absolute values. -/
def magnitude (amounts : List Cent) : Int := (amounts.map fun amount => |amount.val|).sum

@[simp] theorem magnitude_nil : magnitude [] = 0 := rfl

@[simp] theorem magnitude_cons (head : Cent) (tail : List Cent) :
    magnitude (head :: tail) = |head.val| + magnitude tail := rfl

@[simp] theorem magnitude_append (first second : List Cent) :
    magnitude (first ++ second) = magnitude first + magnitude second := by
  simp [magnitude]

theorem magnitude_of_nonneg {amounts : List Cent} (hnonneg : ∀ amount ∈ amounts, 0 ≤ amount.val) :
    magnitude amounts = (amounts.map val).sum :=
  congrArg List.sum (List.map_congr_left fun amount hamount => abs_of_nonneg (hnonneg amount hamount))

theorem magnitude_perm {amounts other : List Cent} (hperm : amounts.Perm other) :
    magnitude amounts = magnitude other :=
  (hperm.map _).sum_eq

theorem magnitude_nonneg (amounts : List Cent) : 0 ≤ magnitude amounts := by
  refine List.sum_nonneg fun value hvalue => ?_
  obtain ⟨amount, _, rfl⟩ := List.mem_map.mp hvalue
  exact abs_nonneg _

theorem magnitude_le_of_sublist {amounts other : List Cent} (hsub : amounts.Sublist other) :
    magnitude amounts ≤ magnitude other := by
  refine (hsub.map _).sum_le_sum fun value hvalue => ?_
  obtain ⟨amount, _, rfl⟩ := List.mem_map.mp hvalue
  exact abs_nonneg _

theorem abs_sum_le (amounts : List Cent) : |(amounts.map val).sum| ≤ magnitude amounts := by
  induction amounts with
  | nil => simp
  | cons head tail ih =>
      rw [List.map_cons, List.sum_cons, magnitude_cons]
      exact (abs_add_le _ _).trans (by omega)

/-- Inserting replaces values, so it adds at most what it inserts. -/
theorem magnitude_insertAll_le {K V : Type} [DecidableEq K] (map : HashMap K V) (keyOf : V → K)
    (amountOf : V → Cent) (items : List V) :
    magnitude ((map.insertAll keyOf items).values.map amountOf) ≤
      magnitude (map.values.map amountOf) + magnitude (items.map amountOf) := by
  induction items generalizing map with
  | nil => simp [HashMap.insertAll]
  | cons head tail ih =>
      have hrest := ih (map.insert (keyOf head) head)
      have herase := magnitude_le_of_sublist
        ((HashMap.values_erase_sublist map (keyOf head)).map amountOf)
      rw [HashMap.values_insert, List.map_cons, magnitude_cons] at hrest
      rw [List.map_cons, magnitude_cons]
      refine le_trans hrest ?_
      omega

/-- The backing integer holds `v`. -/
def Holds (v : Int) : Prop := Backing.min backing ≤ v ∧ v ≤ Backing.max backing

theorem holds_of_val (a : Cent) : Holds a.val := ⟨a.min_le, a.le_max⟩

theorem holds_of_abs_le {v : Int} (hroom : |v| ≤ Backing.max backing) : Holds v := by
  have hbounds := abs_le.mp hroom
  have hmin := Backing.min_eq backing
  exact ⟨by omega, hbounds.2⟩

theorem exists_checked_of_abs_le {v : Int} (hroom : |v| ≤ Backing.max backing) :
    ∃ a, checked v = .ok a ∧ a.val = v :=
  exists_checked_eq_ok (holds_of_abs_le hroom).1 (holds_of_abs_le hroom).2

/-- A checked sum succeeds when there is room for all absolute values. -/
theorem exists_foldlM_checkedAdd {amounts : List Cent} {start : Cent}
    (hroom : |start.val| + magnitude amounts ≤ Backing.max backing) :
    ∃ total, amounts.foldlM checkedAdd start = .ok total := by
  induction amounts generalizing start with
  | nil => exact ⟨start, rfl⟩
  | cons head tail ih =>
      rw [magnitude_cons] at hroom
      have htriangle := abs_add_le start.val head.val
      have htail := magnitude_nonneg tail
      obtain ⟨middle, hmiddle, hval⟩ :=
        exists_checked_of_abs_le (v := start.val + head.val) (by omega)
      obtain ⟨total, htotal⟩ := @ih middle (by rw [hval]; omega)
      exact ⟨total, Except.bind_eq_ok_iff.mpr ⟨middle, hmiddle, htotal⟩⟩

theorem exists_checkedSum {amounts : List Cent} (hroom : magnitude amounts ≤ Backing.max backing) :
    ∃ total, checkedSum amounts = .ok total :=
  exists_foldlM_checkedAdd (by simpa using hroom)

end Cent

/-! ## Totals by key -/

section KeyTotal

variable {α β K : Type} [DecidableEq K]

/-- The exact total of the amounts of the items under one key. -/
def keyTotal (keyOf : α → K) (amountOf : α → Cent) (items : List α) (key : K) : Int :=
  ((items.filter (keyOf · = key)).map fun item => (amountOf item).val).sum

variable {keyOf : α → K} {amountOf : α → Cent} {items : List α} {key : K}

@[simp] theorem keyTotal_nil : keyTotal keyOf amountOf [] key = 0 := rfl

theorem keyTotal_cons (head : α) (tail : List α) :
    keyTotal keyOf amountOf (head :: tail) key =
      (if keyOf head = key then (amountOf head).val else 0) + keyTotal keyOf amountOf tail key := by
  unfold keyTotal
  by_cases hkey : keyOf head = key <;> simp [hkey]

theorem keyTotal_append (first second : List α) :
    keyTotal keyOf amountOf (first ++ second) key =
      keyTotal keyOf amountOf first key + keyTotal keyOf amountOf second key := by
  simp [keyTotal]

theorem keyTotal_map (f : β → α) (items : List β) :
    keyTotal keyOf amountOf (items.map f) key =
      keyTotal (fun item => keyOf (f item)) (fun item => amountOf (f item)) items key := by
  induction items with
  | nil => rfl
  | cons head tail ih => rw [List.map_cons, keyTotal_cons, keyTotal_cons, ih]

/-- A total depends on the keys and the amounts of the items only. -/
theorem keyTotal_congr {otherKey : β → K} {otherAmount : β → Cent} {others : List β}
    (hsame : items.map (fun item => (keyOf item, amountOf item)) =
      others.map fun other => (otherKey other, otherAmount other)) :
    keyTotal keyOf amountOf items key = keyTotal otherKey otherAmount others key := by
  have hpairs := congrArg (fun pairs => keyTotal Prod.fst Prod.snd pairs key) hsame
  simpa only [keyTotal_map] using hpairs

theorem keyTotal_perm {other : List α} (hperm : items.Perm other) :
    keyTotal keyOf amountOf items key = keyTotal keyOf amountOf other key :=
  ((hperm.filter _).map _).sum_eq

/-- The total as a sum over all items, those under other keys counting nothing. -/
theorem keyTotal_eq_sum : keyTotal keyOf amountOf items key =
    (items.map fun item => if keyOf item = key then (amountOf item).val else 0).sum := by
  induction items with
  | nil => rfl
  | cons head tail ih => rw [keyTotal_cons, List.map_cons, List.sum_cons, ih]

theorem keyTotal_eq_zero (hnone : ∀ item ∈ items, keyOf item ≠ key) :
    keyTotal keyOf amountOf items key = 0 := by
  rw [keyTotal, List.filter_eq_nil_iff.mpr (by simpa using hnone)]
  rfl

/-- The total under a coarse key is the sum of the totals under the fine keys
that belong to it. -/
theorem keyTotal_fiber {C : Type} [DecidableEq C] {coarse : K → C} {group : C} {keys : Finset K}
    (hkeys : ∀ key ∈ keys, coarse key = group)
    (hitems : ∀ item ∈ items, coarse (keyOf item) = group → keyOf item ∈ keys) :
    keyTotal (fun item => coarse (keyOf item)) amountOf items group =
      ∑ key ∈ keys, keyTotal keyOf amountOf items key := by
  induction items with
  | nil => simp
  | cons head tail ih =>
      have htail := ih fun item hitem => hitems item (List.mem_cons_of_mem _ hitem)
      simp only [keyTotal_cons, Finset.sum_add_distrib, htail, Finset.sum_ite_eq]
      congr 1
      by_cases hclass : coarse (keyOf head) = group
      · rw [if_pos hclass, if_pos (hitems head List.mem_cons_self hclass)]
      · have hnot : keyOf head ∉ keys := fun hmem => hclass (hkeys _ hmem)
        rw [if_neg hclass, if_neg hnot]

/-- Items under one key count under no other. -/
theorem keyTotal_of_key {only : K} (hitems : ∀ item ∈ items, keyOf item = only) :
    keyTotal keyOf amountOf items key =
      if only = key then (items.map fun item => (amountOf item).val).sum else 0 := by
  split
  next heq =>
    subst heq
    rw [keyTotal, List.filter_eq_self.mpr (by simpa using hitems)]
  next hne => exact keyTotal_eq_zero fun item hitem heq => hne ((hitems item hitem).symm.trans heq)

theorem keyTotal_nonneg (hitems : ∀ item ∈ items, keyOf item = key → 0 ≤ (amountOf item).val) :
    0 ≤ keyTotal keyOf amountOf items key := by
  refine List.sum_nonneg fun value hvalue => ?_
  obtain ⟨item, hitem, rfl⟩ := List.mem_map.mp hvalue
  rw [List.mem_filter, decide_eq_true_eq] at hitem
  exact hitems item hitem.1 hitem.2

/-- What some of the items come to under one key is at most what all of them come
to under a coarser one, if none is negative. -/
theorem keyTotal_le_of_sublist {C : Type} [DecidableEq C] {coarse : α → C} {group : C}
    {taken : List α} (htaken : taken.Sublist items) (hitems : ∀ item ∈ items, 0 ≤ (amountOf item).val)
    (hcoarse : ∀ item ∈ items, keyOf item = key → coarse item = group) :
    keyTotal keyOf amountOf taken key ≤ keyTotal coarse amountOf items group := by
  have hfiner : (items.filter (keyOf · = key)).Sublist (items.filter (coarse · = group)) := by
    have hsame : items.filter (keyOf · = key) =
        (items.filter (coarse · = group)).filter (keyOf · = key) := by
      rw [List.filter_filter]
      refine List.filter_congr fun item hitem => ?_
      by_cases hkey : keyOf item = key <;> simp [hkey, hcoarse item hitem]
    rw [hsame]
    exact List.filter_sublist
  refine (((htaken.filter _).trans hfiner).map _).sum_le_sum fun amount hamount => ?_
  obtain ⟨item, hitem, rfl⟩ := List.mem_map.mp hamount
  exact hitems item (List.mem_filter.mp hitem).1

theorem keyTotal_pos_of_key (hitems : ∀ item ∈ items, keyOf item = key → 0 < (amountOf item).val)
    (hkey : key ∈ items.map keyOf) : 0 < keyTotal keyOf amountOf items key := by
  induction items with
  | nil => cases hkey
  | cons head tail ih =>
      rw [List.forall_mem_cons] at hitems
      have hrest : 0 ≤ keyTotal keyOf amountOf tail key :=
        keyTotal_nonneg fun item hitem heq => (hitems.2 item hitem heq).le
      rw [keyTotal_cons]
      rcases List.mem_cons.mp hkey with heq | hkey
      · rw [if_pos heq.symm]
        have hhead := hitems.1 heq.symm
        omega
      · have htail := ih hitems.2 hkey
        split
        next heq =>
          have hhead := hitems.1 heq
          omega
        next => omega

theorem keyTotal_pos (hitems : ∀ item ∈ items, 0 < (amountOf item).val)
    (hkey : key ∈ items.map keyOf) : 0 < keyTotal keyOf amountOf items key :=
  keyTotal_pos_of_key (fun item hitem _ => hitems item hitem) hkey

theorem abs_keyTotal_le : |keyTotal keyOf amountOf items key| ≤ Cent.magnitude (items.map amountOf) := by
  induction items with
  | nil => simp
  | cons head tail ih =>
      rw [keyTotal_cons, List.map_cons, Cent.magnitude_cons]
      refine (abs_add_le _ _).trans (add_le_add ?_ ih)
      split
      next => exact le_rfl
      next =>
        rw [abs_zero]
        exact abs_nonneg _

theorem abs_keyTotal_take_le (n : Nat) (key : K) :
    |keyTotal keyOf amountOf (items.take n) key| ≤ Cent.magnitude (items.map amountOf) :=
  abs_keyTotal_le.trans (Cent.magnitude_le_of_sublist ((List.take_sublist n items).map amountOf))

/-- Under distinct keys, a total is one amount. -/
theorem keyTotal_of_nodup (hnodup : (items.map keyOf).Nodup) {item : α} (hitem : item ∈ items) :
    keyTotal keyOf amountOf items (keyOf item) = (amountOf item).val := by
  induction items with
  | nil => cases hitem
  | cons head tail ih =>
      rw [List.map_cons, List.nodup_cons] at hnodup
      rw [keyTotal_cons]
      rcases List.mem_cons.mp hitem with rfl | htail
      · have hrest : keyTotal keyOf amountOf tail (keyOf item) = 0 :=
          keyTotal_eq_zero fun other hother heq =>
            hnodup.1 (heq ▸ List.mem_map_of_mem hother)
        rw [if_pos rfl, hrest, add_zero]
      · have hother : keyOf head ≠ keyOf item := fun heq =>
          hnodup.1 (heq ▸ List.mem_map_of_mem htail)
        rw [if_neg hother, zero_add, ih hnodup.2 htail]

/-- Under distinct keys, the total of a first part is the whole total or nothing. -/
theorem keyTotal_take_of_nodup (hnodup : (items.map keyOf).Nodup) (n : Nat) (key : K) :
    keyTotal keyOf amountOf (items.take n) key = 0 ∨
      keyTotal keyOf amountOf (items.take n) key = keyTotal keyOf amountOf items key := by
  rw [← List.take_append_drop n items, List.map_append] at hnodup
  by_cases hmem : key ∈ (items.take n).map keyOf
  · right
    have hrest : keyTotal keyOf amountOf (items.drop n) key = 0 :=
      keyTotal_eq_zero fun item hitem heq =>
        List.disjoint_of_nodup_append hnodup hmem (heq ▸ List.mem_map_of_mem hitem)
    conv_rhs => rw [← List.take_append_drop n items, keyTotal_append, hrest, add_zero]
  · left
    exact keyTotal_eq_zero fun item hitem heq => hmem (heq ▸ List.mem_map_of_mem hitem)

/-- Totals under distinct keys take no more room than all items. -/
theorem sum_abs_keyTotal_le {keys : List K} (hnodup : keys.Nodup) :
    (keys.map fun key => |keyTotal keyOf amountOf items key|).sum ≤
      Cent.magnitude (items.map amountOf) := by
  induction items with
  | nil => simp
  | cons head tail ih =>
      rw [List.map_cons, Cent.magnitude_cons]
      have hhead : (keys.map fun key => if keyOf head = key then |(amountOf head).val| else 0).sum ≤
          |(amountOf head).val| := by
        rw [← List.sum_toFinset _ hnodup, Finset.sum_ite_eq]
        split
        next => exact le_rfl
        next => exact abs_nonneg _
      have hsplit : (keys.map fun key => |keyTotal keyOf amountOf (head :: tail) key|).sum ≤
          (keys.map fun key => (if keyOf head = key then |(amountOf head).val| else 0) +
            |keyTotal keyOf amountOf tail key|).sum := by
        refine List.sum_le_sum fun key _ => ?_
        rw [keyTotal_cons]
        refine (abs_add_le _ _).trans (add_le_add ?_ le_rfl)
        split
        next => exact le_rfl
        next => rw [abs_zero]
      rw [List.sum_map_add] at hsplit
      omega

end KeyTotal

/-! ## Running totals by key -/

/-- A map of running totals; a missing key stands for zero. -/
abbrev Totals (K : Type) := HashMap K Cent

namespace Totals

variable {K : Type} [DecidableEq K]

/-- The total under a key, or zero. -/
def get (totals : Totals K) (key : K) : Cent := (totals.lookup key).getD .ZERO

/-- `*entry = entry.checked_add(amount)?` on an entry that starts at zero. -/
def add (totals : Totals K) (key : K) (amount : Cent) : Except OverflowError (Totals K) := do
  let total ← (totals.get key).checkedAdd amount
  return totals.insert key total

/-- `*entry = entry.checked_sub(amount)?` on an entry that starts at zero. -/
def sub (totals : Totals K) (key : K) (amount : Cent) : Except OverflowError (Totals K) := do
  let total ← (totals.get key).checkedSub amount
  return totals.insert key total

theorem get_insert (totals : Totals K) (key other : K) (amount : Cent) :
    get (totals.insert other amount) key = if key = other then amount else totals.get key := by
  unfold get
  rw [HashMap.lookup_insert_eq]
  split <;> rfl

theorem val_get_of_add {totals next : Totals K} {other : K} {amount : Cent}
    (hadd : totals.add other amount = .ok next) (key : K) :
    (next.get key).val = (totals.get key).val + if other = key then amount.val else 0 := by
  obtain ⟨total, htotal, hnext⟩ := Except.bind_eq_ok_iff.mp hadd
  cases hnext
  rw [get_insert]
  by_cases hkey : other = key
  · subst hkey
    simpa using htotal
  · simp [hkey, Ne.symm hkey]

theorem val_get_of_sub {totals next : Totals K} {other : K} {amount : Cent}
    (hsub : totals.sub other amount = .ok next) (key : K) :
    (next.get key).val = (totals.get key).val - if other = key then amount.val else 0 := by
  obtain ⟨total, htotal, hnext⟩ := Except.bind_eq_ok_iff.mp hsub
  cases hnext
  rw [get_insert]
  by_cases hkey : other = key
  · subst hkey
    simpa using htotal
  · simp [hkey, Ne.symm hkey]

theorem mem_of_add {totals next : Totals K} {other : K} {amount : Cent}
    (hadd : totals.add other amount = .ok next) (key : K) :
    key ∈ next ↔ key = other ∨ key ∈ totals := by
  obtain ⟨total, _, hnext⟩ := Except.bind_eq_ok_iff.mp hadd
  cases hnext
  exact AList.mem_insert totals

theorem mem_of_sub {totals next : Totals K} {other : K} {amount : Cent}
    (hsub : totals.sub other amount = .ok next) (key : K) :
    key ∈ next ↔ key = other ∨ key ∈ totals := by
  obtain ⟨total, _, hnext⟩ := Except.bind_eq_ok_iff.mp hsub
  cases hnext
  exact AList.mem_insert totals

variable {α : Type}

/-- A loop that adds the amount of each item under the key of the item. -/
def addAll (totals : Totals K) (keyOf : α → K) (amountOf : α → Cent) (items : List α) :
    Except OverflowError (Totals K) :=
  items.foldlM (fun totals item => add totals (keyOf item) (amountOf item)) totals

/-- A loop that subtracts the amount of each item under the key of the item. -/
def subAll (totals : Totals K) (keyOf : α → K) (amountOf : α → Cent) (items : List α) :
    Except OverflowError (Totals K) :=
  items.foldlM (fun totals item => sub totals (keyOf item) (amountOf item)) totals

variable {keyOf : α → K} {amountOf : α → Cent}

/-- After a loop that adds up, each key holds the exact sum of its amounts. -/
theorem val_get_of_addAll {items : List α} {start totals : Totals K}
    (hfold : start.addAll keyOf amountOf items = .ok totals) (key : K) :
    (totals.get key).val = (start.get key).val + keyTotal keyOf amountOf items key := by
  induction items generalizing start with
  | nil =>
      rw [addAll, List.foldlM_nil] at hfold
      cases hfold
      simp
  | cons head tail ih =>
      rw [addAll, List.foldlM_cons, Except.bind_eq_ok_iff] at hfold
      obtain ⟨middle, hhead, htail⟩ := hfold
      rw [ih htail, val_get_of_add hhead, keyTotal_cons]
      ring

theorem mem_of_addAll {items : List α} {start totals : Totals K}
    (hfold : start.addAll keyOf amountOf items = .ok totals) (key : K) :
    key ∈ totals ↔ key ∈ start ∨ ∃ item ∈ items, keyOf item = key := by
  induction items generalizing start with
  | nil =>
      rw [addAll, List.foldlM_nil] at hfold
      cases hfold
      simp
  | cons head tail ih =>
      rw [addAll, List.foldlM_cons, Except.bind_eq_ok_iff] at hfold
      obtain ⟨middle, hhead, htail⟩ := hfold
      rw [ih htail, mem_of_add hhead]
      simp only [List.mem_cons, exists_eq_or_imp, eq_comm (a := key)]
      tauto

/-- After a loop that subtracts, each key has lost the exact sum of its amounts. -/
theorem val_get_of_subAll {items : List α} {start totals : Totals K}
    (hfold : start.subAll keyOf amountOf items = .ok totals) (key : K) :
    (totals.get key).val = (start.get key).val - keyTotal keyOf amountOf items key := by
  induction items generalizing start with
  | nil =>
      rw [subAll, List.foldlM_nil] at hfold
      cases hfold
      simp
  | cons head tail ih =>
      rw [subAll, List.foldlM_cons, Except.bind_eq_ok_iff] at hfold
      obtain ⟨middle, hhead, htail⟩ := hfold
      rw [ih htail, val_get_of_sub hhead, keyTotal_cons]
      ring

/-- A loop that adds up succeeds when every running total fits. -/
theorem exists_addAll_of_holds {items : List α} {start : Totals K}
    (hholds : ∀ n key,
      Cent.Holds ((start.get key).val + keyTotal keyOf amountOf (items.take n) key)) :
    ∃ totals, start.addAll keyOf amountOf items = .ok totals := by
  induction items generalizing start with
  | nil => exact ⟨start, rfl⟩
  | cons head tail ih =>
      have hfirst := hholds 1 (keyOf head)
      simp only [List.take_succ_cons, List.take_zero, keyTotal_cons, keyTotal_nil, if_pos, add_zero]
        at hfirst
      obtain ⟨total, htotal, _⟩ := Cent.exists_checked_eq_ok hfirst.1 hfirst.2
      have hadd : start.add (keyOf head) (amountOf head) = .ok (start.insert (keyOf head) total) :=
        Except.bind_eq_ok_iff.mpr ⟨total, htotal, rfl⟩
      obtain ⟨totals, htotals⟩ := ih fun n key => by
        have hnext := hholds (n + 1) key
        rw [List.take_succ_cons, keyTotal_cons, ← add_assoc] at hnext
        rwa [val_get_of_add hadd]
      exact ⟨totals, Except.bind_eq_ok_iff.mpr ⟨_, hadd, htotals⟩⟩

/-- Every running total of a loop that succeeds has been a `Cent`. -/
theorem holds_of_addAll {items : List α} {start totals : Totals K}
    (hfold : start.addAll keyOf amountOf items = .ok totals) (n : Nat) (key : K) :
    Cent.Holds ((start.get key).val + keyTotal keyOf amountOf (items.take n) key) := by
  rw [addAll, ← List.take_append_drop n items, List.foldlM_append, Except.bind_eq_ok_iff] at hfold
  obtain ⟨middle, htaken, _⟩ := hfold
  rw [← val_get_of_addAll htaken]
  exact Cent.holds_of_val _

/-- The loop depends on the keys and the amounts of the items only. -/
theorem addAll_congr {β : Type} {otherKey : β → K} {otherAmount : β → Cent} {items : List α}
    {others : List β} (start : Totals K)
    (hsame : items.map (fun item => (keyOf item, amountOf item)) =
      others.map fun other => (otherKey other, otherAmount other)) :
    start.addAll keyOf amountOf items = start.addAll otherKey otherAmount others := by
  have hpairs := congrArg (start.addAll Prod.fst Prod.snd) hsame
  simpa only [addAll, List.foldlM_map] using hpairs

/-- Room for all absolute values is more than the running totals need. -/
theorem exists_addAll {items : List α} {start : Totals K}
    (hroom : ∀ key, |(start.get key).val| + Cent.magnitude (items.map amountOf) ≤
      Backing.max backing) : ∃ totals, start.addAll keyOf amountOf items = .ok totals := by
  refine exists_addAll_of_holds fun n key => Cent.holds_of_abs_le ?_
  exact (abs_add_le _ _).trans ((Int.add_le_add_left (abs_keyTotal_take_le n key) _).trans (hroom key))

/-- A loop that subtracts succeeds when every running total fits. -/
theorem exists_subAll_of_holds {items : List α} {start : Totals K}
    (hholds : ∀ n key,
      Cent.Holds ((start.get key).val - keyTotal keyOf amountOf (items.take n) key)) :
    ∃ totals, start.subAll keyOf amountOf items = .ok totals := by
  induction items generalizing start with
  | nil => exact ⟨start, rfl⟩
  | cons head tail ih =>
      have hfirst := hholds 1 (keyOf head)
      simp only [List.take_succ_cons, List.take_zero, keyTotal_cons, keyTotal_nil, if_pos, add_zero]
        at hfirst
      obtain ⟨total, htotal, _⟩ := Cent.exists_checked_eq_ok hfirst.1 hfirst.2
      have hsub : start.sub (keyOf head) (amountOf head) = .ok (start.insert (keyOf head) total) :=
        Except.bind_eq_ok_iff.mpr ⟨total, htotal, rfl⟩
      obtain ⟨totals, htotals⟩ := ih fun n key => by
        have hnext := hholds (n + 1) key
        rw [List.take_succ_cons, keyTotal_cons, ← sub_sub] at hnext
        rwa [val_get_of_sub hsub]
      exact ⟨totals, Except.bind_eq_ok_iff.mpr ⟨_, hsub, htotals⟩⟩

theorem exists_subAll {items : List α} {start : Totals K}
    (hroom : ∀ key, |(start.get key).val| + Cent.magnitude (items.map amountOf) ≤
      Backing.max backing) : ∃ totals, start.subAll keyOf amountOf items = .ok totals := by
  refine exists_subAll_of_holds fun n key => Cent.holds_of_abs_le ?_
  exact (abs_sub _ _).trans ((Int.add_le_add_left (abs_keyTotal_take_le n key) _).trans (hroom key))

theorem mem_of_subAll {items : List α} {start totals : Totals K}
    (hfold : start.subAll keyOf amountOf items = .ok totals) (key : K) :
    key ∈ totals ↔ key ∈ start ∨ ∃ item ∈ items, keyOf item = key := by
  induction items generalizing start with
  | nil =>
      rw [subAll, List.foldlM_nil] at hfold
      cases hfold
      simp
  | cons head tail ih =>
      rw [subAll, List.foldlM_cons, Except.bind_eq_ok_iff] at hfold
      obtain ⟨middle, hhead, htail⟩ := hfold
      rw [ih htail, mem_of_sub hhead]
      simp only [List.mem_cons, exists_eq_or_imp, eq_comm (a := key)]
      tauto

@[simp] theorem get_empty (key : K) : get (∅ : Totals K) key = .ZERO := rfl

end Totals

end Kuatia
