import Kuatia.Types.Ids

/-! # Accounts and books

An account is a log of versions. Its flags say whether it may take part in
transfers and whether its balance may go below zero. A book restricts which
assets and accounts its transfers may use.
-/

namespace Kuatia

/-- A map from strings to bytes, iterated in key order. -/
structure Metadata where
  entries : List (String × List UInt8)
  sorted : entries.Pairwise fun a b => a.1 < b.1
  deriving DecidableEq

namespace Metadata

def empty : Metadata := ⟨[], .nil⟩

/-- The map with one entry. -/
def single (key : String) (value : List UInt8) : Metadata :=
  ⟨[(key, value)], List.pairwise_singleton _ _⟩

def get (metadata : Metadata) (key : String) : Option (List UInt8) :=
  (metadata.entries.find? (·.1 = key)).map Prod.snd

/-- The map with one entry set: an entry under the same key is replaced. -/
def insert (metadata : Metadata) (key : String) (value : List UInt8) : Metadata where
  entries := metadata.entries.filter (·.1 < key) ++
    (key, value) :: metadata.entries.filter (key < ·.1)
  sorted := by
    apply List.pairwise_append.mpr
    refine ⟨metadata.sorted.filter _, List.pairwise_cons.mpr ⟨?_, metadata.sorted.filter _⟩, ?_⟩
    · intro entry hentry
      exact of_decide_eq_true (List.mem_filter.mp hentry).2
    · intro before hbefore after hafter
      have hlow : before.1 < key := of_decide_eq_true (List.mem_filter.mp hbefore).2
      rcases List.mem_cons.mp hafter with rfl | hafter
      · exact hlow
      · exact String.lt_trans hlow (of_decide_eq_true (List.mem_filter.mp hafter).2)

theorem get_insert_self (metadata : Metadata) (key : String) (value : List UInt8) :
    (metadata.insert key value).get key = some value := by
  have hnone : (metadata.entries.filter (·.1 < key)).find? (·.1 = key) = none := by
    apply List.find?_eq_none.mpr
    intro entry hentry heq
    have hlow : entry.1 < key := of_decide_eq_true (List.mem_filter.mp hentry).2
    exact String.lt_irrefl key (of_decide_eq_true heq ▸ hlow)
  rw [get, insert, List.find?_append, hnone, Option.none_or]
  simp only [List.find?_cons, decide_true, Option.map_some]

end Metadata

structure AccountFlags where
  bits : UInt32
  deriving DecidableEq

namespace AccountFlags

def FROZEN : AccountFlags := ⟨(1 : UInt32) <<< 0⟩

def CLOSED : AccountFlags := ⟨(1 : UInt32) <<< 1⟩

def INFLIGHT : AccountFlags := ⟨(1 : UInt32) <<< 2⟩

def DEBIT_MUST_NOT_EXCEED_CREDIT : AccountFlags := ⟨(1 : UInt32) <<< 3⟩

def empty : AccountFlags := ⟨0⟩

def isEmpty (flags : AccountFlags) : Bool := flags.bits == 0

def contains (flags other : AccountFlags) : Bool := flags.bits &&& other.bits == other.bits

def intersects (flags other : AccountFlags) : Bool := flags.bits &&& other.bits != 0

/-- `flags |= other`. -/
def insert (flags other : AccountFlags) : AccountFlags := ⟨flags.bits ||| other.bits⟩

def remove (flags other : AccountFlags) : AccountFlags := ⟨flags.bits &&& ~~~other.bits⟩

/-- Setting bits disjoint from `mask` does not change what `mask` sees. -/
theorem contains_insert {flags other mask : AccountFlags} (hdisjoint : other.bits &&& mask.bits = 0) :
    (flags.insert other).contains mask = flags.contains mask := by
  have hmask : (flags.bits ||| other.bits) &&& mask.bits = flags.bits &&& mask.bits := by
    rw [← UInt32.toBitVec_inj] at hdisjoint ⊢
    simp only [UInt32.toBitVec_and, UInt32.toBitVec_or, BitVec.and_or_distrib_right] at hdisjoint ⊢
    rw [hdisjoint]
    exact BitVec.or_zero
  rw [contains, contains, insert, hmask]

/-- Clearing bits disjoint from `mask` does not change what `mask` sees. -/
theorem contains_remove {flags other mask : AccountFlags}
    (hdisjoint : ~~~other.bits &&& mask.bits = mask.bits) :
    (flags.remove other).contains mask = flags.contains mask := by
  simp only [contains, remove, UInt32.and_assoc, hdisjoint]

theorem contains_insert_self (flags other : AccountFlags) :
    (flags.insert other).contains other = true := by
  have hmask : (flags.bits ||| other.bits) &&& other.bits = other.bits := by
    rw [← UInt32.toBitVec_inj]
    simp only [UInt32.toBitVec_and, UInt32.toBitVec_or]
    ext i
    simp only [BitVec.getElem_and, BitVec.getElem_or]
    grind
  simp [contains, insert, hmask]

theorem contains_remove_self (flags : AccountFlags) {other : AccountFlags}
    (hsome : other.bits ≠ 0) : (flags.remove other).contains other = false := by
  rw [contains, remove, UInt32.and_assoc, UInt32.not_and_self, UInt32.and_zero,
    beq_eq_false_iff_ne]
  exact hsome.symm

end AccountFlags

/-- One version of an account. -/
structure Account where
  id : AccountId
  version : UInt64
  flags : AccountFlags
  book : BookId
  metadata : Metadata
  deriving DecidableEq

namespace Account

/-- Version 1 with no flags: the account may be overdrawn. -/
def new (id : AccountId) : Account :=
  { id, version := 1, flags := .empty, book := DEFAULT_BOOK, metadata := .empty }

def debitMustNotExceedCredit (id : AccountId) : Account :=
  { new id with flags := (new id).flags.insert .DEBIT_MUST_NOT_EXCEED_CREDIT }

def forbidsOverdraft (account : Account) : Bool :=
  account.flags.contains .DEBIT_MUST_NOT_EXCEED_CREDIT

def isFrozen (account : Account) : Bool := account.flags.contains .FROZEN

def isClosed (account : Account) : Bool := account.flags.contains .CLOSED

end Account

/-- What the transfers of a book may use; an empty field restricts nothing. -/
structure BookPolicy where
  allowedAssets : List AssetId
  allowedFlags : AccountFlags
  allowedAccounts : List AccountId
  deriving DecidableEq

structure Book where
  id : BookId
  name : String
  policy : BookPolicy
  deriving DecidableEq

end Kuatia
