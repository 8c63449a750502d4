import Mathlib.Data.Prod.Lex
import Kuatia.Collections.Sorting
import Kuatia.Sql.Ordering
import Kuatia.Types.Ids

/-! # The orders of the identifiers

The derived order of a structure is the lexicographic order of its fields. Each
identifier has a sort key in a linear order that says the same, so a list of
distinct identifiers has one sorted form.
-/

namespace Kuatia

open Sql

/-! ## Accounts -/

/-- By the base id, then by the subaccount. -/
def AccountId.sortKey (account : AccountId) : Int64 ×ₗ Int64 := toLex (account.id, account.sub)

theorem AccountId.sortKey_injective : Function.Injective AccountId.sortKey := by
  rintro ⟨id, sub⟩ ⟨other, otherSub⟩ heq
  cases toLex_inj.mp heq
  rfl

theorem AccountId.le_iff_sortKey {first second : AccountId} :
    first ≤ second ↔ first.sortKey ≤ second.sortKey := by
  rw [sortKey, sortKey, Prod.Lex.toLex_le_toLex]
  rfl

/-! ## Balances -/

/-- By the account, then by the asset. -/
def BalanceKey.sortKey (key : BalanceKey) : (Int64 ×ₗ Int64) ×ₗ UInt32 :=
  toLex (key.1.sortKey, key.2.id)

theorem BalanceKey.sortKey_injective : Function.Injective BalanceKey.sortKey := by
  rintro ⟨account, ⟨asset⟩⟩ ⟨other, ⟨otherAsset⟩⟩ heq
  have hparts := Prod.mk.inj (toLex_inj.mp heq)
  have haccount : account = other := AccountId.sortKey_injective hparts.1
  have hasset : asset = otherAsset := hparts.2
  rw [haccount, hasset]

theorem BalanceKey.le_iff_sortKey {first second : BalanceKey} :
    BalanceKey.le first second ↔ first.sortKey ≤ second.sortKey := by
  rw [le, sortKey, sortKey, Prod.Lex.toLex_le_toLex, lt_iff_le_and_ne,
    ← AccountId.le_iff_sortKey, AccountId.sortKey_injective.ne_iff,
    AccountId.sortKey_injective.eq_iff, and_comm]

/-! ## Postings -/

/-- The order of the in-memory store: by the bytes of the transfer, then by index. -/
def PostingId.sortKey (id : PostingId) : List UInt8 ×ₗ UInt16 :=
  toLex (id.transfer.bytes.toList, id.index)

theorem PostingId.sortKey_injective : Function.Injective PostingId.sortKey := by
  rintro ⟨⟨first⟩, index⟩ ⟨⟨second⟩, other⟩ heq
  have hparts := Prod.mk.inj (toLex_inj.mp heq)
  have htransfer : first = second := Vector.toList_inj.mp hparts.1
  have hindex : index = other := hparts.2
  rw [htransfer, hindex]

theorem PostingId.le_iff_sortKey {first second : PostingId} :
    PostingId.le first second ↔ first.sortKey ≤ second.sortKey := by
  rw [PostingId.le, sortKey, sortKey, Prod.Lex.toLex_le_toLex]
  have htransfer : first.transfer = second.transfer ↔
      first.transfer.bytes.toList = second.transfer.bytes.toList := by
    constructor
    · exact fun heq => heq ▸ rfl
    · intro heq
      have hbytes := Vector.toList_inj.mp heq
      cases hfirst : first.transfer
      cases hsecond : second.transfer
      simp_all
  rw [htransfer]

/-! ## Sorted lists without repetitions -/

/-- What is sorted before its repetitions are removed has none left. -/
theorem nodup_sortDedup {α β : Type*} [DecidableEq α] [LinearOrder β] {column : α → β}
    {related : α → α → Prop} [DecidableRel related] (hinjective : Function.Injective column)
    (hrelated : ∀ first second, related first second ↔ column first ≤ column second)
    (list : List α) : (list.sortDedup related).Nodup := by
  rw [List.sortDedup, insertionSort_eq_orderBy hrelated, List.dedupConsecutive]
  have hsorted := (orderBy_pairwise column list).sublist
    (List.destutter_sublist (· ≠ ·) (orderBy column list))
  -- neighbours differ and do not descend, so all elements ascend strictly
  have hstrict : ((orderBy column list).destutter (· ≠ ·)).IsChain (column · < column ·) :=
    List.isChain_iff_getElem.mpr fun i hi => lt_of_le_of_ne (hsorted.isChain.getElem i hi)
      (hinjective.ne ((List.isChain_destutter (· ≠ ·) (orderBy column list)).getElem i hi))
  have : Trans (fun first second : α => column first < column second)
      (fun first second => column first < column second)
      fun first second => column first < column second := ⟨lt_trans⟩
  exact (List.isChain_iff_pairwise.mp hstrict).imp fun hlt heq => hlt.ne (congrArg column heq)

theorem AccountId.nodup_sortDedup (accounts : List AccountId) :
    (accounts.sortDedup (· ≤ ·)).Nodup :=
  Kuatia.nodup_sortDedup sortKey_injective (fun _ _ => le_iff_sortKey) accounts

theorem AssetId.nodup_sortDedup (assets : List AssetId) :
    (assets.sortDedup fun first second => first.id ≤ second.id).Nodup := by
  have hinjective : Function.Injective AssetId.id := by
    rintro ⟨first⟩ ⟨second⟩ rfl
    rfl
  exact Kuatia.nodup_sortDedup hinjective (fun _ _ => .rfl) assets

end Kuatia
