import Kuatia.Ledger.Promises
import Kuatia.Ledger.System

/-! # Operations that only read

Everything an operation does before it hands its effects to the store.
-/

namespace Kuatia

open LedgerM

variable [MoneyWidth]

theorem computeBalance_readOnly (account : AccountId) (asset : AssetId) :
    ReadOnly (computeBalance account asset) :=
  (ReadOnly.read _).bind fun _ => .attempt _

theorem foldAccountDelta_readOnly (account : AccountId) (asset : AssetId)
    (records : List EnvelopeRecord) : ReadOnly (foldAccountDelta account asset records) := by
  refine (ReadOnly.attempt _).bind fun credits => ?_
  dsimp only
  split
  next => exact .pure _
  next => exact (ReadOnly.read _).bind fun _ => (ReadOnly.attempt _).bind fun _ => .attempt _

theorem foldTail_readOnly (account : AccountId) (asset : AssetId) (fromTs toTs : Option Int64) :
    ReadOnly (foldTail account asset fromTs toTs) :=
  (ReadOnly.read _).bind fun _ => foldAccountDelta_readOnly _ _ _

theorem balance_readOnly (account : AccountId) (asset : AssetId) :
    ReadOnly (Ledger.balance account asset) := by
  refine ReadOnly.nowMillis.bind fun now => (ReadOnly.read _).bind fun closest => ?_
  cases closest with
  | none => exact computeBalance_readOnly _ _
  | some point => exact (foldTail_readOnly _ _ _ _).bind fun _ => .attempt _

theorem getPostings_readOnly (ids : List PostingId) : ReadOnly (getPostings ids) := by
  unfold getPostings
  split
  next => exact .pure _
  next => exact (ReadOnly.read _).bind fun _ => .attempt _

theorem getAccounts_readOnly (ids : List AccountId) : ReadOnly (getAccounts ids) :=
  (ReadOnly.read _).bind fun _ => .attempt _

theorem loadBalances_readOnly (keys : List BalanceKey) : ReadOnly (loadBalances keys) :=
  .foldlM (fun _ _ => (computeBalance_readOnly _ _).bind fun _ => .pure _) _ _

theorem loadBook_readOnly (id : BookId) : ReadOnly (loadBook id) := by
  refine (ReadOnly.read _).bind fun book => ?_
  rcases book with (_ | _) | book
  · dsimp only
    split
    · exact .pure _
    · exact .throw _
  · exact .throw _
  · exact .pure _

theorem loadDebit_readOnly (loaded : ResolveState) (debit : Debit) :
    ReadOnly (loadDebit loaded debit) := by
  refine (ReadOnly.read _).bind fun postings => ?_
  dsimp only
  split
  next => exact .pure _
  next => exact (ReadOnly.read _).bind fun _ => (ReadOnly.attempt _).bind fun _ => .pure _

theorem load_readOnly (envelope : Envelope) : ReadOnly (load envelope) :=
  (getPostings_readOnly _).bind fun _ => (getAccounts_readOnly _).bind fun _ =>
    (loadBalances_readOnly _).bind fun _ => (loadBook_readOnly _).bind fun _ => .pure _

theorem hasLivePostings_readOnly (account : AccountId) : ReadOnly (hasLivePostings account) :=
  (ReadOnly.read _).bind fun _ => .pure _

variable [Sha256]

theorem resolveSnapshots_readOnly (ids : List AccountId) : ReadOnly (resolveSnapshots ids) :=
  (getAccounts_readOnly ids).bind fun _ => .pure _

theorem resolve_readOnly (transfer : Transfer) : ReadOnly (resolve transfer) :=
  (ReadOnly.compute _).bind fun _ => (ReadOnly.foldlM loadDebit_readOnly _ _).bind fun _ =>
    (ReadOnly.attempt _).bind fun _ => (resolveSnapshots_readOnly _).bind fun _ => .pure _

theorem pinSnapshots_readOnly (envelope : Envelope) : ReadOnly (pinSnapshots envelope) := by
  unfold pinSnapshots
  split
  next => exact (resolveSnapshots_readOnly _).bind fun _ => .pure _
  next => exact .pure _

end Kuatia
