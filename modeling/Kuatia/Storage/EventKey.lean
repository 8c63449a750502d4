import Kuatia.Collections.Decimal
import Kuatia.Storage.MemStore
import Kuatia.Types.Hex

/-! # What the key of an event identifies

The key of an event is a text. It identifies the committed transfer, or the
account and the number of its version, but not what became of the account.
-/

namespace Kuatia

/-- The key of an account version. -/
def versionKey (account : AccountId) (version : UInt64) : String :=
  s!"acct:{account.id}:{account.sub}:{version}"

theorem toList_versionKey (account : AccountId) (version : UInt64) :
    (versionKey account version).toList = "acct".toList ++ ':' :: ((toString account.id).toList ++
      ':' :: ((toString account.sub).toList ++ ':' :: (toString version).toList)) := by
  simp only [versionKey, String.toList_append]
  simp only [List.append_assoc]
  rfl

theorem colon_notMem_toString (value : Int) : ':' ∉ (toString value).toList := by
  intro hmem
  exact absurd (Decimal.isDigit_of_mem_toString hmem (by decide)) (by decide)

theorem versionKey_inj {first second : AccountId} {version other : UInt64} :
    versionKey first version = versionKey second other ↔ first = second ∧ version = other := by
  constructor
  · intro heq
    have hlist := congrArg String.toList heq
    rw [toList_versionKey, toList_versionKey, List.append_cancel_left_eq, List.cons.injEq] at hlist
    obtain ⟨hid, hlist⟩ := List.append_separator_inj (colon_notMem_toString first.id.toInt)
      (colon_notMem_toString second.id.toInt) hlist.2
    obtain ⟨hsub, hversion⟩ := List.append_separator_inj (colon_notMem_toString first.sub.toInt)
      (colon_notMem_toString second.sub.toInt) hlist
    have hnumber : (toString (version.toNat : Int)).toList = (toString (other.toNat : Int)).toList :=
      hversion
    rw [String.toList_inj] at hid hsub hnumber
    constructor
    · cases first
      cases second
      rw [AccountId.mk.injEq]
      exact ⟨Int64.toInt_inj.mp (Decimal.toString_injective hid),
        Int64.toInt_inj.mp (Decimal.toString_injective hsub)⟩
    · exact UInt64.toNat_inj.mp (Int.ofNat.inj (Decimal.toString_injective hnumber))
  · rintro ⟨rfl, rfl⟩
    rfl

/-- The text of an id is no key of an account version. -/
theorem hex_ne_versionKey (bytes : List UInt8) (account : AccountId) (version : UInt64) :
    hex bytes ≠ versionKey account version := by
  intro heq
  apply colon_notMem_hex bytes
  rw [heq, toList_versionKey]
  exact List.mem_append_right _ List.mem_cons_self

/-- The key of a subject. -/
def subjectKey : EnvelopeId ⊕ AccountId × UInt64 → String
  | .inl transferId => hex transferId.bytes.toList
  | .inr (account, version) => versionKey account version

theorem subjectKey_injective : Function.Injective subjectKey := by
  rintro (first | ⟨account, version⟩) (second | ⟨other, number⟩) heq
  · have hbytes : first.bytes = second.bytes := Vector.toList_inj.mp (hex_injective heq)
    cases first
    cases second
    exact congrArg (Sum.inl ∘ EnvelopeId.mk) hbytes
  · exact absurd heq (hex_ne_versionKey _ _ _)
  · exact absurd heq.symm (hex_ne_versionKey _ _ _)
  · obtain ⟨rfl, rfl⟩ := versionKey_inj.mp heq
    rfl

variable [MoneyWidth]

/-- What an event is about: a transfer, or a version of an account. -/
def LedgerEventKind.subject : LedgerEventKind → Option (EnvelopeId ⊕ AccountId × UInt64)
  | .transferCommitted transferId => some (.inl transferId)
  | .accountFrozen account version | .accountUnfrozen account version
  | .accountClosed account version => some (.inr (account, version))
  | .accountCreated _ => none

omit [MoneyWidth] in
theorem eventDedupKey_eq (kind : LedgerEventKind) :
    eventDedupKey kind = kind.subject.map subjectKey := by
  cases kind <;> rfl

omit [MoneyWidth] in
/-- Two events have the same key when they are about the same. -/
theorem eventDedupKey_eq_iff {first second : LedgerEventKind} :
    eventDedupKey first = eventDedupKey second ↔ first.subject = second.subject := by
  rw [eventDedupKey_eq, eventDedupKey_eq, (Option.map_injective subjectKey_injective).eq_iff]

namespace InMemoryStore

omit [MoneyWidth] in
/-- An event is found when some event is about the same. -/
theorem findEvent_eq_none_iff {events : List LedgerEvent} {kind : LedgerEventKind} :
    findEvent events kind = none ↔
      kind.subject = none ∨ ∀ event ∈ events, event.kind.subject ≠ kind.subject := by
  unfold findEvent
  cases hkey : eventDedupKey kind with
  | none =>
      rw [eventDedupKey_eq, Option.map_eq_none_iff] at hkey
      simp [hkey]
  | some key =>
      have hsome : kind.subject ≠ none := by
        intro hnone
        rw [eventDedupKey_eq, hnone] at hkey
        cases hkey
      simp only [List.find?_eq_none, decide_eq_true_eq, ← hkey, eventDedupKey_eq_iff, hsome,
        false_or, ne_eq]

end InMemoryStore

end Kuatia
