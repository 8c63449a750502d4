import Kuatia.Ledger.Balances
import Kuatia.SqlStore.ReadCommitted
import Kuatia.Utxo.History
import Mathlib.Data.List.Perm.Basic

/-! # The history of a database

The stored transfers are the transactions of a history that has been replayed in
the order of their commits. What is live is then what they create and none of them
consumes, so the live sums are the ones that the stored transfers imply.
-/

namespace Kuatia.ReadCommitted

variable [MoneyWidth]

/-! ## What a database should hold -/

namespace Database

/-- The postings that the stored transfers create. -/
def created (db : Database) : List Posting :=
  db.transfers.entries.flatMap fun entry => createdPostings entry.1 entry.2.envelope.creates

/-- The postings that the stored transfers consume. -/
def consumed (db : Database) : List PostingId := db.transfers.values.flatMap (·.envelope.consumes)

def liveTotal (db : Database) (asset : AssetId) : Int :=
  keyTotal Posting.asset Posting.value db.live.values asset

/-- The sum of what the stored transfers create and none of them consumes. -/
def impliedTotal (db : Database) (asset : AssetId) : Int :=
  keyTotal Posting.asset Posting.value (db.created.filter (·.id ∉ db.consumed)) asset

/-- No consumed posting is live, and the live sums are those that the stored
transfers imply. -/
structure Intact (db : Database) : Prop where
  spent : ∀ id ∈ db.consumed, id ∉ db.live
  total : ∀ asset, db.liveTotal asset = db.impliedTotal asset

theorem mem_consumed_iff {db : Database} {id : PostingId} : id ∈ db.consumed ↔
    ∃ tid record, db.transfers.lookup tid = some record ∧ id ∈ record.envelope.consumes := by
  simp only [consumed, List.mem_flatMap, HashMap.mem_values_iff]
  grind

theorem mem_created_iff {db : Database} {posting : Posting} : posting ∈ db.created ↔
    ∃ tid record, db.transfers.lookup tid = some record ∧
      posting ∈ createdPostings tid record.envelope.creates := by
  rw [created, List.mem_flatMap]
  constructor
  · rintro ⟨⟨tid, record⟩, hentry, hposting⟩
    exact ⟨tid, record, HashMap.lookup_eq_some_iff.mpr hentry, hposting⟩
  · rintro ⟨tid, record, hlookup, hposting⟩
    exact ⟨⟨tid, record⟩, HashMap.lookup_eq_some_iff.mp hlookup, hposting⟩

end Database

/-! ## What the callers promise -/

/-- The id of a request stands for its content, which is what the request carries
out. No posting is consumed twice. -/
structure Promised (content : EnvelopeId → Envelope) (req : CommitRequest) : Prop where
  envelope : req.record.envelope = content req.transferId
  consume : req.consume = (content req.transferId).consumes
  nodup : req.consume.Nodup
  create : req.create = createdPostings req.transferId (content req.transferId).creates

/-! ## The committed history -/

/-- The database is the result of a history of its stored transfers. -/
structure Replayed (content : EnvelopeId → Envelope) (db : Database)
    (history : List (Utxo.Tx EnvelopeId Posting)) : Prop where
  valid : Utxo.Valid Posting.id history db.live
  creates : ∀ tx ∈ history, tx.creates = createdPostings tx.label (content tx.label).creates
  spends : ∀ tx ∈ history, tx.spentIds Posting.id = (content tx.label).consumes
  short : ∀ tx ∈ history, (content tx.label).creates.length ≤ 65536
  stored : ∀ tid, tid ∈ db.transfers ↔ ∃ tx ∈ history, tx.label = tid
  content : ∀ tid record, db.transfers.lookup tid = some record → record.envelope = content tid
  recorded : ∀ id, id ∈ db.postings ↔ Utxo.createdIn Posting.id history id

namespace Replayed

variable {content : EnvelopeId → Envelope} {db : Database}
  {history : List (Utxo.Tx EnvelopeId Posting)}

theorem empty : Replayed content .empty [] where
  valid := .start
  creates _ htx := by cases htx
  spends _ htx := by cases htx
  short _ htx := by cases htx
  stored tid := by simp [Database.empty]
  content _ _ hlookup := by cases hlookup
  recorded id := by simp [Database.empty, Utxo.createdIn]

variable (hreplayed : Replayed content db history)
include hreplayed

theorem createdIn_iff {id : PostingId} : Utxo.createdIn Posting.id history id ↔
    ∃ tid ∈ db.transfers, ∃ posting ∈ createdPostings tid (content tid).creates,
      posting.id = id := by
  constructor
  · rintro ⟨tx, htx, hid⟩
    obtain ⟨posting, hposting, heq⟩ := List.mem_map.mp hid
    rw [hreplayed.creates tx htx] at hposting
    exact ⟨tx.label, (hreplayed.stored _).mpr ⟨tx, htx, rfl⟩, posting, hposting, heq⟩
  · rintro ⟨tid, htid, posting, hposting, rfl⟩
    obtain ⟨tx, htx, rfl⟩ := (hreplayed.stored tid).mp htid
    rw [← hreplayed.creates tx htx] at hposting
    exact ⟨tx, htx, List.mem_map_of_mem hposting⟩

/-- Only a stored transfer has created anything. -/
theorem stored_of_createdIn {id : PostingId} (hcreated : Utxo.createdIn Posting.id history id) :
    id.transfer ∈ db.transfers := by
  obtain ⟨tid, htid, posting, hposting, rfl⟩ := hreplayed.createdIn_iff.mp hcreated
  rwa [transfer_of_mem_createdPostings hposting]

theorem stored_of_live {id : PostingId} (hlive : id ∈ db.live) : id.transfer ∈ db.transfers :=
  hreplayed.stored_of_createdIn (hreplayed.valid.createdIn_of_mem hlive)

/-- What a stored transfer consumes is not live. -/
theorem not_live_of_consumed {tid : EnvelopeId} (htid : tid ∈ db.transfers) {id : PostingId}
    (hid : id ∈ (content tid).consumes) : id ∉ db.live := by
  obtain ⟨tx, htx, rfl⟩ := (hreplayed.stored tid).mp htid
  rw [← hreplayed.spends tx htx] at hid
  intro hlive
  exact (hreplayed.valid.mem_iff.mp hlive).2 ⟨tx, htx, hid⟩

theorem mem_consumed_iff {id : PostingId} :
    id ∈ db.consumed ↔ Utxo.spentIn Posting.id history id := by
  rw [Database.mem_consumed_iff]
  constructor
  · rintro ⟨tid, record, hlookup, hid⟩
    have htid : tid ∈ db.transfers := HashMap.mem_iff_exists_lookup.mpr ⟨record, hlookup⟩
    obtain ⟨tx, htx, rfl⟩ := (hreplayed.stored tid).mp htid
    rw [hreplayed.content _ _ hlookup, ← hreplayed.spends tx htx] at hid
    exact ⟨tx, htx, hid⟩
  · rintro ⟨tx, htx, hid⟩
    obtain ⟨record, hlookup⟩ :=
      HashMap.mem_iff_exists_lookup.mp ((hreplayed.stored _).mpr ⟨tx, htx, rfl⟩)
    rw [hreplayed.spends tx htx, ← hreplayed.content _ _ hlookup] at hid
    exact ⟨tx.label, record, hlookup, hid⟩

theorem mem_created_iff {posting : Posting} :
    posting ∈ db.created ↔ ∃ tx ∈ history, posting ∈ tx.creates := by
  rw [Database.mem_created_iff]
  constructor
  · rintro ⟨tid, record, hlookup, hposting⟩
    have htid : tid ∈ db.transfers := HashMap.mem_iff_exists_lookup.mpr ⟨record, hlookup⟩
    obtain ⟨tx, htx, rfl⟩ := (hreplayed.stored tid).mp htid
    rw [hreplayed.content _ _ hlookup, ← hreplayed.creates tx htx] at hposting
    exact ⟨tx, htx, hposting⟩
  · rintro ⟨tx, htx, hposting⟩
    obtain ⟨record, hlookup⟩ :=
      HashMap.mem_iff_exists_lookup.mp ((hreplayed.stored _).mpr ⟨tx, htx, rfl⟩)
    rw [hreplayed.creates tx htx, ← hreplayed.content _ _ hlookup] at hposting
    exact ⟨tx.label, record, hlookup, hposting⟩

/-- The stored transfers create postings with distinct ids. -/
theorem nodup_created : (db.created.map (·.id)).Nodup := by
  rw [Database.created, List.map_flatMap, List.nodup_flatMap]
  have hlookup : ∀ entry ∈ db.transfers.entries,
      db.transfers.lookup entry.1 = some entry.2 := fun entry hentry =>
    HashMap.lookup_eq_some_iff.mpr hentry
  constructor
  · intro entry hentry
    have htid : entry.1 ∈ db.transfers :=
      HashMap.mem_iff_exists_lookup.mpr ⟨_, hlookup entry hentry⟩
    obtain ⟨tx, htx, hlabel⟩ := (hreplayed.stored _).mp htid
    apply nodup_map_id_createdPostings
    rw [hreplayed.content _ _ (hlookup entry hentry), ← hlabel]
    exact hreplayed.short tx htx
  · have hkeys := List.pairwise_map.mp db.transfers.nodupKeys
    refine hkeys.imp fun hne => List.disjoint_left.mpr fun id hinFirst hinSecond => hne ?_
    obtain ⟨first, hfirst, hid⟩ := List.mem_map.mp hinFirst
    obtain ⟨second, hsecond, heq⟩ := List.mem_map.mp hinSecond
    rw [← transfer_of_mem_createdPostings hfirst, ← transfer_of_mem_createdPostings hsecond,
      hid, heq]

/-- What is live is what the stored transfers create and none of them consumes. -/
theorem intact : db.Intact where
  spent id hid := by
    intro hlive
    exact (hreplayed.valid.mem_iff.mp hlive).2 (hreplayed.mem_consumed_iff.mp hid)
  total asset := by
    refine keyTotal_perm ((List.perm_ext_iff_of_nodup ?_ ?_).mpr fun posting => ?_)
    · exact .of_map _ (HashMap.nodup_map_values fun _ _ hlookup =>
        (hreplayed.valid.of_lookup hlookup).1)
    · exact (List.Nodup.of_map _ hreplayed.nodup_created).filter _
    · rw [HashMap.mem_values_iff, List.mem_filter, hreplayed.mem_created_iff, decide_eq_true_eq,
        hreplayed.mem_consumed_iff]
      constructor
      · rintro ⟨id, hlookup⟩
        obtain ⟨rfl, hcreated⟩ := hreplayed.valid.of_lookup hlookup
        have hlive := HashMap.mem_iff_exists_lookup.mpr ⟨posting, hlookup⟩
        exact ⟨hcreated, (hreplayed.valid.mem_iff.mp hlive).2⟩
      · rintro ⟨⟨tx, htx, hposting⟩, hunspent⟩
        have hlive : posting.id ∈ db.live := hreplayed.valid.mem_iff.mpr
          ⟨⟨tx, htx, List.mem_map_of_mem hposting⟩, hunspent⟩
        obtain ⟨other, hlookup⟩ := HashMap.mem_iff_exists_lookup.mp hlive
        obtain ⟨hid, hcreated⟩ := hreplayed.valid.of_lookup hlookup
        have heq : other = posting := List.inj_on_of_nodup_map hreplayed.nodup_created
          (hreplayed.mem_created_iff.mpr hcreated)
          (hreplayed.mem_created_iff.mpr ⟨tx, htx, hposting⟩) hid
        exact ⟨posting.id, heq ▸ hlookup⟩

end Replayed

end Kuatia.ReadCommitted
