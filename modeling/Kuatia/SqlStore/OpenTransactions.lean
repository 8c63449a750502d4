import Kuatia.SqlStore.CommittedHistory

/-! # Transactions beside each other

While a transaction is open, the rows that it has locked stay live and no other
one inserts what it has inserted. What it has written so far follows from its
phase, and from whether its transfer has been stored meanwhile.
-/

namespace Kuatia.ReadCommitted

variable [MoneyWidth] {content : EnvelopeId → Envelope} {db : Database}
  {history : List (Utxo.Tx EnvelopeId Posting)}

/-- The posting that the next statement activates. -/
def Phase.activating : Phase → Option Posting
  | .activate posting _ => some posting
  | _ => none

/-! ## What a transaction has written -/

namespace Transaction

def Unwritten (tx : Transaction) : Prop :=
  tx.deleted = [] ∧ tx.inserted = [] ∧ tx.activated = [] ∧ tx.stored = false

/-- Every row that the commit consumes is locked. -/
def Locked (tx : Transaction) : Prop := ∀ id ∈ tx.req.consume, id ∈ tx.rows.map (·.id)

/-- The consumed rows are deleted. The given rows are inserted and activated,
unless the transfer is stored: then nothing is. -/
def Writing (db : Database) (tx : Transaction) (inserted activated : List Posting) : Prop :=
  tx.Locked ∧ tx.deleted = tx.req.consume ∧
    ((tx.req.transferId ∉ db.transfers ∧ tx.inserted = inserted ∧ tx.activated = activated) ∨
      (tx.req.transferId ∈ db.transfers ∧ tx.inserted = [] ∧ tx.activated = []))

/-- What is written at each phase. -/
def Placed (db : Database) (tx : Transaction) : Prop :=
  match tx.phase with
  | .lookup | .guard _ | .select _ | .lockRows _ _ => tx.Unwritten
  | .delete chunks => tx.Locked ∧ tx.deleted ++ chunks.flatten = tx.req.consume ∧
      tx.inserted = [] ∧ tx.activated = [] ∧ tx.stored = false
  | .insert rest => tx.stored = false ∧
      ∃ done, done ++ rest = tx.req.create ∧ tx.Writing db done done
  | .activate posting rest => tx.stored = false ∧
      ∃ done, done ++ posting :: rest = tx.req.create ∧ tx.Writing db (done ++ [posting]) done
  | .owner _ | .floor _ _ | .record => tx.stored = false ∧
      tx.Writing db tx.req.create tx.req.create
  | .commit => tx.stored = decide (tx.req.transferId ∉ db.transfers) ∧
      tx.Writing db tx.req.create tx.req.create
  | .ended _ => tx.Unwritten

/-- No two open transactions hold the same row. -/
structure Exclusive (first second : Transaction) : Prop where
  rows : ∀ row ∈ first.rows, row.id ∉ second.rows.map (·.id)
  inserted : ∀ posting ∈ first.inserted, posting.id ∉ second.inserted.map (·.id)
  stored : first.req.transferId = second.req.transferId → first.stored = true →
    second.stored = false

theorem Exclusive.symm {first second : Transaction} (h : Exclusive first second) :
    Exclusive second first where
  rows row hrow hmem := by
    obtain ⟨other, hother, heq⟩ := List.mem_map.mp hmem
    exact h.rows other hother (heq ▸ List.mem_map_of_mem hrow)
  inserted posting hposting hmem := by
    obtain ⟨other, hother, heq⟩ := List.mem_map.mp hmem
    exact h.inserted other hother (heq ▸ List.mem_map_of_mem hposting)
  stored hsame hsecond := by
    cases hfirst : first.stored with
    | false => rfl
    | true => rw [h.stored hsame.symm hfirst] at hsecond; cases hsecond

/-- A transaction that takes no more rows still shares none. -/
theorem Exclusive.of_subset {tx next other : Transaction} (h : Exclusive tx other)
    (hreq : next.req = tx.req) (hrows : ∀ row ∈ next.rows, row ∈ tx.rows)
    (hinserted : ∀ posting ∈ next.inserted, posting ∈ tx.inserted)
    (hstored : next.stored = true → tx.stored = true) : Exclusive next other where
  rows row hrow := h.rows row (hrows row hrow)
  inserted posting hposting := h.inserted posting (hinserted posting hposting)
  stored hsame hnext := h.stored (hreq ▸ hsame) (hstored hnext)

/-- A transaction that has written what its phase says, for a promised request. -/
structure Fits (content : EnvelopeId → Envelope) (db : Database) (tx : Transaction) : Prop where
  promised : Promised content tx.req
  short : (content tx.req.transferId).creates.length ≤ 65536
  rows : ∀ row ∈ tx.rows, db.live.lookup row.id = some row
  placed : tx.Placed db

/-! ## One statement -/

/-- Before a transaction that consumes nothing activates a posting of a stored
transfer, the posting is live. -/
def Timely (db : Database) (tx : Transaction) : Prop :=
  ∀ posting ∈ tx.phase.activating, tx.req.consume = [] → tx.req.transferId ∈ db.transfers →
    posting.id ∈ db.live

instance (tx : Transaction) : Decidable (tx.Timely db) :=
  inferInstanceAs (Decidable (∀ posting ∈ tx.phase.activating, _))

theorem Fits.nodup_create {tx : Transaction} (hfits : Fits content db tx) :
    (tx.req.create.map (·.id)).Nodup := by
  rw [hfits.promised.create]
  exact nodup_map_id_createdPostings hfits.short

theorem Fits.transfer_of_create {tx : Transaction} (hfits : Fits content db tx) {posting : Posting}
    (hposting : posting ∈ tx.req.create) : posting.id.transfer = tx.req.transferId := by
  rw [hfits.promised.create] at hposting
  exact transfer_of_mem_createdPostings hposting

/-- Locked rows are live, so the transfer that consumes them is not stored. -/
theorem Fits.consume_eq_nil {tx : Transaction} (hfits : Fits content db tx)
    (hreplayed : Replayed content db history) (hlocked : tx.Locked)
    (hstored : tx.req.transferId ∈ db.transfers) : tx.req.consume = [] := by
  apply List.eq_nil_iff_forall_not_mem.mpr
  intro id hid
  obtain ⟨row, hrow, rfl⟩ := List.mem_map.mp (hlocked id hid)
  rw [hfits.promised.consume] at hid
  exact hreplayed.not_live_of_consumed hstored hid
    (HashMap.mem_iff_exists_lookup.mpr ⟨row, hfits.rows row hrow⟩)

/-- The transaction fits the database and shares no row with the others. -/
structure Keeps (content : EnvelopeId → Envelope) (db : Database) (others : List Transaction)
    (next : Transaction) : Prop where
  fits : Fits content db next
  exclusive : ∀ other ∈ others, Exclusive next other

section Statement

variable {order : IterationOrder} {others : List Transaction} {tx next : Transaction}
  (hreplayed : Replayed content db history) (hkeeps : Keeps content db others tx)

include hkeeps

/-- A statement that takes no more rows keeps to the phase it leads to. -/
theorem Keeps.of_subset (hreq : next.req = tx.req) (hrows : ∀ row ∈ next.rows, row ∈ tx.rows)
    (hinserted : ∀ posting ∈ next.inserted, posting ∈ tx.inserted)
    (hstored : next.stored = true → tx.stored = true) (hplaced : next.Placed db) :
    Keeps content db others next where
  fits :=
    { promised := hreq ▸ hkeeps.fits.promised
      short := hreq ▸ hkeeps.fits.short
      rows := fun row hrow => hkeeps.fits.rows row (hrows row hrow)
      placed := hplaced }
  exclusive other hother := (hkeeps.exclusive other hother).of_subset hreq hrows hinserted hstored

theorem Keeps.finish (result : Except StoreError CommitOutcome) :
    Keeps content db others (tx.finish result) :=
  hkeeps.of_subset rfl (by simp [Transaction.finish]) (by simp [Transaction.finish])
    (by simp [Transaction.finish]) ⟨rfl, rfl, rfl, rfl⟩

/-- Locking one more row that no other transaction holds. -/
theorem Keeps.lockRow {row found : Posting} {rest : List Posting} {chunks : List (List PostingId)}
    (hplaced : tx.Unwritten) (hvalid : Utxo.Valid Posting.id history db.live)
    (hfree : ¬∃ other ∈ others, row.id ∈ other.rows.map (·.id))
    (hfound : db.live.lookup row.id = some found) :
    Keeps content db others { tx with rows := found :: tx.rows, phase := .lockRows rest chunks } := by
  have hid : found.id = row.id := (hvalid.of_lookup hfound).1
  constructor
  · refine ⟨hkeeps.fits.promised, hkeeps.fits.short, ?_, hplaced⟩
    intro other hother
    rcases List.mem_cons.mp hother with rfl | hother
    · rwa [hid]
    · exact hkeeps.fits.rows other hother
  · intro other hother
    have hshare := hkeeps.exclusive other hother
    refine ⟨?_, hshare.inserted, hshare.stored⟩
    intro locked hlocked hmem
    rcases List.mem_cons.mp hlocked with rfl | hlocked
    · exact hfree ⟨other, hother, hid ▸ hmem⟩
    · exact hshare.rows locked hlocked hmem


/-- Every consumed row is there to be deleted. -/
theorem Keeps.delete {chunk : List PostingId} {chunks : List (List PostingId)}
    (hphase : tx.phase = .delete (chunk :: chunks)) :
    Keeps content db others { tx with
      deleted := tx.deleted ++ chunk.filter (· ∈ db.live), phase := .delete chunks } := by
  have hplaced := hkeeps.fits.placed
  rw [Placed, hphase] at hplaced
  obtain ⟨hlocked, hconsume, hrest⟩ := hplaced
  have hlive : chunk.filter (· ∈ db.live) = chunk := by
    apply List.filter_eq_self.mpr
    intro id hid
    have hmem : id ∈ tx.req.consume := by
      rw [← hconsume]
      simp [hid]
    obtain ⟨row, hrow, rfl⟩ := List.mem_map.mp (hlocked id hmem)
    exact decide_eq_true (HashMap.mem_iff_exists_lookup.mpr ⟨row, hkeeps.fits.rows row hrow⟩)
  refine hkeeps.of_subset rfl (fun _ h => h) (fun _ h => h) id ⟨hlocked, ?_, hrest⟩
  simpa [hlive] using hconsume

/-- An insert of the transfer, which no other transaction is inserting. -/
theorem Keeps.record (hwriting : tx.Writing db tx.req.create tx.req.create)
    (hfree : ¬∃ other ∈ others, other.req.transferId = tx.req.transferId ∧ other.stored) :
    Keeps content db others { tx with
      stored := decide (tx.req.transferId ∉ db.transfers), phase := .commit } where
  fits := ⟨hkeeps.fits.promised, hkeeps.fits.short, hkeeps.fits.rows, rfl, hwriting⟩
  exclusive other hother := by
    have hshare := hkeeps.exclusive other hother
    refine ⟨hshare.rows, hshare.inserted, fun hsame _ => ?_⟩
    exact Bool.eq_false_iff.mpr fun hstored => hfree ⟨other, hother, hsame.symm, hstored⟩

/-- A statement that only moves on to another phase, or locks an account. -/
theorem Keeps.to_phase {phase : Phase} {accounts : List AccountId}
    (hplaced : ({ tx with phase, accounts } : Transaction).Placed db) :
    Keeps content db others { tx with phase, accounts } :=
  hkeeps.of_subset rfl (fun _ h => h) (fun _ h => h) id hplaced

theorem Keeps.of_lookup (hphase : tx.phase = .lookup)
    (hnext : tx.statement order db others = some next) : Keeps content db others next := by
  have hplaced := hkeeps.fits.placed
  simp only [Placed, hphase] at hplaced
  simp only [statement, hphase] at hnext
  split at hnext <;> cases hnext
  · exact hkeeps.finish _
  · exact hkeeps.to_phase hplaced

theorem Keeps.of_guard {accounts : List AccountId} (hphase : tx.phase = .guard accounts)
    (hnext : tx.statement order db others = some next) : Keeps content db others next := by
  have hplaced := hkeeps.fits.placed
  simp only [Placed, hphase] at hplaced
  cases accounts with
  | nil =>
      simp only [statement, hphase] at hnext
      cases hnext
      exact hkeeps.to_phase hplaced
  | cons id rest =>
      simp only [statement, hphase] at hnext
      split at hnext
      next => cases hnext
      split at hnext
      next => cases hnext; exact hkeeps.finish _
      split at hnext
      next => cases hnext; exact hkeeps.finish _
      split at hnext <;> cases hnext
      · exact hkeeps.finish _
      · exact hkeeps.to_phase hplaced

/-- The deletion begins when every consumed row is locked. -/
theorem Keeps.of_select {chunks : List (List PostingId)} (hphase : tx.phase = .select chunks)
    (hnext : tx.statement order db others = some next) : Keeps content db others next := by
  have hplaced := hkeeps.fits.placed
  simp only [Placed, hphase] at hplaced
  cases chunks with
  | nil =>
      simp only [statement, hphase] at hnext
      split at hnext <;> cases hnext
      · exact hkeeps.finish _
      next hfound =>
        have hlocked : tx.Locked := by simpa [Locked] using hfound
        obtain ⟨hdeleted, hrest⟩ := hplaced
        refine hkeeps.to_phase ⟨hlocked, ?_, hrest⟩
        rw [hdeleted, List.flatten_chunks (by decide), List.nil_append]
  | cons chunk chunks =>
      simp only [statement, hphase] at hnext
      cases hnext
      exact hkeeps.to_phase hplaced

theorem Keeps.of_lockRows {rows : List Posting} {chunks : List (List PostingId)}
    (hvalid : Utxo.Valid Posting.id history db.live) (hphase : tx.phase = .lockRows rows chunks)
    (hnext : tx.statement order db others = some next) : Keeps content db others next := by
  have hplaced := hkeeps.fits.placed
  simp only [Placed, hphase] at hplaced
  cases rows with
  | nil =>
      simp only [statement, hphase] at hnext
      cases hnext
      exact hkeeps.to_phase hplaced
  | cons row rest =>
      simp only [statement, hphase] at hnext
      split at hnext
      next => cases hnext
      next hfree =>
        split at hnext <;> cases hnext
        next found hfound => exact hkeeps.lockRow hplaced hvalid hfree hfound
        · exact hkeeps.to_phase hplaced

theorem Keeps.of_delete {chunks : List (List PostingId)} (hphase : tx.phase = .delete chunks)
    (hnext : tx.statement order db others = some next) : Keeps content db others next := by
  cases chunks with
  | nil =>
      have hplaced := hkeeps.fits.placed
      simp only [Placed, hphase] at hplaced
      simp only [statement, hphase] at hnext
      cases hnext
      obtain ⟨hlocked, hdeleted, hinserted, hactivated, hstored⟩ := hplaced
      have hall : tx.deleted = tx.req.consume := by simpa using hdeleted
      refine hkeeps.to_phase ⟨hstored, [], rfl, hlocked, hall, ?_⟩
      by_cases hknown : tx.req.transferId ∈ db.transfers
      · exact .inr ⟨hknown, hinserted, hactivated⟩
      · exact .inl ⟨hknown, hinserted, hactivated⟩
  | cons chunk chunks =>
      simp only [statement, hphase] at hnext
      split at hnext <;> cases hnext
      exact hkeeps.delete hphase

theorem Keeps.of_owner {keys : List BalanceKey} (hphase : tx.phase = .owner keys)
    (hnext : tx.statement order db others = some next) : Keeps content db others next := by
  have hplaced := hkeeps.fits.placed
  simp only [Placed, hphase] at hplaced
  cases keys with
  | nil =>
      simp only [statement, hphase] at hnext
      cases hnext
      exact hkeeps.to_phase hplaced
  | cons key keys =>
      simp only [statement, hphase] at hnext
      split at hnext
      next => cases hnext
      split at hnext <;> cases hnext
      · exact hkeeps.to_phase hplaced
      · apply hkeeps.to_phase
        split <;> exact hplaced

theorem Keeps.of_floor {key : BalanceKey} {keys : List BalanceKey}
    (hphase : tx.phase = .floor key keys)
    (hnext : tx.statement order db others = some next) : Keeps content db others next := by
  have hplaced := hkeeps.fits.placed
  simp only [Placed, hphase] at hplaced
  simp only [statement, hphase] at hnext
  split at hnext
  next => cases hnext; exact hkeeps.finish _
  split at hnext <;> cases hnext
  · exact hkeeps.finish _
  · exact hkeeps.to_phase hplaced

theorem Keeps.of_record (hphase : tx.phase = .record)
    (hnext : tx.statement order db others = some next) : Keeps content db others next := by
  have hplaced := hkeeps.fits.placed
  simp only [Placed, hphase] at hplaced
  simp only [statement, hphase] at hnext
  split at hnext <;> cases hnext
  next hfree => exact hkeeps.record hplaced.2 hfree

include hreplayed

/-- An insert into the table of postings: a posting that no other transaction is
inserting is taken exactly if the transfer is stored. -/
theorem Keeps.insert {posting : Posting} {rest : List Posting}
    (hphase : tx.phase = .insert (posting :: rest))
    (hfree : ¬∃ other ∈ others, posting.id ∈ other.inserted.map (·.id)) :
    Keeps content db others
      (if posting.id ∈ db.postings ∨ posting.id ∈ tx.inserted.map (·.id) then
        { tx with phase := .activate posting rest }
      else { tx with
        inserted := tx.inserted ++ [posting], phase := .activate posting rest }) := by
  have hplaced := hkeeps.fits.placed
  rw [Placed, hphase] at hplaced
  obtain ⟨hstored, done, hcreate, hlocked, hdeleted, hwritten⟩ := hplaced
  have hposting : posting ∈ tx.req.create := by simp [← hcreate]
  rcases hwritten with ⟨hfresh, hinserted, hactivated⟩ | ⟨hknown, hinserted, hactivated⟩
  · have hnew : ¬(posting.id ∈ db.postings ∨ posting.id ∈ tx.inserted.map (·.id)) := by
      rintro (hrecorded | hdone)
      · have hcreated := hreplayed.stored_of_createdIn ((hreplayed.recorded _).mp hrecorded)
        rw [hkeeps.fits.transfer_of_create hposting] at hcreated
        exact hfresh hcreated
      · have hnodup := hkeeps.fits.nodup_create
        rw [← hcreate, List.map_append, List.nodup_append] at hnodup
        exact hnodup.2.2 _ (hinserted ▸ hdone) _ (by simp) rfl
    rw [if_neg hnew]
    constructor
    · refine ⟨hkeeps.fits.promised, hkeeps.fits.short, hkeeps.fits.rows, hstored, done, hcreate,
        hlocked, hdeleted, .inl ⟨hfresh, ?_, hactivated⟩⟩
      rw [hinserted]
    · intro other hother
      have hshare := hkeeps.exclusive other hother
      refine ⟨hshare.rows, ?_, hshare.stored⟩
      intro inserted hmem hheld
      rcases List.mem_append.mp hmem with hmem | hmem
      · exact hshare.inserted inserted hmem hheld
      · rw [List.mem_singleton.mp hmem] at hheld
        exact hfree ⟨other, hother, hheld⟩
  · have hrecorded : posting.id ∈ db.postings := by
      rw [hkeeps.fits.promised.create] at hposting
      exact (hreplayed.recorded _).mpr
        (hreplayed.createdIn_iff.mpr ⟨_, hknown, posting, hposting, rfl⟩)
    rw [if_pos (.inl hrecorded)]
    exact hkeeps.of_subset rfl (fun _ h => h) (fun _ h => h) id
      ⟨hstored, done, hcreate, hlocked, hdeleted, .inr ⟨hknown, hinserted, hactivated⟩⟩

/-- An insert into the live table: the posting is live exactly if the transfer is
stored. -/
theorem Keeps.activate {posting : Posting} {rest : List Posting} (htimely : tx.Timely db)
    (hphase : tx.phase = .activate posting rest) :
    Keeps content db others
      (if posting.id ∈ tx.live db then { tx with phase := .insert rest }
      else { tx with activated := tx.activated ++ [posting], phase := .insert rest }) := by
  have hplaced := hkeeps.fits.placed
  rw [Placed, hphase] at hplaced
  obtain ⟨hstored, done, hcreate, hlocked, hdeleted, hwritten⟩ := hplaced
  have hposting : posting ∈ tx.req.create := by simp [← hcreate]
  have hdone : done ++ [posting] ++ rest = tx.req.create := by simpa using hcreate
  rcases hwritten with ⟨hfresh, hinserted, hactivated⟩ | ⟨hknown, hinserted, hactivated⟩
  · have hnew : posting.id ∉ tx.live db := by
      intro hlive
      rcases HashMap.mem_insertAll.mp hlive with hlive | ⟨other, hother, heq⟩
      · have hcreated := hreplayed.stored_of_live (HashMap.mem_eraseAll.mp hlive).1
        rw [hkeeps.fits.transfer_of_create hposting] at hcreated
        exact hfresh hcreated
      · have hnodup := hkeeps.fits.nodup_create
        rw [← hcreate, List.map_append, List.nodup_append] at hnodup
        exact hnodup.2.2 _ (List.mem_map_of_mem (hactivated ▸ hother)) _ (by simp) heq
    rw [if_neg hnew]
    refine hkeeps.of_subset rfl (fun _ h => h) (fun _ h => h) id
      ⟨hstored, done ++ [posting], hdone, hlocked, hdeleted, .inl ⟨hfresh, hinserted, ?_⟩⟩
    rw [hactivated]
  · -- a stored transfer consumes nothing here, so nothing hides the live row
    have hnothing := hkeeps.fits.consume_eq_nil hreplayed hlocked hknown
    have hlive : posting.id ∈ tx.live db := by
      rw [live, hdeleted, hnothing, hactivated]
      exact htimely posting (by rw [hphase]; rfl) hnothing hknown
    rw [if_pos hlive]
    exact hkeeps.of_subset rfl (fun _ h => h) (fun _ h => h) id
      ⟨hstored, done ++ [posting], hdone, hlocked, hdeleted, .inr ⟨hknown, hinserted, hactivated⟩⟩

theorem Keeps.of_insert {postings : List Posting} (hphase : tx.phase = .insert postings)
    (hnext : tx.statement order db others = some next) : Keeps content db others next := by
  cases postings with
  | nil =>
      have hplaced := hkeeps.fits.placed
      simp only [Placed, hphase] at hplaced
      simp only [statement, hphase] at hnext
      cases hnext
      obtain ⟨hstored, done, hdone, hwriting⟩ := hplaced
      rw [List.append_nil] at hdone
      subst hdone
      exact hkeeps.to_phase ⟨hstored, hwriting⟩
  | cons posting rest =>
      simp only [statement, hphase] at hnext
      split at hnext
      next => cases hnext
      next hfree =>
        have hinsert := hkeeps.insert hreplayed hphase hfree
        split at hnext <;> cases hnext
        next htaken => rwa [if_pos htaken] at hinsert
        next hnew => rwa [if_neg hnew] at hinsert

theorem Keeps.of_activate {posting : Posting} {rest : List Posting} (htimely : tx.Timely db)
    (hphase : tx.phase = .activate posting rest)
    (hnext : tx.statement order db others = some next) : Keeps content db others next := by
  simp only [statement, hphase] at hnext
  have hactivate := hkeeps.activate hreplayed htimely hphase
  split at hnext
  next => cases hnext
  split at hnext <;> cases hnext
  next hlive => rwa [if_pos hlive] at hactivate
  next hnew => rwa [if_neg hnew] at hactivate

/-- Every statement leads to a transaction that fits and shares no row. -/
theorem Keeps.statement (htimely : tx.Timely db)
    (hnext : tx.statement order db others = some next) : Keeps content db others next := by
  cases hphase : tx.phase with
  | lookup => exact hkeeps.of_lookup hphase hnext
  | guard accounts => exact hkeeps.of_guard hphase hnext
  | select chunks => exact hkeeps.of_select hphase hnext
  | lockRows rows chunks => exact hkeeps.of_lockRows hreplayed.valid hphase hnext
  | delete chunks => exact hkeeps.of_delete hphase hnext
  | insert postings => exact hkeeps.of_insert hreplayed hphase hnext
  | activate posting rest => exact hkeeps.of_activate hreplayed htimely hphase hnext
  | owner keys => exact hkeeps.of_owner hphase hnext
  | floor key keys => exact hkeeps.of_floor hphase hnext
  | record => exact hkeeps.of_record hphase hnext
  | commit | ended => simp only [Transaction.statement, hphase] at hnext; cases hnext

end Statement

end Transaction

end Kuatia.ReadCommitted
