import Kuatia.SqlStore.OpenTransactions
import Kuatia.Storage.Sample

/-! # Transfers that are submitted again

A commit looks for its transfer before it holds anything that another submission
of the transfer needs. One that consumes a posting is safe all the same: the
posting is locked, and gone once the transfer is stored. One that consumes nothing
writes what it creates on top of what the other submission has left of it.
-/

namespace Kuatia.ReadCommitted

section Theory

variable [MoneyWidth] {content : EnvelopeId → Envelope} {db : Database}
  {history : List (Utxo.Tx EnvelopeId Posting)}

namespace Transaction

/-! ## The commit -/

section Commit

variable {tx other : Transaction}

/-- What a commit makes of the database when its transfer is new. -/
def stores (tx : Transaction) (db : Database) : Database where
  accounts := db.accounts
  transfers := db.transfers.insert tx.req.transferId tx.req.record
  postings := db.postings.insertAll (·.id) tx.req.create
  live := (db.live.eraseAll tx.req.consume).insertAll (·.id) tx.req.create

/-- A commit stores a new transfer with all that it writes, or changes nothing. -/
theorem Fits.apply_cases (hfits : Fits content db tx) (hreplayed : Replayed content db history)
    (hphase : tx.phase = .commit) :
    tx.apply db = db ∨
      (tx.req.transferId ∉ db.transfers ∧ tx.stored = true ∧ tx.inserted = tx.req.create ∧
        tx.Locked ∧ tx.apply db = tx.stores db) := by
  have hplaced := hfits.placed
  simp only [Placed, hphase] at hplaced
  obtain ⟨hstored, hlocked, hdeleted, hwritten⟩ := hplaced
  rcases hwritten with ⟨hfresh, hinserted, hactivated⟩ | ⟨hknown, hinserted, hactivated⟩
  · have htrue : tx.stored = true := by simp [hstored, hfresh]
    refine .inr ⟨hfresh, htrue, hinserted, hlocked, ?_⟩
    rw [apply, live, htrue, hinserted, hactivated, hdeleted]
    rfl
  · have hfalse : tx.stored = false := by simp [hstored, hknown]
    have hnothing := hfits.consume_eq_nil hreplayed hlocked hknown
    refine .inl ?_
    rw [apply, live, hfalse, hinserted, hactivated, hdeleted, hnothing]
    rfl

/-- A new transfer extends the history: what it consumes is live, and what it
creates is fresh. -/
theorem Fits.extend (hfits : Fits content db tx) (hreplayed : Replayed content db history)
    (hlocked : tx.Locked) (hfresh : tx.req.transferId ∉ db.transfers) :
    Replayed content (tx.stores db)
      (⟨tx.req.transferId, tx.req.consume.filterMap db.live.lookup, tx.req.create⟩ :: history) := by
  have hlive : ∀ id ∈ tx.req.consume, id ∈ db.live := by
    intro id hid
    obtain ⟨row, hrow, rfl⟩ := List.mem_map.mp (hlocked id hid)
    exact HashMap.mem_iff_exists_lookup.mpr ⟨row, hfits.rows row hrow⟩
  have hspent := HashMap.forall₂_filterMap_lookup hlive
  have hids : (tx.req.consume.filterMap db.live.lookup).map (·.id) = tx.req.consume :=
    HashMap.map_key_eq (fun _ _ hlookup => (hreplayed.valid.of_lookup hlookup).1) hspent
  have happlicable : Utxo.Applicable Posting.id history db.live
      ⟨tx.req.transferId, tx.req.consume.filterMap db.live.lookup, tx.req.create⟩ := by
    constructor
    · rw [Utxo.Tx.spentIds, hids]
      exact hfits.promised.nodup
    · intro posting hposting
      obtain ⟨id, _, hlookup⟩ := List.mem_filterMap.mp hposting
      rwa [(hreplayed.valid.of_lookup hlookup).1]
    · exact hfits.nodup_create
    · intro id hid hcreated
      obtain ⟨posting, hposting, rfl⟩ := List.mem_map.mp hid
      apply hfresh
      rw [← hfits.transfer_of_create hposting]
      exact hreplayed.stored_of_createdIn hcreated
  constructor
  · have hstep := hreplayed.valid.extend happlicable
    rwa [Utxo.Tx.apply, Utxo.Tx.spentIds, hids] at hstep
  · exact List.forall_mem_cons.mpr ⟨hfits.promised.create, hreplayed.creates⟩
  · refine List.forall_mem_cons.mpr ⟨?_, hreplayed.spends⟩
    rw [Utxo.Tx.spentIds, hids]
    exact hfits.promised.consume
  · exact List.forall_mem_cons.mpr ⟨hfits.short, hreplayed.short⟩
  · intro tid
    simp [stores, AList.mem_insert, hreplayed.stored, eq_comm]
  · intro tid record hlookup
    rw [stores, HashMap.lookup_insert_eq] at hlookup
    split at hlookup
    next heq =>
      cases hlookup
      rw [heq]
      exact hfits.promised.envelope
    next => exact hreplayed.content tid record hlookup
  · intro id
    rw [stores, HashMap.mem_insertAll, hreplayed.recorded, or_comm]
    simp [Utxo.createdIn, Utxo.Tx.createdIds]

theorem Writing.subset {inserted activated : List Posting}
    (hwriting : tx.Writing db inserted activated) : tx.inserted ⊆ inserted := by
  rcases hwriting.2.2 with ⟨_, hinserted, _⟩ | ⟨_, hinserted, _⟩
  · rw [hinserted]
    exact List.Subset.refl _
  · rw [hinserted]
    exact List.nil_subset _

/-- A transaction inserts nothing but what its request creates. -/
theorem Placed.inserted_subset (hplaced : tx.Placed db) : tx.inserted ⊆ tx.req.create := by
  cases hphase : tx.phase <;> simp only [Placed, hphase] at hplaced
  case delete => simp [hplaced.2.2.1]
  case insert =>
    obtain ⟨_, done, hdone, hwriting⟩ := hplaced
    rw [← hdone]
    exact List.Subset.trans hwriting.subset (List.subset_append_left _ _)
  case activate posting rest =>
    obtain ⟨_, done, hdone, hwriting⟩ := hplaced
    have hall : done ++ [posting] ++ rest = tx.req.create := by simpa using hdone
    rw [← hall]
    exact List.Subset.trans hwriting.subset (List.subset_append_left _ _)
  case owner | floor | record | commit => exact hplaced.2.subset
  -- nothing is written yet, or the transaction has ended
  all_goals simp [hplaced.2.1]

/-- A transaction that has inserted nothing may find its transfer stored. -/
theorem Writing.of_stored {after : Database} {inserted activated : List Posting}
    (hwriting : tx.Writing db inserted activated) (hsubset : activated ⊆ inserted)
    (hnothing : tx.inserted = []) (hstored : tx.req.transferId ∈ after.transfers) :
    tx.Writing after inserted activated := by
  obtain ⟨hlocked, hdeleted, hwritten⟩ := hwriting
  refine ⟨hlocked, hdeleted, .inr ⟨hstored, hnothing, ?_⟩⟩
  rcases hwritten with ⟨_, hinserted, hactivated⟩ | ⟨_, _, hactivated⟩
  · rw [hactivated]
    rw [← hinserted, hnothing] at hsubset
    exact List.subset_nil.mp hsubset
  · exact hactivated

theorem Placed.of_stored {after : Database} (hplaced : tx.Placed db) (hunstored : tx.stored = false)
    (hnothing : tx.inserted = []) (hstored : tx.req.transferId ∈ after.transfers) :
    tx.Placed after := by
  cases hphase : tx.phase <;> simp only [Placed, hphase] at hplaced ⊢
  case insert =>
    obtain ⟨hflag, done, hdone, hwriting⟩ := hplaced
    exact ⟨hflag, done, hdone, hwriting.of_stored (List.Subset.refl _) hnothing hstored⟩
  case activate =>
    obtain ⟨hflag, done, hdone, hwriting⟩ := hplaced
    exact ⟨hflag, done, hdone,
      hwriting.of_stored (List.subset_append_left _ _) hnothing hstored⟩
  case owner | floor | record =>
    exact ⟨hplaced.1, hplaced.2.of_stored (List.Subset.refl _) hnothing hstored⟩
  case commit =>
    refine ⟨?_, hplaced.2.of_stored (List.Subset.refl _) hnothing hstored⟩
    simp [hunstored, hstored]
  all_goals exact hplaced

theorem Placed.congr {after : Database} (hplaced : tx.Placed db)
    (hsame : tx.req.transferId ∈ after.transfers ↔ tx.req.transferId ∈ db.transfers) :
    tx.Placed after := by
  unfold Placed Writing at hplaced ⊢
  simpa only [hsame] using hplaced

/-- A new transfer leaves the rows of the other transactions alone. One that is
submitting the same transfer has not inserted anything. -/
theorem Fits.later (hother : Fits content db other) (hfits : Fits content db tx)
    (hreplayed : Replayed content db history) (hshare : Exclusive tx other)
    (hlocked : tx.Locked) (hinserted : tx.inserted = tx.req.create) (hstored : tx.stored = true)
    (hfresh : tx.req.transferId ∉ db.transfers) : Fits content (tx.stores db) other := by
  refine ⟨hother.promised, hother.short, fun row hrow => ?_, ?_⟩
  · have hlookup := hother.rows row hrow
    have hconsume : row.id ∉ tx.req.consume := by
      intro hmem
      obtain ⟨own, hown, heq⟩ := List.mem_map.mp (hlocked _ hmem)
      exact hshare.rows own hown (heq ▸ List.mem_map_of_mem hrow)
    have hcreate : ∀ posting ∈ tx.req.create, posting.id ≠ row.id := by
      intro posting hposting heq
      apply hfresh
      rw [← hfits.transfer_of_create hposting, heq]
      exact hreplayed.stored_of_live (HashMap.mem_iff_exists_lookup.mpr ⟨row, hlookup⟩)
    rw [stores, HashMap.lookup_insertAll_of_notMem hcreate, HashMap.lookup_eraseAll,
      if_neg hconsume]
    exact hlookup
  · by_cases hsame : tx.req.transferId = other.req.transferId
    · have hcreate : other.req.create = tx.req.create := by
        rw [hother.promised.create, hfits.promised.create, hsame]
      have hnothing : other.inserted = [] := by
        apply List.eq_nil_iff_forall_not_mem.mpr
        intro posting hposting
        have hown := hother.placed.inserted_subset hposting
        rw [hcreate, ← hinserted] at hown
        exact hshare.inserted posting hown (List.mem_map_of_mem hposting)
      apply hother.placed.of_stored (hshare.stored hsame hstored) hnothing
      simp [stores, hsame]
    · apply hother.placed.congr
      simp [stores, AList.mem_insert, Ne.symm hsame]

end Commit

end Transaction

/-! ## Runs -/

namespace Server

open Transaction

/-- The condition on one action: a request creates at most 65536 postings, and a
transaction activates in time. -/
def Admits (server : Server) : Action → Prop
  | .start req => req.create.length ≤ 65536
  | .advance index _ => ∀ tx ∈ server.transactions[index]?, tx.Timely server.db
  | .abort .. | .putAccount _ => True

/-- Every action of the run meets the condition. -/
def AdmitsAll : Server → List Action → Prop
  | _, [] => True
  | server, action :: actions => server.Admits action ∧ AdmitsAll (server.act action) actions

instance decidableAdmits (server : Server) : (action : Action) → Decidable (server.Admits action)
  | .start req => inferInstanceAs (Decidable (req.create.length ≤ 65536))
  | .advance index _ =>
      inferInstanceAs (Decidable (∀ tx ∈ server.transactions[index]?, tx.Timely server.db))
  | .abort .. | .putAccount _ => .isTrue trivial

instance decidableAdmitsAll :
    (server : Server) → (actions : List Action) → Decidable (server.AdmitsAll actions)
  | _, [] => .isTrue trivial
  | server, action :: actions =>
      have := decidableAdmitsAll (server.act action) actions
      inferInstanceAs (Decidable (server.Admits action ∧ _))

/-- The transactions fit the database, and no two of them share a row. -/
structure Sound (content : EnvelopeId → Envelope) (db : Database)
    (transactions : List Transaction) : Prop where
  replayed : ∃ history, Replayed content db history
  fits : ∀ tx ∈ transactions, tx.Fits content db
  exclusive : transactions.Pairwise Exclusive

section Step

variable {server : Server} {transactions others : List Transaction} {tx next : Transaction}

theorem Sound.perm {permuted : List Transaction} (hsound : Sound content db transactions)
    (hperm : transactions.Perm permuted) : Sound content db permuted where
  replayed := hsound.replayed
  fits tx htx := hsound.fits tx (hperm.mem_iff.mpr htx)
  exclusive := (hperm.pairwise_iff Exclusive.symm).mp hsound.exclusive

theorem Sound.replace (hsound : Sound content db (tx :: others))
    (hkeeps : Keeps content db others next) : Sound content db (next :: others) where
  replayed := hsound.replayed
  fits := List.forall_mem_cons.mpr ⟨hkeeps.fits, (List.forall_mem_cons.mp hsound.fits).2⟩
  exclusive := List.pairwise_cons.mpr
    ⟨hkeeps.exclusive, (List.pairwise_cons.mp hsound.exclusive).2⟩

theorem Sound.keeps (hsound : Sound content db (tx :: others)) : Keeps content db others tx :=
  ⟨hsound.fits tx List.mem_cons_self, (List.pairwise_cons.mp hsound.exclusive).1⟩

theorem Sound.commit (hsound : Sound content db (tx :: others)) (hphase : tx.phase = .commit)
    (result : Except StoreError CommitOutcome) :
    Sound content (tx.apply db) (tx.finish result :: others) := by
  obtain ⟨history, hreplayed⟩ := hsound.replayed
  have hfits := hsound.keeps.fits
  rcases hfits.apply_cases hreplayed hphase with
    hsame | ⟨hfresh, hstored, hinserted, hlocked, hstores⟩
  · rw [hsame]
    exact hsound.replace (hsound.keeps.finish result)
  · have hothers : ∀ other ∈ others, other.Fits content (tx.stores db) := by
      intro other hother
      exact (hsound.fits other (List.mem_cons_of_mem _ hother)).later hfits hreplayed
        (hsound.keeps.exclusive other hother) hlocked hinserted hstored hfresh
    rw [hstores]
    constructor
    · exact ⟨_, hfits.extend hreplayed hlocked hfresh⟩
    · refine List.forall_mem_cons.mpr ⟨⟨hfits.promised, hfits.short, ?_, ?_⟩, hothers⟩
      · simp [finish]
      · exact ⟨rfl, rfl, rfl, rfl⟩
    · exact (hsound.replace (hsound.keeps.finish result)).exclusive

theorem Sound.advance {order : IterationOrder} {after : Database}
    (hsound : Sound content db (tx :: others)) (htimely : tx.Timely db)
    (hadvance : advance order db others tx = some (after, next)) :
    Sound content after (next :: others) := by
  unfold Server.advance at hadvance
  split at hadvance
  next hphase =>
    cases hadvance
    exact hsound.commit hphase _
  next =>
    obtain ⟨later, hlater, heq⟩ := Option.map_eq_some_iff.mp hadvance
    cases heq
    obtain ⟨history, hreplayed⟩ := hsound.replayed
    exact hsound.replace (hsound.keeps.statement hreplayed htimely hlater)

theorem Sound.start (hsound : Sound content db transactions) {req : CommitRequest}
    (hpromised : Promised content req) (hshort : req.create.length ≤ 65536) :
    Sound content db (transactions ++ [.begin req]) := by
  refine Sound.perm ?_ (List.perm_append_singleton _ _).symm
  constructor
  · exact hsound.replayed
  · refine List.forall_mem_cons.mpr ⟨⟨hpromised, ?_, ?_, ⟨rfl, rfl, rfl, rfl⟩⟩, hsound.fits⟩
    · rw [hpromised.create, createdPostings, List.length_mapIdx] at hshort
      exact hshort
    · simp [Transaction.begin]
  · refine List.pairwise_cons.mpr ⟨fun other _ => ?_, hsound.exclusive⟩
    exact ⟨by simp [Transaction.begin], by simp [Transaction.begin],
      by simp [Transaction.begin]⟩

theorem Sound.of_accounts (hsound : Sound content db transactions)
    (accounts : HashMap AccountId Account) :
    Sound content { db with accounts } transactions := by
  obtain ⟨history, hreplayed⟩ := hsound.replayed
  refine ⟨⟨history, ?_⟩, fun tx htx => ?_, hsound.exclusive⟩
  · exact ⟨hreplayed.valid, hreplayed.creates, hreplayed.spends, hreplayed.short,
      hreplayed.stored, hreplayed.content, hreplayed.recorded⟩
  · have hfits := hsound.fits tx htx
    exact ⟨hfits.promised, hfits.short, hfits.rows, hfits.placed.congr .rfl⟩

/-- One action keeps the transactions sound. -/
theorem Sound.act {action : Action} (hsound : Sound content server.db server.transactions)
    (hpromised : ∀ req, action = .start req → Promised content req)
    (hadmits : server.Admits action) :
    Sound content (server.act action).db (server.act action).transactions := by
  have hpick : ∀ {index : Nat} {tx : Transaction}, server.transactions[index]? = some tx →
      Sound content server.db (tx :: server.transactions.eraseIdx index) := by
    intro index tx htx
    obtain ⟨hindex, rfl⟩ := List.getElem?_eq_some_iff.mp htx
    exact hsound.perm (List.getElem_cons_eraseIdx_perm hindex).symm
  have hput : ∀ {index : Nat} {tx next : Transaction} {after : Database},
      server.transactions[index]? = some tx →
      Sound content after (next :: server.transactions.eraseIdx index) →
      Sound content after (server.transactions.set index next) := by
    intro index tx next after htx hafter
    obtain ⟨hindex, -⟩ := List.getElem?_eq_some_iff.mp htx
    exact hafter.perm (List.set_perm_cons_eraseIdx hindex next).symm
  cases action with
  | start req => exact hsound.start (hpromised req rfl) hadmits
  | advance index order =>
      simp only [Server.act]
      split
      next => exact hsound
      next tx htx =>
        split
        next => exact hsound
        next after next hadvance =>
          exact hput htx ((hpick htx).advance (hadmits tx htx) hadvance)
  | abort index message =>
      simp only [Server.act]
      split
      next => exact hsound
      next tx htx =>
        split
        next => exact hsound
        next => exact hput htx ((hpick htx).replace ((hpick htx).keeps.finish _))
  | putAccount account =>
      simp only [Server.act]
      split
      next => exact hsound
      next => exact hsound.of_accounts _

theorem Sound.run {actions : List Action} (hsound : Sound content server.db server.transactions)
    (hpromised : ∀ req, .start req ∈ actions → Promised content req)
    (hadmits : server.AdmitsAll actions) :
    Sound content (server.run actions).db (server.run actions).transactions := by
  induction actions generalizing server with
  | nil => exact hsound
  | cons action actions ih =>
      refine ih (hsound.act (fun req heq => hpromised req ?_) hadmits.1)
        (fun req hreq => hpromised req (List.mem_cons_of_mem _ hreq)) hadmits.2
      rw [heq]
      exact List.mem_cons_self

theorem AdmitsAll.of_append {first second : List Action}
    (hadmits : server.AdmitsAll (first ++ second)) : server.AdmitsAll first := by
  induction first generalizing server with
  | nil => trivial
  | cons action first ih => exact ⟨hadmits.1, ih hadmits.2⟩

theorem sound_empty : Sound content empty.db empty.transactions :=
  ⟨⟨[], .empty⟩, fun _ htx => absurd htx List.not_mem_nil, .nil⟩

end Step

/-- As long as nothing that consumes nothing is activated after it has been spent,
every state of a run is intact. -/
theorem run_intact (content : EnvelopeId → Envelope) (actions : List Action)
    (hpromised : ∀ req, .start req ∈ actions → Promised content req)
    (hadmits : empty.AdmitsAll actions) :
    ∀ past, past <+: actions → (empty.run past).db.Intact := by
  rintro past ⟨future, rfl⟩
  have hsound := sound_empty.run (fun req hreq => hpromised req (List.mem_append_left _ hreq))
    hadmits.of_append
  obtain ⟨history, hreplayed⟩ := hsound.replayed
  exact hreplayed.intact

end Server

end Theory

/-! ## A deposit that is submitted twice -/

namespace Resubmitted

open Sample

/-- Alice is paid five from outside. -/
def deposit : CommitRequest :=
  commitOf 1 1 [] [postingOf 1 0 external (-5), postingOf 1 1 alice 5] [external, alice]

/-- Alice pays the five on to bob. -/
def payment : CommitRequest := commitOf 2 2 [⟨transferOf 1, 1⟩] [postingOf 2 0 bob 5] [alice, bob]

def content (tid : EnvelopeId) : Envelope :=
  if tid = transferOf 1 then deposit.record.envelope else payment.record.envelope

def accounts : List Action :=
  [.putAccount (.new external), .putAccount (.debitMustNotExceedCredit alice), .putAccount (.new bob)]

/-- Twenty statements of one transaction, which is enough for all of them. -/
def statements (index : Nat) : List Action := List.replicate 20 (.advance index .listed)

/-- Two transactions look for the deposit. When the first has committed it, the
five are paid on, and the second inserts the deposit again. -/
def spentBetween : List Action :=
  accounts ++ [.start deposit, .start deposit, .start payment, .advance 0 .listed] ++
    statements 1 ++ statements 2 ++ statements 0

/-- The same with the payment at the end. -/
def spentLast : List Action :=
  accounts ++ [.start deposit, .start deposit, .start payment, .advance 0 .listed] ++
    statements 1 ++ statements 0 ++ statements 2

theorem promised {req : CommitRequest} (hreq : req = deposit ∨ req = payment) :
    Promised content req := by
  rcases hreq with rfl | rfl
  · exact ⟨by decide +kernel, by decide +kernel, by decide +kernel, by decide +kernel⟩
  · exact ⟨by decide +kernel, by decide +kernel, by decide +kernel, by decide +kernel⟩

theorem started_spentBetween {req : CommitRequest} (hreq : .start req ∈ spentBetween) :
    req = deposit ∨ req = payment := by
  simpa [spentBetween, accounts, statements] using hreq

theorem started_spentLast {req : CommitRequest} (hreq : .start req ∈ spentLast) :
    req = deposit ∨ req = payment := by
  simpa [spentLast, accounts, statements] using hreq

end Resubmitted

open Sample Resubmitted in
/-- The five that alice has spent are live again, and the dollars no longer add up. -/
theorem deposit_live_again :
    (∀ req, .start req ∈ spentBetween → Promised content req) ∧
      ⟨transferOf 1, 1⟩ ∈ (Server.empty.run spentBetween).db.consumed ∧
      ⟨transferOf 1, 1⟩ ∈ (Server.empty.run spentBetween).db.live ∧
      (Server.empty.run spentBetween).db.liveTotal usd = 5 ∧
      (Server.empty.run spentBetween).db.impliedTotal usd = 0 :=
  ⟨fun _ hreq => promised (started_spentBetween hreq), by decide +kernel, by decide +kernel,
    by decide +kernel, by decide +kernel⟩

open Sample Resubmitted in
/-- A second submission that finds what the first has created unspent does no harm. -/
theorem run_intact_spentLast : (Server.empty.run spentLast).db.Intact :=
  Server.run_intact content spentLast (fun _ hreq => promised (started_spentLast hreq))
    (by decide +kernel) spentLast (List.prefix_refl _)

end Kuatia.ReadCommitted
