import Kuatia.SqlStore.AccountLocks

/-! # Commits one after another

Whatever the statements of the open transactions are interleaved with, the database
is the one that results when each transfer is committed at once, at the commit of
its transaction, with all its checks made on what is committed by then.
-/

namespace Kuatia.ReadCommitted

section Theory

variable [MoneyWidth] {content : EnvelopeId → Envelope} {db : Database}
  {history : List (Utxo.Tx EnvelopeId Posting)}

/-! ## At once -/

namespace Database

/-- Store the transfer with all its postings. -/
def commit (req : CommitRequest) (db : Database) : Database where
  accounts := db.accounts
  transfers := db.transfers.insert req.transferId req.record
  postings := db.postings.insertAll (·.id) req.create
  live := (db.live.eraseAll req.consume).insertAll (·.id) req.create

def putAccount (account : Account) (db : Database) : Database :=
  { db with accounts := db.accounts.insert account.id account }

/-- The request creates or consumes a posting of the balance. -/
def Touches (db : Database) (req : CommitRequest) (key : BalanceKey) : Prop :=
  (∃ posting ∈ req.create, posting.key = key) ∨
    ∃ id ∈ req.consume, ∃ posting, db.live.lookup id = some posting ∧ posting.key = key

/-- All the checks of a commit, made on one database. -/
structure Accepts (db : Database) (req : CommitRequest) : Prop where
  fresh : req.transferId ∉ db.transfers
  opened : ∀ id ∈ req.involved, ∃ account, db.accounts.lookup id = some account ∧
    account.isFrozen = false ∧ account.isClosed = false
  live : ∀ id ∈ req.consume, id ∈ db.live
  floor : ∀ key, db.Touches req key → ∀ account, db.accounts.lookup key.1 = some account →
    account.forbidsOverdraft = true → 0 ≤ (db.commit req).liveBalance key

end Database

/-- What happens to the database at once. -/
inductive Effect where
  | putAccount (account : Account)
  | commit (req : CommitRequest)

inductive Effect.Happens : Effect → Database → Database → Prop where
  | putAccount (account : Account) (db : Database) :
      Happens (.putAccount account) db (db.putAccount account)
  | commit {req : CommitRequest} {db : Database} (haccepts : db.Accepts req) :
      Happens (.commit req) db (db.commit req)

/-- The database after the effects, each of which happens to what the earlier ones
leave. -/
inductive Serial : List Effect → Database → Prop where
  | start : Serial [] .empty
  | extend {effects : List Effect} {effect : Effect} {before after : Database}
      (earlier : Serial effects before) (hhappens : effect.Happens before after) :
      Serial (effects ++ [effect]) after

/-- The stored transfers are the committed ones. -/
theorem Serial.stored_iff {effects : List Effect} (hserial : Serial effects db)
    (tid : EnvelopeId) : tid ∈ db.transfers ↔ ∃ req, .commit req ∈ effects ∧ req.transferId = tid := by
  induction hserial with
  | start => simp [Database.empty]
  | extend _ hhappens ih =>
      cases hhappens with
      | putAccount account => simpa [Database.putAccount] using ih
      | commit haccepts =>
          simp only [Database.commit, AList.mem_insert, ih, List.mem_append, List.mem_singleton,
            Effect.commit.injEq]
          grind

/-! ## The effects of a run -/

namespace Server

/-- What an action does to the database. -/
def effect (server : Server) : Action → Option Effect
  | .advance index _ =>
      match server.transactions[index]? with
      | none => none
      | some tx =>
          match tx.phase with
          | .commit => if tx.stored then some (.commit tx.req) else none
          | _ => none
  | .putAccount account =>
      if ∃ tx ∈ server.transactions, account.id ∈ tx.accounts then none
      else some (.putAccount account)
  | .start _ | .abort .. => none

def effects : Server → List Action → List Effect
  | _, [] => []
  | server, action :: actions => (server.effect action).toList ++ effects (server.act action) actions

end Server

/-! ## Transactions that lock different accounts -/

namespace Transaction

/-- A transaction keeps its request, locks no account that another one has locked,
and is not yet committed. -/
structure Advances (others : List Transaction) (tx next : Transaction) : Prop where
  req : next.req = tx.req
  accounts : ∀ id ∈ next.accounts, id ∈ tx.accounts ∨ ∀ other ∈ others, id ∉ other.accounts
  uncommitted : ∀ receipt, next.phase ≠ .ended (.ok (.committed receipt))

theorem Advances.of_accounts {others : List Transaction} {tx next : Transaction}
    (hreq : next.req = tx.req) (haccounts : next.accounts = tx.accounts)
    (huncommitted : ∀ receipt, next.phase ≠ .ended (.ok (.committed receipt))) :
    Advances others tx next :=
  ⟨hreq, fun _ hid => .inl (haccounts ▸ hid), huncommitted⟩

theorem Advances.finish {others : List Transaction} (tx : Transaction)
    {result : Except StoreError CommitOutcome}
    (huncommitted : ∀ receipt, result ≠ .ok (.committed receipt)) :
    Advances others tx (tx.finish result) where
  req := rfl
  accounts := by simp [Transaction.finish]
  uncommitted receipt heq := huncommitted receipt (Phase.ended.inj heq)

theorem Advances.lock {others : List Transaction} {tx : Transaction} {id : AccountId}
    {phase : Phase} (hfree : ¬∃ other ∈ others, id ∈ other.accounts)
    (huncommitted : ∀ receipt, phase ≠ .ended (.ok (.committed receipt))) :
    Advances others tx { tx with accounts := id :: tx.accounts, phase } where
  req := rfl
  accounts held hheld := by
    rcases List.mem_cons.mp hheld with rfl | hheld
    · exact .inr fun other hother hmem => hfree ⟨other, hother, hmem⟩
    · exact .inl hheld
  uncommitted := huncommitted

theorem Advances.of_statement {order : IterationOrder} {others : List Transaction}
    {tx next : Transaction} (hnext : tx.statement order db others = some next) :
    Advances others tx next := by
  cases hphase : tx.phase with
  | lookup =>
      simp only [statement, hphase] at hnext
      split at hnext <;> cases hnext
      · exact .finish tx (by simp)
      · exact .of_accounts rfl rfl (by simp)
  | guard accounts =>
      cases accounts with
      | nil =>
          simp only [statement, hphase] at hnext
          cases hnext
          exact .of_accounts rfl rfl (by simp)
      | cons id rest =>
          simp only [statement, hphase] at hnext
          split at hnext
          next => cases hnext
          next hfree =>
            split at hnext
            next => cases hnext; exact .finish tx (by simp)
            split at hnext
            next => cases hnext; exact .finish tx (by simp)
            split at hnext <;> cases hnext
            · exact .finish tx (by simp)
            · exact .lock hfree (by simp)
  | select chunks =>
      cases chunks with
      | nil =>
          simp only [statement, hphase] at hnext
          split at hnext <;> cases hnext
          · exact .finish tx (by simp)
          · exact .of_accounts rfl rfl (by simp)
      | cons chunk chunks =>
          simp only [statement, hphase] at hnext
          cases hnext
          exact .of_accounts rfl rfl (by simp)
  | lockRows rows chunks =>
      cases rows with
      | nil =>
          simp only [statement, hphase] at hnext
          cases hnext
          exact .of_accounts rfl rfl (by simp)
      | cons row rest =>
          simp only [statement, hphase] at hnext
          split at hnext
          next => cases hnext
          split at hnext <;> cases hnext <;> exact .of_accounts rfl rfl (by simp)
  | delete chunks =>
      cases chunks with
      | nil =>
          simp only [statement, hphase] at hnext
          cases hnext
          exact .of_accounts rfl rfl (by simp)
      | cons chunk chunks =>
          simp only [statement, hphase] at hnext
          split at hnext <;> cases hnext
          exact .of_accounts rfl rfl (by simp)
  | insert postings =>
      cases postings with
      | nil =>
          simp only [statement, hphase] at hnext
          cases hnext
          exact .of_accounts rfl rfl (by simp)
      | cons posting rest =>
          simp only [statement, hphase] at hnext
          split at hnext
          next => cases hnext
          split at hnext <;> cases hnext <;> exact .of_accounts rfl rfl (by simp)
  | activate posting rest =>
      simp only [statement, hphase] at hnext
      split at hnext
      next => cases hnext
      split at hnext <;> cases hnext <;> exact .of_accounts rfl rfl (by simp)
  | owner keys =>
      cases keys with
      | nil =>
          simp only [statement, hphase] at hnext
          cases hnext
          exact .of_accounts rfl rfl (by simp)
      | cons key keys =>
          simp only [statement, hphase] at hnext
          split at hnext
          next => cases hnext
          next hfree =>
            split at hnext <;> cases hnext
            · exact .of_accounts rfl rfl (by simp)
            · refine .lock hfree fun receipt => ?_
              split <;> simp
  | floor key keys =>
      simp only [statement, hphase] at hnext
      split at hnext
      next => cases hnext; exact .finish tx (by simp)
      split at hnext <;> cases hnext
      · exact .finish tx (by simp)
      · exact .of_accounts rfl rfl (by simp)
  | record =>
      simp only [statement, hphase] at hnext
      split at hnext <;> cases hnext
      exact .of_accounts rfl rfl (by simp)
  | commit | ended => simp only [statement, hphase] at hnext; cases hnext

/-- No account is locked by both. -/
def Apart (first second : Transaction) : Prop := ∀ id ∈ first.accounts, id ∉ second.accounts

theorem Apart.symm {first second : Transaction} (hapart : Apart first second) :
    Apart second first := fun id hsecond hfirst => hapart id hfirst hsecond

/-- What a transaction keeps to by itself. -/
structure Sees (content : EnvelopeId → Envelope) (db : Database) (tx : Transaction) : Prop where
  covers : Covers content tx.req
  checked : tx.Checked db

end Transaction

/-! ## Runs -/

namespace Server

open Transaction

/-- The transactions keep out of each other's way, and what one of them has been told
to be committed is stored. -/
structure Isolated (content : EnvelopeId → Envelope) (db : Database)
    (transactions : List Transaction) : Prop where
  sound : Sound content db transactions
  sees : ∀ tx ∈ transactions, tx.Sees content db
  apart : transactions.Pairwise Apart
  answered : ∀ tx ∈ transactions, ∀ receipt, tx.phase = .ended (.ok (.committed receipt)) →
    tx.req.transferId ∈ db.transfers

section Step

variable {server : Server} {transactions others : List Transaction} {tx next : Transaction}

theorem isolated_empty : Isolated content empty.db empty.transactions :=
  ⟨sound_empty, fun _ htx => absurd htx List.not_mem_nil, .nil,
    fun _ htx => absurd htx List.not_mem_nil⟩

theorem Isolated.perm {permuted : List Transaction} (hisolated : Isolated content db transactions)
    (hperm : transactions.Perm permuted) : Isolated content db permuted where
  sound := hisolated.sound.perm hperm
  sees tx htx := hisolated.sees tx (hperm.mem_iff.mpr htx)
  apart := (hperm.pairwise_iff Apart.symm).mp hisolated.apart
  answered tx htx := hisolated.answered tx (hperm.mem_iff.mpr htx)

/-- A step of one transaction that leaves the database as it is. -/
theorem Isolated.replace (hisolated : Isolated content db (tx :: others))
    (hsound : Sound content db (next :: others)) (hchecked : next.Checked db)
    (hadvances : Advances others tx next) : Isolated content db (next :: others) := by
  obtain ⟨hsees, hothers⟩ := List.forall_mem_cons.mp hisolated.sees
  obtain ⟨hapart, hpairs⟩ := List.pairwise_cons.mp hisolated.apart
  obtain ⟨_, hanswered⟩ := List.forall_mem_cons.mp hisolated.answered
  constructor
  · exact hsound
  · exact List.forall_mem_cons.mpr ⟨⟨hadvances.req ▸ hsees.covers, hchecked⟩, hothers⟩
  · refine List.pairwise_cons.mpr ⟨fun other hother id hid => ?_, hpairs⟩
    rcases hadvances.accounts id hid with hid | hfree
    · exact hapart other hother id hid
    · exact hfree other hother
  · exact List.forall_mem_cons.mpr
      ⟨fun receipt heq => absurd heq (hadvances.uncommitted receipt), hanswered⟩

/-- A commit that stores its transfer is accepted by what is committed by then. -/
theorem Isolated.accepts (hisolated : Isolated content db (tx :: others))
    (hphase : tx.phase = .commit) (hstored : tx.stored = true) :
    db.Accepts tx.req ∧ tx.Locked ∧ tx.apply db = db.commit tx.req := by
  obtain ⟨history, hreplayed⟩ := hisolated.sound.replayed
  have hfits := hisolated.sound.keeps.fits
  have hchecked := (hisolated.sees tx List.mem_cons_self).checked
  have hguarded := hchecked.guarded
  have hfloors := hchecked.floors
  have hplaced := hfits.placed
  simp only [Transaction.Guarded, FloorsMet, Placed, hphase] at hguarded hfloors hplaced
  have hfresh : tx.req.transferId ∉ db.transfers := by
    rw [hstored] at hplaced
    exact of_decide_eq_true hplaced.1.symm
  have hlocked := hplaced.2.1
  rcases hfits.apply_cases hreplayed hphase with hsame | ⟨_, _, _, _, hstores⟩
  · refine absurd ?_ hfresh
    rw [← hsame]
    simp [apply, hstored]
  refine ⟨⟨hfresh, fun id hid => (hguarded id hid).2, ?_, ?_⟩, hlocked, hstores⟩
  · intro id hid
    obtain ⟨row, hrow, rfl⟩ := List.mem_map.mp (hlocked id hid)
    exact HashMap.mem_iff_exists_lookup.mpr ⟨row, hfits.rows row hrow⟩
  · intro key htouches account hlookup hforbids
    refine hfloors key ?_ hfresh account hlookup hforbids
    apply List.mem_dedup.mpr
    rcases htouches with ⟨posting, hposting, rfl⟩ | ⟨id, hid, posting, hposting, rfl⟩
    · exact List.mem_append_right _ (List.mem_map_of_mem hposting)
    · obtain ⟨row, hrow, rfl⟩ := List.mem_map.mp (hlocked id hid)
      rw [hfits.rows row hrow] at hposting
      cases hposting
      exact List.mem_append_left _ (List.mem_map_of_mem hrow)

/-- The others keep what they have found when one transaction is committed. -/
theorem Isolated.commit (hisolated : Isolated content db (tx :: others))
    (hphase : tx.phase = .commit) : Isolated content (tx.apply db)
      (tx.finish (.ok (.committed tx.req.record.receipt)) :: others) := by
  obtain ⟨history, hreplayed⟩ := hisolated.sound.replayed
  have hfits := hisolated.sound.keeps.fits
  have hafter := hisolated.sound.commit hphase (.ok (.committed tx.req.record.receipt))
  obtain ⟨hsees, hothers⟩ := List.forall_mem_cons.mp hisolated.sees
  obtain ⟨hapart, hpairs⟩ := List.pairwise_cons.mp hisolated.apart
  have htransfers : ∀ tid, tid ∈ (tx.apply db).transfers ↔
      tid ∈ db.transfers ∨ tid = tx.req.transferId := by
    intro tid
    have hplaced := hfits.placed
    simp only [Placed, hphase] at hplaced
    rw [apply, hplaced.1]
    by_cases hmem : tx.req.transferId ∈ db.transfers
    · simp only [hmem, not_true_eq_false, decide_false, Bool.false_eq_true, if_false]
      grind
    · simp only [hmem, not_false_eq_true, decide_true, if_true, AList.mem_insert]
      exact or_comm
  refine ⟨hafter, ?_, List.pairwise_cons.mpr ⟨?_, hpairs⟩, ?_⟩
  · refine List.forall_mem_cons.mpr ⟨⟨hsees.covers, .finish tx _⟩, fun other hother => ?_⟩
    obtain ⟨hcovers, hchecked⟩ := hothers other hother
    refine ⟨hcovers, ?_⟩
    rcases hfits.apply_cases hreplayed hphase with hsame | ⟨hfresh, _, _, hlocked, hstores⟩
    · rwa [hsame]
    · have hlater := hafter.fits other (List.mem_cons_of_mem _ hother)
      rw [hstores] at hlater ⊢
      refine hchecked.commit hcovers (hisolated.sound.fits other (List.mem_cons_of_mem _ hother))
        hreplayed hlater hfits hlocked hfresh fun key hkey => hapart other hother key.1 ?_
      have hguarded := hsees.checked.guarded
      simp only [Transaction.Guarded, hphase] at hguarded
      exact (hguarded _ (hsees.checked.involved_of_touched hsees.covers hfits hreplayed hkey)).1
  · simp [Apart, Transaction.finish]
  · refine List.forall_mem_cons.mpr ⟨fun _ _ => (htransfers _).mpr (.inr rfl), ?_⟩
    intro other hother receipt heq
    exact (htransfers _).mpr (.inl (hisolated.answered other (List.mem_cons_of_mem _ hother) receipt heq))

theorem Isolated.advance {order : IterationOrder} {after : Database}
    (hisolated : Isolated content db (tx :: others)) (htimely : tx.Timely db)
    (hadvance : advance order db others tx = some (after, next)) :
    Isolated content after (next :: others) := by
  have hsound := hisolated.sound.advance htimely hadvance
  unfold Server.advance at hadvance
  split at hadvance
  next hphase =>
    cases hadvance
    exact hisolated.commit hphase
  next =>
    obtain ⟨later, hlater, heq⟩ := Option.map_eq_some_iff.mp hadvance
    cases heq
    obtain ⟨history, hreplayed⟩ := hisolated.sound.replayed
    exact hisolated.replace hsound ((hisolated.sees tx List.mem_cons_self).checked.statement
      hreplayed hisolated.sound.keeps.fits.placed hlater) (.of_statement hlater)

theorem Isolated.start (hisolated : Isolated content db transactions) {req : CommitRequest}
    (hpromised : Promised content req) (hcovers : Covers content req)
    (hshort : req.create.length ≤ 65536) :
    Isolated content db (transactions ++ [.begin req]) where
  sound := hisolated.sound.start hpromised hshort
  sees := by
    intro tx htx
    rcases List.mem_append.mp htx with htx | htx
    · exact hisolated.sees tx htx
    · rw [List.mem_singleton.mp htx]
      exact ⟨hcovers, .begin req⟩
  apart := by
    refine List.pairwise_append.mpr ⟨hisolated.apart, List.pairwise_singleton _ _, ?_⟩
    simp [Apart, Transaction.begin]
  answered := by
    intro tx htx receipt heq
    rcases List.mem_append.mp htx with htx | htx
    · exact hisolated.answered tx htx receipt heq
    · rw [List.mem_singleton.mp htx] at heq
      cases heq

/-- An account that nobody has locked may be written. -/
theorem Isolated.putAccount {account : Account} (hisolated : Isolated content db transactions)
    (hfree : ¬∃ tx ∈ transactions, account.id ∈ tx.accounts) :
    Isolated content (db.putAccount account) transactions where
  sound := hisolated.sound.of_accounts _
  sees tx htx := by
    obtain ⟨history, hreplayed⟩ := hisolated.sound.replayed
    obtain ⟨hcovers, hchecked⟩ := hisolated.sees tx htx
    exact ⟨hcovers, hchecked.putAccount hcovers (hisolated.sound.fits tx htx) hreplayed
      fun hlocked => hfree ⟨tx, htx, hlocked⟩⟩
  apart := hisolated.apart
  answered := hisolated.answered

theorem Isolated.pick (hisolated : Isolated content db server.transactions) {index : Nat}
    (htx : server.transactions[index]? = some tx) :
    Isolated content db (tx :: server.transactions.eraseIdx index) := by
  obtain ⟨hindex, rfl⟩ := List.getElem?_eq_some_iff.mp htx
  exact hisolated.perm (List.getElem_cons_eraseIdx_perm hindex).symm

/-- One action keeps the transactions isolated. -/
theorem Isolated.act {action : Action} (hisolated : Isolated content server.db server.transactions)
    (hpromised : ∀ req, action = .start req → Promised content req ∧ Covers content req)
    (hadmits : server.Admits action) :
    Isolated content (server.act action).db (server.act action).transactions := by
  have hput : ∀ {index : Nat} {tx next : Transaction} {after : Database},
      server.transactions[index]? = some tx →
      Isolated content after (next :: server.transactions.eraseIdx index) →
      Isolated content after (server.transactions.set index next) := by
    intro index tx next after htx hafter
    obtain ⟨hindex, -⟩ := List.getElem?_eq_some_iff.mp htx
    exact hafter.perm (List.set_perm_cons_eraseIdx hindex next).symm
  cases action with
  | start req => exact hisolated.start (hpromised req rfl).1 (hpromised req rfl).2 hadmits
  | advance index order =>
      simp only [Server.act]
      split
      next => exact hisolated
      next tx htx =>
        split
        next => exact hisolated
        next after next hadvance =>
          exact hput htx ((hisolated.pick htx).advance (hadmits tx htx) hadvance)
  | abort index message =>
      simp only [Server.act]
      split
      next => exact hisolated
      next tx htx =>
        split
        next => exact hisolated
        next =>
          have hpicked := hisolated.pick htx
          exact hput htx (hpicked.replace (hpicked.sound.replace (hpicked.sound.keeps.finish _))
            (.finish tx _) (.finish tx (by simp)))
  | putAccount account =>
      simp only [Server.act]
      split
      next => exact hisolated
      next hfree => exact hisolated.putAccount hfree

/-- The transaction whose commit stores its transfer. -/
theorem effect_commit {action : Action} {req : CommitRequest}
    (heffect : server.effect action = some (.commit req)) :
    ∃ index order tx, action = .advance index order ∧ server.transactions[index]? = some tx ∧
      tx.phase = .commit ∧ tx.stored = true ∧ tx.req = req := by
  cases action with
  | start | abort => cases heffect
  | putAccount account =>
      simp only [effect] at heffect
      split at heffect <;> cases heffect
  | advance index order =>
      simp only [effect] at heffect
      split at heffect
      next => cases heffect
      next tx htx =>
        split at heffect
        next hphase =>
          split at heffect <;> cases heffect
          next hstored => exact ⟨index, order, tx, rfl, htx, hphase, hstored, rfl⟩
        next => cases heffect

/-- An action does to the database what its effect says, and nothing without one. -/
theorem Isolated.effect (hisolated : Isolated content server.db server.transactions)
    (action : Action) :
    (∃ effect, server.effect action = some effect ∧
      effect.Happens server.db (server.act action).db) ∨
    (server.effect action = none ∧ (server.act action).db = server.db) := by
  cases action with
  | start req => exact .inr ⟨rfl, rfl⟩
  | abort index message =>
      refine .inr ⟨rfl, ?_⟩
      simp only [Server.act]
      split
      next => rfl
      next => split <;> rfl
  | putAccount account =>
      simp only [Server.act, Server.effect]
      split
      next => exact .inr ⟨rfl, rfl⟩
      next => exact .inl ⟨_, rfl, .putAccount account server.db⟩
  | advance index order =>
      simp only [Server.act, Server.effect]
      cases htx : server.transactions[index]? with
      | none => exact .inr ⟨rfl, rfl⟩
      | some tx =>
          have hpicked := hisolated.pick htx
          cases hphase : tx.phase
          case commit =>
            simp only [Server.advance, hphase]
            by_cases hstored : tx.stored = true
            · obtain ⟨haccepts, _, happly⟩ := hpicked.accepts hphase hstored
              rw [if_pos hstored, happly]
              exact .inl ⟨_, rfl, .commit haccepts⟩
            · rw [if_neg hstored]
              obtain ⟨history, hreplayed⟩ := hpicked.sound.replayed
              obtain hsame | ⟨_, htrue, _⟩ := hpicked.sound.keeps.fits.apply_cases hreplayed hphase
              · exact .inr ⟨rfl, hsame⟩
              · exact absurd htrue hstored
          all_goals
            -- any other statement leaves what is committed as it is
            simp only [Server.advance, hphase]
            refine .inr ⟨trivial, ?_⟩
            cases tx.statement order server.db (server.transactions.eraseIdx index) <;> rfl

theorem serial_act {past : List Effect} {action : Action} (hserial : Serial past server.db)
    (hisolated : Isolated content server.db server.transactions) :
    Serial (past ++ (server.effect action).toList) (server.act action).db := by
  obtain ⟨effect, heffect, hhappens⟩ | ⟨heffect, hsame⟩ := hisolated.effect action
  · rw [heffect]
    exact hserial.extend hhappens
  · rw [heffect, hsame, Option.toList_none, List.append_nil]
    exact hserial

/-- The whole run, from any state whose transactions are isolated. -/
theorem Isolated.run {past : List Effect} {actions : List Action}
    (hisolated : Isolated content server.db server.transactions) (hserial : Serial past server.db)
    (hpromised : ∀ req, .start req ∈ actions → Promised content req ∧ Covers content req)
    (hadmits : server.AdmitsAll actions) :
    Isolated content (server.run actions).db (server.run actions).transactions ∧
      Serial (past ++ server.effects actions) (server.run actions).db := by
  induction actions generalizing server past with
  | nil => exact ⟨hisolated, by rwa [effects, List.append_nil]⟩
  | cons action actions ih =>
      have hnext := hisolated.act
        (fun req heq => hpromised req (heq ▸ List.mem_cons_self)) hadmits.1
      rw [effects, ← List.append_assoc]
      exact ih hnext (serial_act hserial hisolated)
        (fun req hreq => hpromised req (List.mem_cons_of_mem _ hreq)) hadmits.2

/-- A transaction that has ended has ended for good. -/
theorem act_ended {action : Action} {result : Except StoreError CommitOutcome}
    (htx : tx ∈ server.transactions) (hphase : tx.phase = .ended result) :
    tx ∈ (server.act action).transactions := by
  have hset : ∀ {index : Nat} {other next : Transaction}, server.transactions[index]? = some other →
      tx ≠ other → tx ∈ server.transactions.set index next := by
    intro index other next hother hne
    obtain ⟨hindex, rfl⟩ := List.getElem?_eq_some_iff.mp hother
    apply (List.set_perm_cons_eraseIdx hindex next).mem_iff.mpr
    have hmem := (List.getElem_cons_eraseIdx_perm hindex).mem_iff.mpr htx
    exact List.mem_cons_of_mem _ ((List.mem_cons.mp hmem).resolve_left hne)
  cases action with
  | start req => exact List.mem_append_left _ htx
  | advance index order =>
      simp only [Server.act]
      split
      next => exact htx
      next other hother =>
        split
        next => exact htx
        next after next hadvance =>
          refine hset hother ?_
          rintro rfl
          simp [Server.advance, statement, hphase] at hadvance
  | abort index message =>
      simp only [Server.act]
      split
      next => exact htx
      next other hother =>
        split
        next => exact htx
        next hopen =>
          refine hset hother ?_
          rintro rfl
          exact hopen result hphase
  | putAccount account =>
      simp only [Server.act]
      split <;> exact htx

theorem run_ended {actions : List Action} {result : Except StoreError CommitOutcome}
    (htx : tx ∈ server.transactions) (hphase : tx.phase = .ended result) :
    tx ∈ (server.run actions).transactions := by
  induction actions generalizing server with
  | nil => exact htx
  | cons action actions ih => exact ih (act_ended htx hphase)

/-- What has been committed has been answered. -/
theorem answered_of_effect {actions : List Action} {req : CommitRequest}
    (heffect : .commit req ∈ server.effects actions) :
    ∃ tx ∈ (server.run actions).transactions,
      tx.req = req ∧ tx.phase = .ended (.ok (.committed req.record.receipt)) := by
  induction actions generalizing server with
  | nil => cases heffect
  | cons action actions ih =>
      rcases List.mem_append.mp heffect with hnow | hlater
      · obtain ⟨index, order, tx, rfl, htx, hphase, _, rfl⟩ :=
          effect_commit (Option.mem_toList.mp hnow)
        obtain ⟨hindex, -⟩ := List.getElem?_eq_some_iff.mp htx
        have hended : tx.finish (.ok (.committed tx.req.record.receipt)) ∈
            (server.act (.advance index order)).transactions := by
          simp only [Server.act, htx, Server.advance, hphase]
          exact List.mem_set hindex _
        have hlater : _ ∈ ((server.act (.advance index order)).run actions).transactions :=
          run_ended hended rfl
        exact ⟨_, hlater, rfl, rfl⟩
      · exact ih hlater

end Step

/-- In every run the database is what the committed transfers leave when each happens
at once, at the commit of its transaction, and is accepted by what is committed by
then. These transfers are the ones that are answered as committed. -/
theorem run_serializable (content : EnvelopeId → Envelope) (actions : List Action)
    (hpromised : ∀ req, .start req ∈ actions → Promised content req ∧ Covers content req)
    (hadmits : empty.AdmitsAll actions) :
    Serial (empty.effects actions) (empty.run actions).db ∧
      (∀ tx ∈ (empty.run actions).transactions, ∀ receipt,
        tx.phase = .ended (.ok (.committed receipt)) →
        ∃ req, .commit req ∈ empty.effects actions ∧ req.transferId = tx.req.transferId) ∧
      ∀ req, .commit req ∈ empty.effects actions → ∃ tx ∈ (empty.run actions).transactions,
        tx.req = req ∧ tx.phase = .ended (.ok (.committed req.record.receipt)) := by
  have hrun := isolated_empty.run .start hpromised hadmits
  rw [List.nil_append] at hrun
  obtain ⟨hisolated, hserial⟩ := hrun
  refine ⟨hserial, fun tx htx receipt heq => ?_, fun req hreq => answered_of_effect hreq⟩
  exact (hserial.stored_iff _).mp (hisolated.answered tx htx receipt heq)

end Server

end Theory

namespace Resubmitted

open Sample

theorem covers {req : CommitRequest} (hreq : req = deposit ∨ req = payment) :
    Covers content req := by
  rcases hreq with rfl | rfl
  · exact ⟨by decide +kernel, by decide +kernel⟩
  · exact ⟨by decide +kernel, by decide +kernel⟩

end Resubmitted

open Sample Resubmitted in
/-- Two submissions of a deposit and a payment come to two commits. -/
theorem run_serializable_spentLast :
    Serial (Server.empty.effects spentLast) (Server.empty.run spentLast).db ∧
      (Server.empty.effects spentLast).length = 5 :=
  ⟨(Server.run_serializable content spentLast
      (fun _ hreq => ⟨promised (started_spentLast hreq), covers (started_spentLast hreq)⟩)
      (by decide +kernel)).1, by decide +kernel⟩

end Kuatia.ReadCommitted
