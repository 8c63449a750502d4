import Kuatia.SqlStore.Serializing

/-! # What concurrent commits keep

As every commit is accepted by what is committed by then, the promises of the
in-memory store carry over: transfers that balance leave every asset at zero, and no
account that forbids it is overdrawn.
-/

namespace Kuatia.ReadCommitted

section Theory

variable [MoneyWidth] {content : EnvelopeId → Envelope} {db : Database}
  {history : List (Utxo.Tx EnvelopeId Posting)}

/-- The posting that its transfer creates under the id. -/
def recordOf (content : EnvelopeId → Envelope) (id : PostingId) : Option Posting :=
  (createdPostings id.transfer (content id.transfer).creates).find? (·.id = id)

/-- The request creates as much of every asset as it consumes. -/
def Conserves (content : EnvelopeId → Envelope) (req : CommitRequest) : Prop :=
  ∀ asset, keyTotal Posting.asset Posting.value req.create asset =
    keyTotal Posting.asset Posting.value (req.consume.filterMap (recordOf content)) asset

/-- A live posting is the one that its transfer creates. -/
theorem Replayed.recordOf_eq (hreplayed : Replayed content db history) {id : PostingId}
    {posting : Posting} (hlive : db.live.lookup id = some posting) :
    recordOf content id = some posting := by
  obtain ⟨hid, hcreated⟩ := hreplayed.created_of_live hlive
  obtain ⟨tx, htx, hlabel⟩ := (hreplayed.stored id.transfer).mp
    (hreplayed.stored_of_live (HashMap.mem_iff_exists_lookup.mpr ⟨posting, hlive⟩))
  have hnodup : ((createdPostings id.transfer (content id.transfer).creates).map (·.id)).Nodup :=
    nodup_map_id_createdPostings (hlabel ▸ hreplayed.short tx htx)
  have hfound : (recordOf content id).isSome := by
    rw [recordOf, List.find?_isSome]
    exact ⟨posting, hcreated, decide_eq_true hid⟩
  obtain ⟨other, hother⟩ := Option.isSome_iff_exists.mp hfound
  have hsame : other.id = posting.id := by
    rw [hid]
    exact of_decide_eq_true (List.find?_some (p := fun posting : Posting => decide (posting.id = id)) hother)
  rw [hother, List.inj_on_of_nodup_map hnodup (List.mem_of_find?_eq_some hother) hcreated hsame]

/-- What every state keeps to. -/
structure Kept (forbids : AccountId → Bool) (db : Database) : Prop where
  conserved : ∀ asset, db.liveTotal asset = 0
  owned : ∀ id posting, db.live.lookup id = some posting → posting.owner ∈ db.accounts
  steady : ∀ id account, db.accounts.lookup id = some account →
    account.forbidsOverdraft = forbids id
  floor : ∀ key account, db.accounts.lookup key.1 = some account →
    account.forbidsOverdraft = true → 0 ≤ db.liveBalance key

variable {forbids : AccountId → Bool}

theorem kept_empty : Kept forbids .empty where
  conserved _ := rfl
  owned _ _ hlookup := by cases hlookup
  steady _ _ hlookup := by cases hlookup
  floor _ _ hlookup := by cases hlookup

/-- A new account owns nothing, and a new version has the floor of the one before. -/
theorem Kept.putAccount {account : Account} (hkept : Kept forbids db)
    (hsame : account.forbidsOverdraft = forbids account.id) :
    Kept forbids (db.putAccount account) where
  conserved := hkept.conserved
  owned id posting hlookup := (AList.mem_insert _).mpr (.inr (hkept.owned id posting hlookup))
  steady id other hlookup := by
    rw [Database.putAccount, HashMap.lookup_insert_eq] at hlookup
    split at hlookup
    next heq =>
      cases hlookup
      rwa [heq]
    next => exact hkept.steady id other hlookup
  floor key other hlookup hforbids := by
    rw [Database.putAccount, HashMap.lookup_insert_eq] at hlookup
    split at hlookup
    next heq =>
      cases hlookup
      by_cases hknown : key.1 ∈ db.accounts
      · obtain ⟨old, hold⟩ := HashMap.mem_iff_exists_lookup.mp hknown
        refine hkept.floor key old hold ?_
        rw [hkept.steady key.1 old hold, heq, ← hsame, hforbids]
      · -- nobody could be paid under an id that is not known
        refine (keyTotal_eq_zero fun posting hposting hkey => hknown ?_).ge
        obtain ⟨id, hlive⟩ := HashMap.mem_values_iff.mp hposting
        rw [← hkey]
        exact hkept.owned id posting hlive
    next => exact hkept.floor key other hlookup hforbids

namespace Server

open Transaction

/-- A commit that is accepted keeps to everything. -/
theorem Isolated.kept {tx : Transaction} {others : List Transaction}
    (hisolated : Isolated content db (tx :: others)) (hphase : tx.phase = .commit)
    (hstored : tx.stored = true) (hconserves : Conserves content tx.req)
    (hkept : Kept forbids db) : Kept forbids (db.commit tx.req) := by
  obtain ⟨history, hreplayed⟩ := hisolated.sound.replayed
  obtain ⟨haccepts, hlocked, _⟩ := hisolated.accepts hphase hstored
  have hfits := hisolated.sound.keeps.fits
  have hcovers := (hisolated.sees tx List.mem_cons_self).covers
  constructor
  · intro asset
    have hrecords : tx.req.consume.filterMap db.live.lookup =
        tx.req.consume.filterMap (recordOf content) := by
      refine List.filterMap_congr fun id hid => ?_
      obtain ⟨posting, hlookup⟩ := HashMap.mem_iff_exists_lookup.mp (haccepts.live id hid)
      rw [hlookup, hreplayed.recordOf_eq hlookup]
    have htotal := hfits.keyTotal_stores hreplayed hlocked haccepts.fresh Posting.asset asset
    rw [hrecords, ← hconserves asset] at htotal
    have hbefore := hkept.conserved asset
    rw [Database.liveTotal] at hbefore ⊢
    rw [hbefore, zero_add, sub_self] at htotal
    exact htotal
  · intro id posting hlookup
    rcases HashMap.lookup_insertAll_cases hlookup with ⟨hcreated, _⟩ | ⟨hold, _⟩
    · obtain ⟨account, haccount, _⟩ :=
        haccepts.opened posting.owner (hcovers.created posting hcreated)
      exact HashMap.mem_iff_exists_lookup.mpr ⟨account, haccount⟩
    · rw [HashMap.lookup_eraseAll] at hold
      split at hold
      next => cases hold
      next => exact hkept.owned id posting hold
  · exact hkept.steady
  · intro key account hlookup hforbids
    by_cases htouches : db.Touches tx.req key
    · exact haccepts.floor key htouches account hlookup hforbids
    · have huntouched : key ∉ tx.touched := by
        intro hkey
        apply htouches
        rcases List.mem_append.mp (List.mem_dedup.mp hkey) with hkey | hkey
        · obtain ⟨row, hrow, rfl⟩ := List.mem_map.mp hkey
          exact .inr ⟨row.id, (hisolated.sees tx List.mem_cons_self).checked.rows row hrow, row,
            hfits.rows row hrow, rfl⟩
        · obtain ⟨posting, hposting, rfl⟩ := List.mem_map.mp hkey
          exact .inl ⟨posting, hposting, rfl⟩
      have hsame : (db.commit tx.req).liveBalance key = db.liveBalance key :=
        hfits.liveBalance_stores_of_untouched hreplayed hlocked haccepts.fresh huntouched
      rw [hsame]
      exact hkept.floor key account hlookup hforbids

theorem effect_putAccount {server : Server} {action : Action} {account : Account}
    (heffect : server.effect action = some (.putAccount account)) :
    action = .putAccount account := by
  cases action with
  | start | abort => cases heffect
  | advance index order =>
      simp only [effect] at heffect
      split at heffect
      next => cases heffect
      next =>
        split at heffect
        next => split at heffect <;> cases heffect
        next => cases heffect
  | putAccount other =>
      simp only [effect] at heffect
      split at heffect <;> cases heffect
      rfl

theorem Isolated.kept_act {server : Server} {action : Action}
    (hisolated : Isolated content server.db server.transactions)
    (hconserves : ∀ tx ∈ server.transactions, Conserves content tx.req)
    (hputs : ∀ account, action = .putAccount account →
      account.forbidsOverdraft = forbids account.id)
    (hkept : Kept forbids server.db) : Kept forbids (server.act action).db := by
  obtain ⟨effect, heffect, hhappens⟩ | ⟨_, hsame⟩ := hisolated.effect action
  · generalize hafter : (server.act action).db = after at hhappens ⊢
    cases hhappens with
    | putAccount account =>
        exact hkept.putAccount (hputs account (effect_putAccount heffect))
    | commit haccepts =>
        obtain ⟨index, order, tx, rfl, htx, hphase, hstored, rfl⟩ := effect_commit heffect
        exact (hisolated.pick htx).kept hphase hstored
          (hconserves tx (List.mem_of_getElem? htx)) hkept
  · rwa [hsame]

/-- Every transaction carries out the request that it was started with. -/
theorem forall_req_act {server : Server} {action : Action} {p : CommitRequest → Prop}
    (hstart : ∀ req, action = .start req → p req)
    (hall : ∀ tx ∈ server.transactions, p tx.req) :
    ∀ tx ∈ (server.act action).transactions, p tx.req := by
  have hset : ∀ {index : Nat} {old next : Transaction}, server.transactions[index]? = some old →
      next.req = old.req → ∀ tx ∈ server.transactions.set index next, p tx.req := by
    intro index old next hold hreq tx htx
    rcases List.mem_or_eq_of_mem_set htx with htx | rfl
    · exact hall tx htx
    · exact hreq ▸ hall old (List.mem_of_getElem? hold)
  cases action with
  | start req =>
      intro tx htx
      rcases List.mem_append.mp htx with htx | htx
      · exact hall tx htx
      · rw [List.mem_singleton.mp htx]
        exact hstart req rfl
  | advance index order =>
      simp only [Server.act]
      split
      next => exact hall
      next old hold =>
        split
        next => exact hall
        next after next hadvance =>
          refine hset hold ?_
          unfold Server.advance at hadvance
          split at hadvance
          next => cases hadvance; rfl
          next =>
            obtain ⟨later, hlater, heq⟩ := Option.map_eq_some_iff.mp hadvance
            cases heq
            exact (Advances.of_statement hlater).req
  | abort index message =>
      simp only [Server.act]
      split
      next => exact hall
      next old hold =>
        split
        next => exact hall
        next => exact hset hold rfl
  | putAccount account =>
      simp only [Server.act]
      split <;> exact hall

theorem Isolated.kept_run {server : Server} {actions : List Action}
    (hisolated : Isolated content server.db server.transactions)
    (hkept : Kept forbids server.db)
    (hopen : ∀ tx ∈ server.transactions, Conserves content tx.req)
    (hpromised : ∀ req, .start req ∈ actions → Promised content req ∧ Covers content req)
    (hconserves : ∀ req, .start req ∈ actions → Conserves content req)
    (hputs : ∀ account, .putAccount account ∈ actions →
      account.forbidsOverdraft = forbids account.id)
    (hadmits : server.AdmitsAll actions) : Kept forbids (server.run actions).db := by
  induction actions generalizing server with
  | nil => exact hkept
  | cons action actions ih =>
      rw [run_cons]
      have hnext := hisolated.act
        (fun req heq => hpromised req (heq ▸ List.mem_cons_self)) hadmits.1
      refine ih hnext ?_ ?_ (fun req hreq => hpromised req (List.mem_cons_of_mem _ hreq))
        (fun req hreq => hconserves req (List.mem_cons_of_mem _ hreq))
        (fun account haccount => hputs account (List.mem_cons_of_mem _ haccount)) hadmits.2
      · exact hisolated.kept_act hopen
          (fun account heq => hputs account (heq ▸ List.mem_cons_self)) hkept
      · exact forall_req_act (fun req heq => hconserves req (heq ▸ List.mem_cons_self)) hopen

/-- In every run, the assets sum to zero and no account that forbids it is overdrawn,
as long as the versions of an account agree on whether they forbid it. -/
theorem run_keeps_books (content : EnvelopeId → Envelope) (forbids : AccountId → Bool)
    (actions : List Action)
    (hpromised : ∀ req, .start req ∈ actions → Promised content req ∧ Covers content req)
    (hconserves : ∀ req, .start req ∈ actions → Conserves content req)
    (hputs : ∀ account, .putAccount account ∈ actions →
      account.forbidsOverdraft = forbids account.id)
    (hadmits : empty.AdmitsAll actions) :
    (∀ asset, (empty.run actions).db.liveTotal asset = 0) ∧
      ∀ key account, (empty.run actions).db.accounts.lookup key.1 = some account →
        account.forbidsOverdraft = true → 0 ≤ (empty.run actions).db.liveBalance key := by
  have hkept := isolated_empty.kept_run kept_empty (fun _ htx => absurd htx List.not_mem_nil)
    hpromised hconserves hputs hadmits
  exact ⟨hkept.conserved, hkept.floor⟩

end Server

end Theory

namespace Resubmitted

open Sample

theorem conserves {req : CommitRequest} (hreq : req = deposit ∨ req = payment) :
    Conserves content req := by
  intro asset
  by_cases hasset : asset = usd
  · rw [hasset]
    rcases hreq with rfl | rfl <;> decide +kernel
  · -- only dollars are moved
    have hcreate : ∀ posting ∈ req.create, posting.asset = usd := by
      rcases hreq with rfl | rfl <;> decide +kernel
    have hconsume : ∀ posting ∈ req.consume.filterMap (recordOf content), posting.asset = usd := by
      rcases hreq with rfl | rfl <;> decide +kernel
    rw [keyTotal_eq_zero, keyTotal_eq_zero]
    · exact fun posting hposting heq => hasset (heq ▸ hconsume posting hposting)
    · exact fun posting hposting heq => hasset (heq ▸ hcreate posting hposting)

theorem steady_spentLast {account : Account} (haccount : .putAccount account ∈ spentLast) :
    account.forbidsOverdraft = decide (account.id = alice) := by
  have hwritten : account = .new external ∨ account = .debitMustNotExceedCredit alice ∨
      account = .new bob := by
    simpa [spentLast, accounts, statements] using haccount
  rcases hwritten with rfl | rfl | rfl <;> decide +kernel

end Resubmitted

open Sample Resubmitted in
/-- Alice, who may not be overdrawn, has spent what she was paid. -/
theorem run_keeps_books_spentLast :
    (Server.empty.run spentLast).db.liveTotal usd = 0 ∧
      0 ≤ (Server.empty.run spentLast).db.liveBalance (alice, usd) := by
  have hbooks := Server.run_keeps_books content (fun id => decide (id = alice)) spentLast
    (fun _ hreq => ⟨promised (started_spentLast hreq), covers (started_spentLast hreq)⟩)
    (fun _ hreq => conserves (started_spentLast hreq)) (fun _ => steady_spentLast)
    (by decide +kernel)
  exact ⟨hbooks.1 usd, hbooks.2 (alice, usd) (.debitMustNotExceedCredit alice)
    (by decide +kernel) (by decide +kernel)⟩

end Kuatia.ReadCommitted
