import Kuatia.Ledger.CachePoints
import Kuatia.Ledger.Crowded
import Kuatia.Ledger.Turnover

/-! # A window that is cut off

A query without a limit returns at most `u32::MAX` transfers. After one more
payment than that the tail of bob's cache point does not fit into a page, and
the balance that is read leaves one payment out.
-/

namespace Kuatia.Sample

open Async Interleaving LedgerM

/-! ## One payment of many -/

/-- The bits of a number as bytes, which tell the payments apart. -/
def numberBytes (number : Nat) : List UInt8 :=
  (List.range 32).map fun bit => if number.testBit bit then 1 else 0

theorem length_numberBytes (number : Nat) : (numberBytes number).length = 32 := by
  simp [numberBytes]

theorem eq_of_numberBytes {first second : Nat} (hfirst : first < 2 ^ 32) (hsecond : second < 2 ^ 32)
    (hbytes : numberBytes first = numberBytes second) : first = second := by
  refine Nat.eq_of_testBit_eq fun bit => ?_
  by_cases hbit : bit < 32
  · have hsame := (List.map_inj_left.mp hbytes) bit (List.mem_range.mpr hbit)
    cases hone : first.testBit bit <;> cases htwo : second.testBit bit <;> simp_all
  · have hlarge : 2 ^ 32 ≤ 2 ^ bit := Nat.pow_le_pow_right (by omega) (by omega)
    rw [Nat.testBit_lt_two_pow (hfirst.trans_le hlarge),
      Nat.testBit_lt_two_pow (hsecond.trans_le hlarge)]

/-- Bob is paid one usd. -/
def paid : List NewPosting := [⟨external, usd, .ofI64 (-1), none⟩, ⟨bob, usd, .ofI64 1, none⟩]

def remittance (number : Nat) : Envelope where
  consumes := []
  creates := paid
  accountSnapshots := [accountSnapshotId (.new external), accountSnapshotId (.new bob)]
  book := DEFAULT_BOOK
  metadata := .single "number" (numberBytes number)

theorem eq_of_envelopeId_remittance {first second : Nat} (hfirst : first < 2 ^ 32)
    (hsecond : second < 2 ^ 32)
    (hid : envelopeId (remittance first) = envelopeId (remittance second)) : first = second := by
  have hbytes := congrArg (fun id : EnvelopeId => id.bytes.toList) hid
  rw [envelopeId_of_metadata (show (remittance first).metadata = _ from rfl) (length_numberBytes _),
    envelopeId_of_metadata (show (remittance second).metadata = _ from rfl) (length_numberBytes _)]
    at hbytes
  exact eq_of_numberBytes hfirst hsecond hbytes

theorem magnitude_paid : Cent.magnitude (paid.map NewPosting.value) = 2 := by decide

theorem keyTotal_paid : keyTotal NewPosting.key NewPosting.value paid (bob, usd) = 1 := by decide

theorem paid_balanced (asset : AssetId) :
    keyTotal NewPosting.asset NewPosting.value paid asset = 0 := by
  rw [keyTotal_of_key (show ∀ posting ∈ paid, posting.asset = usd by decide)]
  split <;> decide

/-! ## Paid many times -/

/-- The time of all payments. -/
def time : Int64 := 1800000000000

/-- A cache point is appended for bob before he is paid anything. -/
@[irreducible] def pointed : List LedgerAction :=
  sequentially [.createAccount (.new external), .createAccount (.new bob),
    .appendCachePoint bob usd]

/-- Bob has been paid so many times since his cache point of 0, all at one time. -/
structure PaidTimes (n : Nat) (actions : List LedgerAction) : Prop where
  accounts : (storeAfter ledger actions).latest external = some (.new external) ∧
    (storeAfter ledger actions).latest bob = some (.new bob)
  books : (storeAfter ledger actions).books = ∅
  points : ∃ id, (storeAfter ledger actions).pointsOf (bob, usd) =
    [⟨id, bob, usd, .ZERO, 1799999940000⟩]
  transfers : ∀ tid record, (storeAfter ledger actions).transfers.lookup tid = some record →
    ∃ number < n, tid = envelopeId (remittance number) ∧ record.envelope = remittance number ∧
      record.createdAt = time
  count : ((storeAfter ledger actions).transfersOf bob).length = n
  magnitude : (storeAfter ledger actions).liveMagnitude ≤ 2 * n
  clocks : ∀ clock ∈ clocksOf actions, clock = some time
  returned : ∀ call ∈ (LedgerPool.after ledger actions).calls, call.rest.isDone

theorem paidTimes_pointed : PaidTimes 0 pointed := by
  have hentries : (storeAfter ledger pointed).transfers.entries = [] ∧
      (storeAfter ledger pointed).transferAccounts.entries = [] ∧
      (storeAfter ledger pointed).books.entries = [] := by decide +kernel
  have hpoints : ((storeAfter ledger pointed).pointsOf (bob, usd)).map
      (fun point => (point.account, point.asset, point.balance, point.watermark)) =
        [(bob, usd, .ZERO, 1799999940000)] := by decide +kernel
  constructor
  case accounts => decide +kernel
  case books => exact AList.ext hentries.2.2
  case points =>
    obtain ⟨point, hpoint, hfields⟩ := List.map_eq_singleton_iff.mp hpoints
    refine ⟨point.id, hpoint.trans ?_⟩
    injection hfields with haccount hfields
    injection hfields with hasset hfields
    injection hfields with hbalance hwatermark
    rw [← haccount, ← hasset, ← hbalance, ← hwatermark]
  case transfers =>
    intro tid record hlookup
    have hmem := AList.mem_lookup_iff.mp hlookup
    rw [hentries.1] at hmem
    cases hmem
  case count => rw [InMemoryStore.transfersOf, hentries.2.1]; rfl
  case magnitude => decide +kernel
  case clocks =>
    have hclocks : (clocksOf pointed).all (· == some time) := by decide +kernel
    exact fun clock hclock => eq_of_beq (List.all_eq_true.mp hclocks clock hclock)
  case returned => decide +kernel

section Paying

variable {n : Nat} {actions : List LedgerAction}

theorem PaidTimes.acceptable (hpaid : PaidTimes n actions) (hn : n < 2 ^ 32) :
    Acceptable (storeAfter ledger actions) (remittance n) [] := by
  refine acceptable_between hpaid.accounts hpaid.books (List.cons_ne_nil _ _) (by decide)
    paid_balanced ?_
  have hmagnitude := hpaid.magnitude
  have hmax : (2 ^ 34 : Int) ≤ Backing.max MoneyWidth.backing := by decide
  rw [magnitude_paid]
  omega

theorem PaidTimes.unstored (hpaid : PaidTimes n actions) (hn : n < 2 ^ 32) :
    envelopeId (remittance n) ∉ (storeAfter ledger actions).transfers := by
  intro hstored
  obtain ⟨record, hlookup⟩ := HashMap.mem_iff_exists_lookup.mp hstored
  obtain ⟨number, hnumber, hid, _⟩ := hpaid.transfers _ record hlookup
  have hsame := eq_of_envelopeId_remittance hn (hnumber.trans hn) hid
  omega

/-- The clock stands still during a call. -/
theorem still_call (request : Request) (index steps : Nat) :
    ∀ clock ∈ clocksOf (.start request :: .replicate steps (.advance index noon)),
      clock = some time := by
  intro clock hclock
  obtain ⟨action, haction, hreading⟩ := List.mem_filterMap.mp hclock
  rcases List.mem_cons.mp haction with rfl | haction
  · cases hreading
  · rw [List.eq_of_mem_replicate haction] at hreading
    cases hreading
    rfl

/-- One more payment. -/
theorem PaidTimes.pay (hpaid : PaidTimes n actions) (hn : n < 2 ^ 32) :
    ∃ more, PaidTimes (n + 1) (actions ++ more) := by
  have haccounted := accounted_after ledger actions
  have hunstored := hpaid.unstored hn
  obtain ⟨loaded, _, hrun⟩ := (hpaid.acceptable hn).admissible.runWith_commit
    haccounted.wellFormed haccounted.consistent hunstored .listed time
    (LedgerPool.after ledger actions).shared.clock
  let req := commitRequest (remittance n) (planOf (remittance n)) loaded time
  have hfresh : req.transferId ∉ (storeAfter ledger actions).transfers := hunstored
  have hreturns : Async.runWith noon (ledger.program (.commitEnvelope (remittance n)))
      (LedgerPool.after ledger actions).shared = (.ok (.receipt ⟨envelopeId (remittance n)⟩),
        ⟨(storeAfter ledger actions).applyCommit (some time) req, some time⟩) :=
    (runWith_except_bind hrun).trans rfl
  obtain ⟨steps, hafter⟩ := exists_call_with ledger actions (.commitEnvelope (remittance n)) noon
  rw [hreturns] at hafter
  let more : List LedgerAction := .start (.commitEnvelope (remittance n)) ::
    .replicate steps (.advance (LedgerPool.after ledger actions).calls.length noon)
  have hstore : storeAfter ledger (actions ++ more) =
      (storeAfter ledger actions).applyCommit (some time) req :=
    congrArg (fun pool => pool.shared.store) hafter
  refine ⟨more, ?_⟩
  constructor
  case accounts =>
    rw [hstore, InMemoryStore.latest, InMemoryStore.latest,
      InMemoryStore.versions_congr (InMemoryStore.applyCommit_accounts ..),
      InMemoryStore.versions_congr (InMemoryStore.applyCommit_accounts ..)]
    exact hpaid.accounts
  case books => rw [hstore, InMemoryStore.applyCommit_books, hpaid.books]
  case points =>
    rw [hstore, InMemoryStore.pointsOf, InMemoryStore.applyCommit_projections]
    exact hpaid.points
  case transfers =>
    intro tid record hlookup
    rw [hstore, lookup_transfers_applyCommit] at hlookup
    split at hlookup
    next heq =>
      cases hlookup
      exact ⟨n, Nat.lt_succ_self n, heq, rfl, rfl⟩
    next =>
      obtain ⟨number, hnumber, hrest⟩ := hpaid.transfers tid record hlookup
      exact ⟨number, Nat.lt_succ_of_lt hnumber, hrest⟩
  case count =>
    have hinvolved : bob ∈ req.involved := by
      have howners : (planOf (remittance n)).postingsToCreate.map (·.owner) = paid.map (·.owner) :=
        map_createdPostings _ _ fun owner _ _ => owner
      refine List.mem_sortDedup.mpr (List.mem_append_left _ ?_)
      rw [howners]
      decide
    rw [hstore, transfersOf_applyCommit haccounted.catalogued hfresh, if_pos hinvolved,
      List.length_append, List.length_singleton, hpaid.count, Nat.add_comm]
  case magnitude =>
    have hvalues : req.create.map Posting.value = paid.map NewPosting.value :=
      map_createdPostings _ _ fun _ _ value => value
    have hgrown := (storeAfter ledger actions).liveMagnitude_applyCommit_le (some time) req
    have hmagnitude := hpaid.magnitude
    rw [hvalues, magnitude_paid] at hgrown
    rw [hstore]
    push_cast
    omega
  case clocks =>
    intro clock hclock
    rw [clocksOf_append] at hclock
    exact (List.mem_append.mp hclock).elim (hpaid.clocks clock) (still_call _ _ _ clock)
  case returned =>
    intro call hcall
    rw [hafter] at hcall
    rcases List.mem_append.mp hcall with hold | hnew
    · exact hpaid.returned call hold
    · rw [List.mem_singleton.mp hnew]
      rfl

/-- Bob is paid as often as there are numbers. -/
theorem exists_paidTimes (hn : n ≤ 2 ^ 32) : ∃ actions, PaidTimes n actions := by
  induction n with
  | zero => exact ⟨_, paidTimes_pointed⟩
  | succ n ih =>
      obtain ⟨actions, hpaid⟩ := ih (Nat.le_of_succ_le hn)
      obtain ⟨more, hmore⟩ := hpaid.pay hn
      exact ⟨_, hmore⟩

end Paying

/-! ## The page is too small -/

section Reading

variable {n : Nat} {actions : List LedgerAction} {records : List EnvelopeRecord}

/-- What many payments credit. -/
theorem creditTotal_paid (hrecords : ∀ record ∈ records, record.envelope.creates = paid) :
    InMemoryStore.creditTotal records (bob, usd) = records.length := by
  induction records with
  | nil => rfl
  | cons head tail ih =>
      have ih := ih fun record hrecord => hrecords record (List.mem_cons_of_mem _ hrecord)
      rw [InMemoryStore.creditTotal] at ih ⊢
      rw [List.flatMap_cons, keyTotal_append, ih, hrecords head List.mem_cons_self, keyTotal_paid,
        List.length_cons]
      push_cast
      omega

theorem magnitude_creates_paid (hrecords : ∀ record ∈ records, record.envelope.creates = paid) :
    Cent.magnitude ((records.flatMap (·.envelope.creates)).map NewPosting.value) =
      2 * records.length := by
  induction records with
  | nil => rfl
  | cons head tail ih =>
      have ih := ih fun record hrecord => hrecords record (List.mem_cons_of_mem _ hrecord)
      rw [List.flatMap_cons, List.map_append, Cent.magnitude_append, ih,
        hrecords head List.mem_cons_self, magnitude_paid, List.length_cons]
      push_cast
      omega

theorem PaidTimes.creates (hpaid : PaidTimes n actions) {tid : EnvelopeId}
    {record : EnvelopeRecord}
    (hstored : (storeAfter ledger actions).transfers.lookup tid = some record) :
    record.envelope.creates = paid ∧ record.envelope.consumes = [] ∧ record.createdAt = time := by
  obtain ⟨number, _, _, henvelope, htime⟩ := hpaid.transfers tid record hstored
  rw [henvelope]
  exact ⟨rfl, rfl, htime⟩

/-- The balance that the live postings make up. -/
theorem PaidTimes.liveBalance (hpaid : PaidTimes n actions) :
    (storeAfter ledger actions).liveBalance (bob, usd) = n := by
  have hindexed : IndexedFor (storeAfter ledger actions) bob := by
    intro tid record hstored _
    rw [(hpaid.creates hstored).1]
    decide
  rw [(accounted_after ledger actions).adds bob hindexed usd]
  have hone : ∀ record ∈ (storeAfter ledger actions).transfersOf bob,
      changeBy (storeAfter ledger actions) record (bob, usd) = 1 := by
    intro record hrecord
    obtain ⟨tid, hstored, _⟩ := InMemoryStore.mem_transfersOf.mp hrecord
    obtain ⟨hcreates, hconsumes, _⟩ := hpaid.creates hstored
    rw [changeBy, hcreates, hconsumes, keyTotal_paid]
    rfl
  rw [List.map_congr_left hone, List.map_const', List.sum_replicate, hpaid.count]
  simp

/-- Of all the payments since the cache point a page holds all but one. -/
theorem PaidTimes.length_listedTail (hpaid : PaidTimes (2 ^ 32) actions) {point : BalanceProjection}
    (hpoint : point.watermark = 1799999940000) :
    ((storeAfter ledger actions).listedTail .listed bob point).length = 2 ^ 32 - 1 := by
  have htail : (storeAfter ledger actions).tailOf bob point =
      (storeAfter ledger actions).transfersOf bob := by
    refine List.filter_eq_self.mpr fun record hrecord => decide_eq_true ?_
    obtain ⟨tid, hstored, _⟩ := InMemoryStore.mem_transfersOf.mp hrecord
    rw [(hpaid.creates hstored).2.2, hpoint]
    decide
  rw [InMemoryStore.listedTail, length_queryTransfers_window, InMemoryStore.windowOf_tail, htail,
    hpaid.count]
  rfl

/-- One payment is left out. -/
theorem PaidTimes.exists_cachedBalance (hpaid : PaidTimes (2 ^ 32) actions)
    {point : BalanceProjection} (hpoint : point.watermark = 1799999940000)
    (hzero : point.balance = .ZERO) : ∃ value,
      (storeAfter ledger actions).cachedBalance (bob, usd) point
        ((storeAfter ledger actions).listedTail .listed bob point) = .ok value ∧
      value.val = 2 ^ 32 - 1 := by
  let records := (storeAfter ledger actions).listedTail .listed bob point
  have hlength : records.length = 2 ^ 32 - 1 := hpaid.length_listedTail hpoint
  have hrecords : ∀ record ∈ records,
      record.envelope.creates = paid ∧ record.envelope.consumes = [] := by
    intro record hrecord
    obtain ⟨tid, hstored⟩ := exists_of_mem_listedTail hrecord
    exact ⟨(hpaid.creates hstored).1, (hpaid.creates hstored).2.1⟩
  have htotal := creditTotal_paid fun record hrecord => (hrecords record hrecord).1
  have hspent : (storeAfter ledger actions).consumedBy records = [] := by
    have hnone : records.flatMap (·.envelope.consumes) = [] :=
      List.flatMap_eq_nil_iff.mpr fun record hrecord => (hrecords record hrecord).2
    rw [InMemoryStore.consumedBy, hnone]
    rfl
  have hmagnitude := magnitude_creates_paid fun record hrecord => (hrecords record hrecord).1
  have hmax : (2 ^ 34 : Int) ≤ Backing.max MoneyWidth.backing := by decide
  rw [hlength] at htotal hmagnitude
  have hfits : (storeAfter ledger actions).TurnoverFits (bob, usd) point records := by
    have hwhole : Cent.Holds (InMemoryStore.creditTotal records (bob, usd)) := by
      have hcount : ((2 ^ 32 - 1 : Nat) : Int) = 4294967295 := rfl
      rw [htotal, hcount]
      refine Cent.holds_of_abs_le ?_
      rw [abs_of_nonneg (by omega)]
      omega
    refine ⟨fun m => Cent.holds_of_abs_le ((abs_keyTotal_take_le m _).trans ?_), fun m => ?_, ?_⟩
    · rw [hmagnitude]
      omega
    · rw [hspent, List.take_nil, keyTotal_nil, sub_zero]
      exact hwhole
    · rw [hspent, keyTotal_nil, sub_zero, hzero, Cent.val_ZERO, zero_add]
      exact hwhole
  obtain ⟨value, hvalue⟩ := exists_cachedBalance_iff.mpr hfits
  refine ⟨value, hvalue, ?_⟩
  obtain ⟨delta, hdelta, hsum⟩ := Except.bind_eq_ok_iff.mp hvalue
  rw [Cent.checkedAdd_eq_ok_iff, val_of_foldedDelta hdelta, hspent, keyTotal_nil, htotal, hzero,
    Cent.val_ZERO] at hsum
  omega

/-- Bob reads a balance that lacks one of the payments, although the clock goes forward,
every transfer is visible at once and no call is under way. -/
theorem balance_cut_off : ∃ before more index value,
    Timed ledger (before ++ more) ∧
    (∀ call ∈ (LedgerPool.after ledger (before ++ more)).calls, call.rest.isDone) ∧
    (LedgerPool.after ledger before).calls.length ≤ index ∧
    (LedgerPool.after ledger (before ++ more)).calls[index]? =
      some ⟨.balance bob usd, .done (.ok (.cent value))⟩ ∧
    Quiet (storeAfter ledger before) (storeAfter ledger (before ++ more)) ∧
    (∀ tid record, (storeAfter ledger (before ++ more)).transfers.lookup tid = some record →
      record.envelope.creates.length ≤ 65536) ∧
    value.val ≠ (storeAfter ledger (before ++ more)).liveBalance (bob, usd) := by
  obtain ⟨before, hpaid⟩ := exists_paidTimes (Nat.le_refl (2 ^ 32))
  obtain ⟨id, hpoints⟩ := hpaid.points
  let point : BalanceProjection := ⟨id, bob, usd, .ZERO, 1799999940000⟩
  obtain ⟨value, hvalue, hexact⟩ :=
    hpaid.exists_cachedBalance (show point.watermark = 1799999940000 from rfl) rfl
  have hclosest : (storeAfter ledger before).getClosestBalanceProjection bob usd time =
      some point := by
    rw [InMemoryStore.pointsOf] at hpoints
    rw [InMemoryStore.getClosestBalanceProjection, hpoints]
    rfl
  let balance := Ledger.balance bob usd
  let shared := (LedgerPool.after ledger before).shared
  let later := (Async.runWith noon balance.run shared).2
  have hread : (Async.runWith noon balance.run shared).1 = .ok value :=
    balance_runWith (consistent_after ledger before) hclosest hvalue shared.clock
  have hsame : later.store = storeAfter ledger before :=
    (balance_readOnly bob usd).store_eq (runs_runWith noon balance.run shared)
  have hreturns : Async.runWith noon (ledger.program (.balance bob usd)) shared =
      (.ok (.cent value), later) :=
    (runWith_except_bind (Prod.ext hread rfl)).trans rfl
  obtain ⟨steps, hafter⟩ := exists_call_with ledger before (.balance bob usd) noon
  rw [hreturns] at hafter
  let more : List LedgerAction := .start (.balance bob usd) ::
    .replicate steps (.advance (LedgerPool.after ledger before).calls.length noon)
  have hstore : storeAfter ledger (before ++ more) = storeAfter ledger before :=
    (congrArg (fun pool => pool.shared.store) hafter).trans hsame
  have hcalls : (LedgerPool.after ledger (before ++ more)).calls =
      (LedgerPool.after ledger before).calls ++ [⟨.balance bob usd, .done (.ok (.cent value))⟩] :=
    congrArg Pool.calls hafter
  refine ⟨before, more, _, value, ?_, ?_, Nat.le_refl _, ?_, ?_, ?_, ?_⟩
  · have hepoch : 0 ≤ time := by decide
    refine timed_of_still hepoch (by decide) (fun clock hclock => ?_)
      fun tid record hstored => ?_
    · rw [clocksOf_append] at hclock
      exact (List.mem_append.mp hclock).elim (hpaid.clocks clock) (still_call _ _ _ clock)
    · exact (hpaid.creates (hstore ▸ hstored)).2.2
  · intro call hcall
    rw [hcalls] at hcall
    rcases List.mem_append.mp hcall with hold | hnew
    · exact hpaid.returned call hold
    · rw [List.mem_singleton.mp hnew]
      rfl
  · rw [hcalls]
    exact List.getElem?_concat_length
  · rw [hstore]
    exact fun _ htid => htid
  · intro tid record hstored
    rw [(hpaid.creates (hstore ▸ hstored)).1]
    decide
  · rw [hstore, hpaid.liveBalance, hexact]
    decide

end Reading

end Kuatia.Sample
