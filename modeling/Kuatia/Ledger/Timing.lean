import Kuatia.Ledger.AuditTrail
import Kuatia.Ledger.CachedBalance

/-! # Windows in time

The watermark of a cache point lags behind the clock by the grace period. When
transfers become visible within that period, none is stored before a watermark
any more once it has been computed, and what the transfers before it have
changed is settled.
-/

namespace Kuatia

open Async Interleaving LedgerM

/-! ## Saturating instants -/

theorem toInt_saturated (n : Int) :
    (Int64.ofInt (max Int64.minValue.toInt (min Int64.maxValue.toInt n))).toInt =
      max Int64.minValue.toInt (min Int64.maxValue.toInt n) := by
  refine Int64.toInt_ofInt_of_le ?_ ?_
  · rw [Int64.toInt_minValue]
    omega
  · rw [Int64.toInt_minValue, Int64.toInt_maxValue]
    omega

theorem toInt_saturatingAdd (a b : Int64) : (saturatingAdd a b).toInt =
    max Int64.minValue.toInt (min Int64.maxValue.toInt (a.toInt + b.toInt)) :=
  toInt_saturated _

theorem toInt_saturatingSub (a b : Int64) : (saturatingSub a b).toInt =
    max Int64.minValue.toInt (min Int64.maxValue.toInt (a.toInt - b.toInt)) :=
  toInt_saturated _

theorem saturatingAdd_le {a b : Int64} (hle : a ≤ b) (c : Int64) :
    saturatingAdd a c ≤ saturatingAdd b c := by
  rw [Int64.le_iff_toInt_le] at hle ⊢
  rw [toInt_saturatingAdd, toInt_saturatingAdd]
  omega

/-- What becomes visible within the grace period after it was made lies behind every
watermark that was computed before. -/
theorem not_lt_watermark {now reading grace createdAt : Int64} (hepoch : 0 ≤ now)
    (hlater : now ≤ reading) (hprompt : reading.toInt < createdAt.toInt + grace.toInt) :
    ¬createdAt < saturatingAdd (saturatingSub now grace) 1 := by
  rw [Int64.le_iff_toInt_le] at hepoch hlater
  rw [Int64.lt_iff_toInt_lt, toInt_saturatingAdd, toInt_saturatingSub]
  have hzero : (0 : Int64).toInt = 0 := rfl
  have hone : (1 : Int64).toInt = 1 := rfl
  have hgrace := Int64.toInt_lt grace
  have hcreated := Int64.toInt_lt createdAt
  rw [Int64.toInt_minValue, Int64.toInt_maxValue]
  omega

variable [MoneyWidth]

/-! ## Changes within a window -/

namespace InMemoryStore

variable (store : InMemoryStore)

/-- What the transfers of a window have changed. -/
def changeWithin (key : BalanceKey) (fromTs toTs : Option Int64) : Int :=
  changeByAll store (store.windowOf key.1 fromTs toTs) key

/-- A window is cut in two at an instant within it. -/
theorem changeWithin_split (key : BalanceKey) (middle : Int64) {toTs : Option Int64}
    (hwithin : ∀ stop, toTs = some stop → middle ≤ stop) :
    store.changeWithin key none toTs =
      store.changeWithin key none (some middle) + store.changeWithin key (some middle) toTs := by
  let window := store.windowOf key.1 none toTs
  let early (record : EnvelopeRecord) : Bool := record.createdAt < middle
  have hearly : window.filter early = store.windowOf key.1 none (some middle) := by
    dsimp only [window]
    rw [windowOf, windowOf, filterTransfers, filterTransfers, List.filter_filter]
    refine List.filter_congr fun record _ => ?_
    cases toTs with
    | none => simp [tailQuery, early]
    | some stop =>
        have hstop : record.createdAt < middle → record.createdAt < stop :=
          fun hbefore => Int64.lt_of_lt_of_le hbefore (hwithin stop rfl)
        simpa [tailQuery, early] using hstop
  have hlate : window.filter (fun record => !early record) =
      store.windowOf key.1 (some middle) toTs := by
    dsimp only [window]
    rw [windowOf, windowOf, filterTransfers, filterTransfers, List.filter_filter]
    refine List.filter_congr fun record _ => ?_
    simp [tailQuery, early, ← decide_not]
  rw [changeWithin, changeWithin, changeWithin, ← hearly, ← hlate, ← changeByAll_append]
  exact changeByAll_perm (List.filter_append_perm early window).symm key

theorem changeWithin_all (key : BalanceKey) : store.changeWithin key none none =
    changeByAll store (store.transfersOf key.1) key := by
  have hall : store.windowOf key.1 none none = store.transfersOf key.1 := by
    refine List.filter_eq_self.mpr fun record _ => ?_
    simp [tailQuery]
  rw [changeWithin, hall]

theorem changeWithin_congr {store other : InMemoryStore}
    (hpostings : other.postings = store.postings) (htransfers : other.transfers = store.transfers)
    (hfiled : other.transferAccounts = store.transferAccounts) (key : BalanceKey)
    (fromTs toTs : Option Int64) :
    other.changeWithin key fromTs toTs = store.changeWithin key fromTs toTs := by
  have hof : other.transfersOf = store.transfersOf := by
    funext account
    rw [transfersOf, transfersOf, htransfers, hfiled]
  have hchange : changeBy other = changeBy store := by
    funext record key
    rw [changeBy, changeBy, hpostings]
  rw [changeWithin, changeWithin, windowOf, windowOf, changeByAll, changeByAll, hof, hchange]

end InMemoryStore

section Step

variable [Sha256] {store : InMemoryStore} {clock : Clock} {req : CommitRequest}

omit [Sha256] in
/-- A fresh transfer outside a window changes nothing within it. -/
theorem changeWithin_applyCommit (hcatalogued : Catalogued store) (hconsistent : Consistent store)
    (hfresh : req.transferId ∉ store.transfers) (key : BalanceKey) (fromTs : Option Int64)
    {stop : Int64} (hlate : ¬req.record.createdAt < stop) :
    (store.applyCommit clock req).changeWithin key fromTs (some stop) =
      store.changeWithin key fromTs (some stop) := by
  have hwindow : (store.applyCommit clock req).windowOf key.1 fromTs (some stop) =
      store.windowOf key.1 fromTs (some stop) := by
    rw [InMemoryStore.windowOf, InMemoryStore.windowOf,
      transfersOf_applyCommit hcatalogued hfresh, filterTransfers, filterTransfers,
      List.filter_append]
    split
    next => simp [tailQuery, hlate]
    next => rfl
  rw [InMemoryStore.changeWithin, InMemoryStore.changeWithin, hwindow, changeByAll, changeByAll]
  refine congrArg List.sum (List.map_congr_left fun record hrecord => ?_)
  obtain ⟨tid, hstored, _⟩ :=
    InMemoryStore.mem_transfersOf.mp (List.mem_of_mem_filter hrecord)
  rw [changeBy, changeBy, recorded_applyCommit hconsistent hstored]

end Step

/-! ## Runs in time -/

/-- The readings of the clock, one for each action. -/
def clocksOf (actions : List LedgerAction) : List Clock :=
  actions.filterMap fun action => match action with
    | .start _ => none
    | .advance _ choice => some choice.clock

/-- The clock does not go back: once it shows a time it shows no earlier one. -/
def Clock.UpTo (earlier later : Clock) : Prop :=
  ∀ now, earlier = some now → ∃ next, later = some next ∧ now ≤ next

/-- The clock goes forward, and counts from its epoch. -/
structure Steady (actions : List LedgerAction) : Prop where
  forward : (clocksOf actions).Pairwise Clock.UpTo
  epoch : ∀ now, some now ∈ clocksOf actions → 0 ≤ now

variable [Sha256] {ledger : Ledger} {index : Nat}

/-- Every transfer becomes visible within the grace period after it was created. -/
def Prompt (ledger : Ledger) (actions : List LedgerAction) : Prop :=
  ∀ past index choice, past ++ [.advance index choice] <+: actions → ∀ tid record,
    tid ∉ (storeAfter ledger past).transfers →
    (storeAfter ledger (past ++ [.advance index choice])).transfers.lookup tid = some record →
    ∀ now, choice.clock = some now →
      now.toInt < record.createdAt.toInt + ledger.projectionGraceMs.toInt

/-- The clock and the commits of a run keep time. -/
structure Timed (ledger : Ledger) (actions : List LedgerAction) : Prop where
  steady : Steady actions
  prompt : Prompt ledger actions

omit [Sha256] in
theorem clocksOf_append (first second : List LedgerAction) :
    clocksOf (first ++ second) = clocksOf first ++ clocksOf second := List.filterMap_append

theorem Timed.of_prefix {past later : List LedgerAction} (htimed : Timed ledger later)
    (hpast : past <+: later) : Timed ledger past := by
  refine ⟨⟨?_, fun now hnow => ?_⟩, fun earlier index choice hearlier => ?_⟩
  · obtain ⟨more, rfl⟩ := hpast
    have hforward := htimed.steady.forward
    rw [clocksOf_append, List.pairwise_append] at hforward
    exact hforward.1
  · obtain ⟨more, rfl⟩ := hpast
    refine htimed.steady.epoch now ?_
    rw [clocksOf_append]
    exact List.mem_append_left _ hnow
  · exact htimed.prompt earlier index choice (hearlier.trans hpast)

/-- The watermark was computed from a reading of the clock. -/
def Stamped (ledger : Ledger) (actions : List LedgerAction) (watermark : Int64) : Prop :=
  ∃ now, some now ∈ clocksOf actions ∧ watermark = saturatingSub now ledger.projectionGraceMs

omit [Sha256] in
theorem Stamped.later {past later : List LedgerAction} {watermark : Int64}
    (hstamped : Stamped ledger past watermark) (hlater : past <+: later) :
    Stamped ledger later watermark := by
  obtain ⟨now, hnow, hwatermark⟩ := hstamped
  obtain ⟨more, rfl⟩ := hlater
  rw [Stamped, clocksOf_append]
  exact ⟨now, List.mem_append_left _ hnow, hwatermark⟩

/-- No action adds a transfer before a watermark that has been computed. -/
theorem changeWithin_step {past : List LedgerAction} {action : LedgerAction} {watermark : Int64}
    (htimed : Timed ledger (past ++ [action])) (hstamped : Stamped ledger past watermark)
    (key : BalanceKey) (fromTs : Option Int64) :
    (storeAfter ledger (past ++ [action])).changeWithin key fromTs
        (some (saturatingAdd watermark 1)) =
      (storeAfter ledger past).changeWithin key fromTs (some (saturatingAdd watermark 1)) := by
  obtain ⟨hpostings, htransfers, hfiled⟩ | ⟨_, clock, req, _, _, _, hfresh, _, hafter⟩ :=
    (storeStep_after ledger past action).postings_cases
  · exact InMemoryStore.changeWithin_congr hpostings htransfers hfiled key fromTs _
  · have haccounted := accounted_after ledger past
    rw [hafter]
    refine changeWithin_applyCommit haccounted.catalogued haccounted.consistent hfresh key fromTs ?_
    have hlookup : (storeAfter ledger (past ++ [action])).transfers.lookup req.transferId =
        some req.record := by
      rw [hafter, lookup_transfers_applyCommit, if_pos rfl]
    cases action with
    | start request =>
        rw [storeAfter, after_append_singleton] at hlookup
        exact absurd (HashMap.mem_iff_exists_lookup.mpr ⟨_, hlookup⟩) hfresh
    | advance index choice =>
        obtain ⟨now, hnow, rfl⟩ := hstamped
        have hforward := htimed.steady.forward
        rw [clocksOf_append, List.pairwise_append] at hforward
        have hreading : choice.clock ∈ clocksOf [.advance index choice] := List.mem_singleton_self _
        obtain ⟨reading, hclock, hlater⟩ := hforward.2.2 _ hnow _ hreading now rfl
        have hepoch : 0 ≤ now := by
          refine htimed.steady.epoch now ?_
          rw [clocksOf_append]
          exact List.mem_append_left _ hnow
        exact not_lt_watermark hepoch hlater
          (htimed.prompt past index choice (List.prefix_refl _) _ _ hfresh hlookup reading hclock)

theorem changeWithin_later {past later : List LedgerAction} {watermark : Int64}
    (hlater : past <+: later) (htimed : Timed ledger later)
    (hstamped : Stamped ledger past watermark) (key : BalanceKey) (fromTs : Option Int64) :
    (storeAfter ledger later).changeWithin key fromTs (some (saturatingAdd watermark 1)) =
      (storeAfter ledger past).changeWithin key fromTs (some (saturatingAdd watermark 1)) := by
  obtain ⟨more, rfl⟩ := hlater
  induction more using List.reverseRecOn with
  | nil => rw [List.append_nil]
  | append_singleton more action ih =>
      rw [← List.append_assoc] at htimed ⊢
      rw [changeWithin_step htimed (hstamped.later (List.prefix_append _ _))]
      exact ih (htimed.of_prefix (List.prefix_append _ _))

/-- A run in which the clock stands still keeps time. -/
theorem timed_of_still {actions : List LedgerAction} {time : Int64} (hepoch : 0 ≤ time)
    (hgrace : 0 < ledger.projectionGraceMs.toInt)
    (hclocks : ∀ clock ∈ clocksOf actions, clock = some time)
    (hcreated : ∀ tid record, (storeAfter ledger actions).transfers.lookup tid = some record →
      record.createdAt = time) : Timed ledger actions := by
  refine ⟨⟨?_, fun now hnow => ?_⟩, ?_⟩
  · refine List.pairwise_of_forall_mem_list fun earlier hearlier later hlater now hnow => ?_
    rw [hclocks earlier hearlier] at hnow
    cases hnow
    exact ⟨time, hclocks later hlater, Int64.le_refl time⟩
  · cases hclocks _ hnow
    exact hepoch
  · intro past index choice hpast tid record _ hstored now hclock
    obtain ⟨more, rfl⟩ := hpast
    have hkept := (evolves_after ledger _ more).lookup_transfers hstored
    have hreading : choice.clock ∈ clocksOf (past ++ [.advance index choice] ++ more) := by
      rw [clocksOf_append, clocksOf_append]
      exact List.mem_append_left _ (List.mem_append_right _ (List.mem_singleton_self _))
    cases hclock.symm.trans (hclocks _ hreading)
    rw [hcreated tid record hkept]
    omega

end Kuatia
