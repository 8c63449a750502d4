import Kuatia.Ledger.Instants
import Kuatia.Ledger.Projecting
import Kuatia.Ledger.Sample
import Kuatia.Ledger.Timing

/-! # Cache points at every instant

Each cache point adds up the transfers before its watermark, for good and in
whatever order the points are appended: as long as no query for a window is cut
off. A balance that is read while nothing is stored is then the sum of the live
postings.
-/

namespace Kuatia

open Async Interleaving LedgerM

section Theory

variable [MoneyWidth] [Sha256] {ledger : Ledger} {index : Nat}

/-! ## Reads that are not cut off -/

/-- The query for a window that the call is about to make returns all of it. -/
def Uncut {α : Type} (rest : Async Choice World α) (_ : Choice) (world : World) : Prop :=
  ∀ account fromTs toTs next, rest = (read fun order store =>
      store.queryTransfers order (tailQuery account fromTs toTs)).run >>= next →
    (world.store.windowOf account fromTs toTs).length < 2 ^ 32

omit [Sha256] in
/-- What a program is about to do first it does first in any program that goes on from it. -/
theorem Uncut.first {α β : Type} {first : Async Choice World α} {next : α → Async Choice World β}
    {choice : Choice} {world : World} (huncut : Uncut (first >>= next) choice world) :
    Uncut first choice world := by
  intro account fromTs toTs rest heq
  refine huncut account fromTs toTs (fun page => rest page >>= next) ?_
  rw [heq, bind_assoc]

/-- The reads of a call are not cut off at the instants of a run. -/
abbrev UncutAt (ledger : Ledger) {α : Type} :
    Async Choice World (Except LedgerError α) → Choice → List LedgerAction → Prop :=
  AtInstant ledger.program LedgerPool.initial Uncut

section Following

variable {α β : Type} {guarantee : List LedgerAction → List LedgerAction → Prop}
  {past : List LedgerAction}

theorem follows_bind_uncut {post : β → List LedgerAction → Prop} {program : LedgerM α}
    {next : α → LedgerM β}
    (hprogram : Follows ledger index (UncutAt ledger) guarantee
      (fun value later => Follows ledger index (UncutAt ledger) guarantee post (next value) later)
      program past) :
    Follows ledger index (UncutAt ledger) guarantee post (program >>= next) past :=
  follows_bind (Traces.mono hprogram (fun _ _ _ huncut => Uncut.first huncut) (fun _ _ h => h)
    fun _ _ h => h)

variable {account : AccountId} {asset : AssetId}

theorem spendsOnce_after (ledger : Ledger) (actions : List LedgerAction) :
    SpendsOnce (storeAfter ledger actions) :=
  reachable_induction ledger spendsOnce_new (fun _ _ _ hstep => hstep.spendsOnce) actions

/-- A fold over a window that is not cut off adds up what its transfers had changed
at one instant. -/
theorem foldTail_follows (hidle : Idles ledger guarantee) (fromTs toTs : Option Int64) :
    Follows ledger index (UncutAt ledger) guarantee
      (fun delta later => ∃ seen, past <+: seen ∧ seen <+: later ∧
        delta.value.val = (storeAfter ledger seen).changeWithin (account, asset) fromTs toTs)
      (foldTail account asset fromTs toTs) past := by
  refine follows_bind_uncut (follows_act fun others choice huncut hmoved => ⟨hidle _ _ hmoved, ?_⟩)
  let seen := past ++ others
  let later := seen ++ [.advance index choice]
  have hsame : storeAfter ledger later = storeAfter ledger seen := hmoved
  have hconsistent := (accounted_after ledger seen).consistent
  have hperm : ((storeAfter ledger seen).queryTransfers choice.order
      (tailQuery account fromTs toTs)).items.Perm
        ((storeAfter ledger seen).windowOf account fromTs toTs) :=
    queryTransfers_window_perm (huncut account fromTs toTs .done rfl) choice.order
  have hsublist : ((storeAfter ledger seen).windowOf account fromTs toTs).Sublist
      ((storeAfter ledger seen).transfersOf account) := List.filter_sublist
  have hnodup := nodup_consumes_of_perm hconsistent (spendsOnce_after ledger seen) hperm hsublist
  have hstored : ∀ record ∈ ((storeAfter ledger seen).queryTransfers choice.order
      (tailQuery account fromTs toTs)).items,
        ∃ tid, (storeAfter ledger later).transfers.lookup tid = some record := by
    rw [hsame]
    exact exists_of_mem_perm hperm hsublist
  have henv : Environment Interferes fun before after : World => after.store = before.store :=
    ⟨fun world => Evolves.refl world.store, fun _ _ _ => Evolves.trans, fun _ _ => rfl⟩
  rw [← hsame] at hconsistent
  have hkeeps : Keeps anyAction Interferes (fun before after => after.store = before.store)
      (fun delta _ => delta.value.val = changeByAll (storeAfter ledger later)
        ((storeAfter ledger seen).queryTransfers choice.order
          (tailQuery account fromTs toTs)).items (account, asset))
      (foldAccountDelta account asset _) (LedgerPool.after ledger later).shared :=
    foldAccountDelta_keeps henv hconsistent hstored hnodup
  refine (Keeps.follows hkeeps hidle).since.weaken fun delta last hlast => ?_
  obtain ⟨hvalue, hlater⟩ := hlast
  refine ⟨seen, List.prefix_append _ _, (List.prefix_append _ _).trans hlater, ?_⟩
  rw [hvalue, InMemoryStore.changeWithin, ← changeByAll_perm hperm]
  exact congrArg (fun store => changeByAll store _ _) hsame

end Following

/-! ## Points that add up -/

/-- A cache point adds up the transfers before its watermark, which was computed
from the clock. -/
structure AddsUp (ledger : Ledger) (actions : List LedgerAction) (key : BalanceKey)
    (point : BalanceProjection) : Prop where
  stamped : Stamped ledger actions point.watermark
  covers : point.balance.val = (storeAfter ledger actions).changeWithin key none
    (some (saturatingAdd point.watermark 1))

/-- All cache points add up. -/
def PointsAddUp (ledger : Ledger) (actions : List LedgerAction) : Prop :=
  ∀ key, ∀ point ∈ (storeAfter ledger actions).pointsOf key, AddsUp ledger actions key point

/-- A point that adds up does so from then on. -/
theorem AddsUp.later {past later : List LedgerAction} {key : BalanceKey}
    {point : BalanceProjection} (hadds : AddsUp ledger past key point) (hlater : past <+: later)
    (htimed : Timed ledger later) : AddsUp ledger later key point where
  stamped := hadds.stamped.later hlater
  covers := by rw [changeWithin_later hlater htimed hadds.stamped, hadds.covers]

/-- While all points add up, an action adds none that does not. -/
def KeepsAddingUp (ledger : Ledger) (before after : List LedgerAction) : Prop :=
  PointsAddUp ledger before → Timed ledger before → ∀ key,
    ∀ point ∈ (storeAfter ledger after).pointsOf key, AddsUp ledger before key point

theorem keepsAddingUp_of_projections {before after : List LedgerAction}
    (hsame : (storeAfter ledger after).projections = (storeAfter ledger before).projections) :
    KeepsAddingUp ledger before after := by
  intro hpoints _ key point hpoint
  rw [InMemoryStore.pointsOf, hsame] at hpoint
  exact hpoints key point hpoint

theorem idles_keepsAddingUp : Idles ledger (KeepsAddingUp ledger) :=
  fun _ _ hsame => keepsAddingUp_of_projections (congrArg InMemoryStore.projections hsame)

/-- Cache points stay. -/
theorem pointsOf_later {past later : List LedgerAction} (hlater : past <+: later)
    {key : BalanceKey} {point : BalanceProjection}
    (hpoint : point ∈ (storeAfter ledger past).pointsOf key) :
    point ∈ (storeAfter ledger later).pointsOf key := by
  obtain ⟨more, rfl⟩ := hlater
  refine (evolves_after ledger past more).keep (fun store => point ∈ store.pointsOf key) ?_ hpoint
  intro before after hstep hmem
  obtain hsame | ⟨_, _, _, _, _, rfl⟩ := hstep.projections_cases
  · rwa [InMemoryStore.pointsOf, hsame]
  · rw [InMemoryStore.pointsOf_appendBalanceProjection]
    exact List.mem_append_left _ hmem

section Appending

variable {guarantee : List LedgerAction → List LedgerAction → Prop} {account : AccountId}
  {asset : AssetId} {past : List LedgerAction}

/-- What the append of a cache point starts from: nothing, or an earlier point. -/
def Base (store : InMemoryStore) (key : BalanceKey) (watermark : Int64) (snapshot : Cent) :
    Option Int64 → Prop
  | none => snapshot = .ZERO
  | some start => ∃ point ∈ store.pointsOf key, point.watermark < watermark ∧
      snapshot = point.balance ∧ start = saturatingAdd point.watermark 1

theorem Base.changeWithin {later : List LedgerAction} {key : BalanceKey} {watermark : Int64}
    {snapshot : Cent} {fromTs : Option Int64}
    (hbase : Base (storeAfter ledger past) key watermark snapshot fromTs) (hlater : past <+: later)
    (hpoints : PointsAddUp ledger later) :
    snapshot.val +
        (storeAfter ledger later).changeWithin key fromTs (some (saturatingAdd watermark 1)) =
      (storeAfter ledger later).changeWithin key none (some (saturatingAdd watermark 1)) := by
  cases fromTs with
  | none =>
      have hzero : snapshot = .ZERO := hbase
      rw [hzero, Cent.val_ZERO, zero_add]
  | some start =>
      obtain ⟨point, hpoint, hearlier, rfl, rfl⟩ := hbase
      rw [(hpoints key point (pointsOf_later hlater hpoint)).covers]
      refine ((storeAfter ledger later).changeWithin_split key _ fun stop hstop => ?_).symm
      cases hstop
      exact saturatingAdd_le (Int64.le_of_lt hearlier) 1

theorem appendFrom_follows {minNew : UInt64} {snapshot : Cent} {fromTs : Option Int64}
    {watermark : Int64} (hstamped : Stamped ledger past watermark)
    (hbase : Base (storeAfter ledger past) (account, asset) watermark snapshot fromTs) :
    Follows ledger index (UncutAt ledger) (KeepsAddingUp ledger) (fun _ _ => True)
      (appendCachePointWith.appendFrom minNew account asset snapshot fromTs watermark) past := by
  refine follows_bind_uncut ((foldTail_follows idles_keepsAddingUp _ _).weaken ?_)
  intro delta first hdelta
  obtain ⟨seen, hseen, hfirst, hdelta⟩ := hdelta
  split
  next => exact follows_pure trivial
  next =>
    refine follows_bind_uncut (follows_attempt fun balance hbalance => ?_)
    rw [Except.mapError_eq_ok_iff, Cent.checkedAdd_eq_ok_iff, hdelta] at hbalance
    refine follows_act fun others choice _ hmoved => ⟨?_, trivial⟩
    intro hpoints htimed key point hpoint
    rw [hmoved, InMemoryStore.pointsOf_appendBalanceProjection] at hpoint
    rcases List.mem_append.mp hpoint with hold | hnew
    · exact hpoints key point hold
    split at hnew
    next hkey =>
      subst hkey
      rw [List.mem_singleton.mp hnew]
      have hwithin : seen <+: first ++ others := hfirst.trans (List.prefix_append _ _)
      refine ⟨hstamped.later (hseen.trans hwithin), ?_⟩
      rw [← changeWithin_later hwithin htimed (hstamped.later hseen)] at hbalance
      exact hbalance.trans (hbase.changeWithin (hseen.trans hwithin) hpoints)
    next => cases hnew

/-- The clock is read at one instant. -/
theorem nowMillis_follows (hidle : Idles ledger guarantee) :
    Follows ledger index (UncutAt ledger) guarantee
      (fun now later => past <+: later ∧ some now ∈ clocksOf later) nowMillis past := by
  refine follows_bind_uncut (follows_act fun others choice _ hmoved => ⟨hidle _ _ hmoved, ?_⟩)
  cases hclock : choice.clock with
  | none => exact follows_throw
  | some now =>
      refine follows_pure ⟨(List.prefix_append _ _).trans (List.prefix_append _ _), ?_⟩
      rw [clocksOf_append, ← hclock]
      exact List.mem_append_right _ (List.mem_singleton_self _)

/-- The closest point is one of the points from then on. -/
theorem closest_follows (hidle : Idles ledger guarantee) (asOf : Int64) :
    Follows ledger index (UncutAt ledger) guarantee
      (fun closest later => past <+: later ∧ ∀ point, closest = some point →
        point ∈ (storeAfter ledger later).pointsOf (account, asset))
      (read fun _ store => store.getClosestBalanceProjection account asset asOf) past := by
  refine follows_act fun others choice _ hmoved => ⟨hidle _ _ hmoved, ?_, fun point hclosest => ?_⟩
  · exact (List.prefix_append _ _).trans (List.prefix_append _ _)
  · rw [hmoved]
    exact (mem_pointsOf_of_closest hclosest).1

theorem appendCachePointWith_follows (minNew : UInt64) (debounceMs : Int64) :
    Follows ledger index (UncutAt ledger) (KeepsAddingUp ledger) (fun _ _ => True)
      (appendCachePointWith ledger.projectionGraceMs minNew debounceMs account asset) past := by
  refine follows_bind_uncut ((nowMillis_follows idles_keepsAddingUp).weaken ?_)
  intro now first hnow
  have hstamped : Stamped ledger first (saturatingSub now ledger.projectionGraceMs) :=
    ⟨now, hnow.2, rfl⟩
  refine follows_bind_uncut ((closest_follows idles_keepsAddingUp _).weaken ?_)
  intro closest second hclosest
  have hstamped := hstamped.later hclosest.1
  cases closest with
  | none => exact appendFrom_follows hstamped rfl
  | some point =>
      dsimp only
      split
      next => exact follows_pure trivial
      next =>
        split
        next => exact follows_pure trivial
        next hcovered =>
          exact appendFrom_follows hstamped
            ⟨point, hclosest.2 point rfl, Int64.not_le.mp hcovered, rfl, rfl⟩

end Appending

/-! ## Every point of every run -/

theorem operation_keepsAddingUp (request : Request) (past : List LedgerAction) :
    Traces ledger.program LedgerPool.initial index (UncutAt ledger) (KeepsAddingUp ledger) (fun _ _ => True)
      (ledger.program request) past := by
  have hothers : request.projected = none →
      Traces ledger.program LedgerPool.initial index (UncutAt ledger) (KeepsAddingUp ledger)
        (fun _ _ => True) (ledger.program request) past := by
    intro hrequest
    have hprogram :=
      operation_unprojecting ledger request hrequest (LedgerPool.after ledger past).shared
    refine (Traces.of_guarantees (fun _ _ => trivial) (fun _ => trivial) hprogram).mono
      (fun _ _ _ _ => trivial) ?_ fun _ _ _ => trivial
    exact fun _ _ => keepsAddingUp_of_projections
  have happends : ∀ minNew debounceMs account asset,
      Follows ledger index (UncutAt ledger) (KeepsAddingUp ledger) (fun _ _ => True) (do
        appendCachePointWith ledger.projectionGraceMs minNew debounceMs account asset
        return Response.unit) past := fun _ _ _ _ =>
    follows_bind_uncut ((appendCachePointWith_follows _ _).weaken fun _ _ _ => follows_pure trivial)
  cases request with
  | spawnAppend account asset =>
      exact Traces.weaken (happends _ _ account asset) fun _ _ _ => trivial
  | appendCachePoint account asset =>
      exact Traces.weaken (happends _ _ account asset) fun _ _ _ => trivial
  | _ => exact hothers rfl

/-- The next action of a run adds no cache point that does not add up. -/
theorem keepsAddingUp_step {actions : List LedgerAction} {action : LedgerAction}
    (hrun : LedgerPool.initial.Respects ledger.program (fun _ => Uncut) (actions ++ [action])) :
    KeepsAddingUp ledger actions (actions ++ [action]) := by
  cases action with
  | start request =>
      refine idles_keepsAddingUp _ _ ?_
      rw [storeAfter, after_append_singleton]
      rfl
  | advance index choice =>
      cases hcall : (LedgerPool.after ledger actions).calls[index]? with
      | none =>
          refine idles_keepsAddingUp _ _ ?_
          rw [storeAfter, after_append_singleton]
          simp [Pool.act, hcall]
      | some call =>
          have hstart : ∀ request start, (LedgerPool.after ledger start).calls.length = index →
              Traces ledger.program LedgerPool.initial index (UncutAt ledger) (KeepsAddingUp ledger)
                (fun _ _ => True) (ledger.program request) (start ++ [.start request]) :=
            fun request start _ => operation_keepsAddingUp request _
          obtain hsame | ⟨start, _, _, hstep⟩ :=
            guarantee_of_advance (Nat.zero_le _) hrun.obeys hstart hcall
          · exact idles_keepsAddingUp _ _ (congrArg World.store hsame)
          · exact hstep

theorem pointsAddUp_after {actions : List LedgerAction} (htimed : Timed ledger actions)
    (hrun : LedgerPool.initial.Respects ledger.program (fun _ => Uncut) actions) :
    PointsAddUp ledger actions := by
  induction actions using List.reverseRecOn with
  | nil =>
      intro key point hpoint
      cases hpoint
  | append_singleton actions action ih =>
      have hearlier := htimed.of_prefix (List.prefix_append actions [action])
      have hpoints := ih hearlier hrun.of_append.1
      intro key point hpoint
      exact (keepsAddingUp_step hrun hpoints hearlier key point hpoint).later
        (List.prefix_append _ _) htimed

/-! ## Reading at rest -/

/-- Nothing is stored between the two instants. -/
def Quiet (before after : InMemoryStore) : Prop :=
  ∀ tid, tid ∈ after.transfers → tid ∈ before.transfers

/-- Where nothing is stored, neither transfers nor postings change. -/
theorem Evolves.of_quiet {before after : InMemoryStore} (hevolves : Evolves before after)
    (hquiet : Quiet before after) :
    after.postings = before.postings ∧ after.transfers = before.transfers ∧
      after.transferAccounts = before.transferAccounts := by
  induction hevolves with
  | refl => exact ⟨rfl, rfl, rfl⟩
  | tail hearlier hstep ih =>
      obtain ⟨hpostings, htransfers, hfiled⟩ | ⟨_, _, req, _, _, _, hfresh, _, rfl⟩ :=
        hstep.postings_cases
      · rw [hpostings, htransfers, hfiled]
        rw [Quiet, htransfers] at hquiet
        exact ih hquiet
      · have hnew : req.transferId ∈ before.transfers := by
          refine hquiet _ ?_
          rw [InMemoryStore.applyCommit_transfers]
          exact (AList.mem_insert _).mpr (.inl rfl)
        obtain ⟨record, hstored⟩ := HashMap.mem_iff_exists_lookup.mp hnew
        have hkept := Evolves.lookup_transfers hearlier hstored
        exact absurd (HashMap.mem_iff_exists_lookup.mpr ⟨record, hkept⟩) hfresh

theorem Quiet.later {start seen last : List LedgerAction} (hseen : start <+: seen)
    (hlast : seen <+: last) (hquiet : Quiet (storeAfter ledger start) (storeAfter ledger last)) :
    (storeAfter ledger last).postings = (storeAfter ledger seen).postings ∧
      (storeAfter ledger last).transfers = (storeAfter ledger seen).transfers ∧
      (storeAfter ledger last).transferAccounts = (storeAfter ledger seen).transferAccounts := by
  obtain ⟨more, rfl⟩ := hlast
  obtain ⟨earlier, rfl⟩ := hseen
  refine (evolves_after ledger _ more).of_quiet fun tid htid => ?_
  obtain ⟨record, hstored⟩ := HashMap.mem_iff_exists_lookup.mp (hquiet tid htid)
  exact HashMap.mem_iff_exists_lookup.mpr
    ⟨record, (evolves_after ledger start earlier).lookup_transfers hstored⟩

section Balance

variable {account : AccountId} {asset : AssetId} {start past : List LedgerAction}

/-- What a read promises that began at `start`: if nothing is stored meanwhile and all
points add up, it returns the sum of the live postings. -/
def ExactSince (ledger : Ledger) (account : AccountId) (asset : AssetId)
    (start : List LedgerAction) (value : Cent) (last : List LedgerAction) : Prop :=
  Quiet (storeAfter ledger start) (storeAfter ledger last) → PointsAddUp ledger last →
    IndexedFor (storeAfter ledger last) account →
    value.val = (storeAfter ledger last).liveBalance (account, asset)

theorem computeBalance_follows (hstart : start <+: past) :
    Follows ledger index (UncutAt ledger) (fun _ _ => True) (ExactSince ledger account asset start)
      (computeBalance account asset) past := by
  refine follows_bind_uncut (follows_act fun others choice _ _ => ⟨trivial, ?_⟩)
  refine follows_attempt fun value hvalue hquiet _ _ => ?_
  rw [Except.mapError_eq_ok_iff] at hvalue
  have hexact : value.val = (storeAfter ledger (past ++ others)).liveBalance (account, asset) :=
    InMemoryStore.val_of_sum_live hvalue
  obtain ⟨hpostings, _⟩ :=
    hquiet.later (hstart.trans (List.prefix_append past others)) (List.prefix_append _ _)
  rw [hexact, InMemoryStore.liveBalance, InMemoryStore.liveBalance, InMemoryStore.livePostings,
    InMemoryStore.livePostings, hpostings]

theorem balance_follows :
    Follows ledger index (UncutAt ledger) (fun _ _ => True) (ExactSince ledger account asset start)
      (Ledger.balance account asset) start := by
  have hidle : Idles ledger fun _ _ => True := fun _ _ _ => trivial
  refine follows_bind_uncut ((nowMillis_follows hidle).weaken fun now first hnow => ?_)
  refine follows_bind_uncut ((closest_follows hidle now).weaken fun closest second hclosest => ?_)
  have hstart := hnow.1.trans hclosest.1
  cases closest with
  | none => exact computeBalance_follows hstart
  | some point =>
      refine follows_bind_uncut ((foldTail_follows hidle _ _).weaken fun tail last htail => ?_)
      refine follows_attempt fun value hvalue hquiet hpoints hindexed => ?_
      obtain ⟨seen, hseen, hlast, htail⟩ := htail
      rw [Except.mapError_eq_ok_iff, Cent.checkedAdd_eq_ok_iff, htail] at hvalue
      obtain ⟨hpostings, htransfers, hfiled⟩ := hquiet.later (hstart.trans hseen) hlast
      rw [← InMemoryStore.changeWithin_congr hpostings htransfers hfiled] at hvalue
      have hpoint := pointsOf_later (hseen.trans hlast) (hclosest.2 point rfl)
      have hadds := (accounted_after ledger last).adds account hindexed asset
      rw [hvalue, (hpoints _ point hpoint).covers, ← InMemoryStore.changeWithin_split, hadds]
      · exact InMemoryStore.changeWithin_all _ _
      · nofun

end Balance

/-- In runs whose clock goes forward, whose transfers become visible within the grace
period and whose reads of transfers are not cut off, a balance that is read while
nothing is stored is the sum of the live postings. -/
theorem balance_exact (ledger : Ledger) (before more : List LedgerAction) (index : Nat)
    (account : AccountId) (asset : AssetId) (value : Cent)
    (htimed : Timed ledger (before ++ more))
    (hrun : LedgerPool.initial.Respects ledger.program (fun _ => Uncut) (before ++ more))
    (hstarted : (LedgerPool.after ledger before).calls.length ≤ index)
    (hreturned : (LedgerPool.after ledger (before ++ more)).calls[index]? =
      some ⟨.balance account asset, .done (.ok (.cent value))⟩)
    (hquiet : Quiet (storeAfter ledger before) (storeAfter ledger (before ++ more)))
    (hindex : ∀ tid record, (storeAfter ledger (before ++ more)).transfers.lookup tid =
      some record → record.envelope.creates.length ≤ 65536) :
    value.val = (storeAfter ledger (before ++ more)).liveBalance (account, asset) := by
  have hstart : ∀ request start, (LedgerPool.after ledger start).calls.length = index →
      Traces ledger.program LedgerPool.initial index (UncutAt ledger) (fun _ _ => True)
        (fun result last => request = .balance account asset → ∀ value,
          result = .ok (.cent value) →
            ExactSince ledger account asset (start ++ [.start request]) value last)
        (ledger.program request) (start ++ [.start request]) := by
    intro request start _
    by_cases hrequest : request = .balance account asset
    · subst hrequest
      have hbalance : Follows ledger index (UncutAt ledger) (fun _ _ => True)
          (fun response last => ∀ value, response = .cent value →
            ExactSince ledger account asset (start ++ [.start (.balance account asset)]) value last)
          (ledger.operation (.balance account asset))
          (start ++ [.start (.balance account asset)]) := by
        refine follows_bind_uncut (balance_follows.weaken fun value last hexact => ?_)
        refine follows_pure fun returned heq => ?_
        cases heq
        exact hexact
      exact Traces.weaken hbalance fun result last hpost _ value heq => hpost _ heq value rfl
    · exact Traces.vacuous (fun _ _ => trivial) (fun _ _ hsame => absurd hsame hrequest) _ _
  obtain ⟨start, past, harrived, hpost⟩ := exists_arrived (Nat.zero_le _) hrun.obeys hstart hreturned
  let origin := start ++ [.start (.balance account asset)]
  have horigin : origin <+: past := harrived.started
  have hbefore : before <+: origin := by
    refine (List.prefix_or_prefix_of_prefix (List.prefix_append before more)
      (horigin.trans harrived.within)).resolve_right fun hearly => ?_
    -- the call would have been there already
    obtain ⟨rest, rfl⟩ := hearly
    have hposition : (LedgerPool.after ledger start).calls.length = index := harrived.position
    have horigin : (LedgerPool.after ledger origin).calls.length = index + 1 := by
      rw [after_append_singleton, Pool.act, List.length_append, hposition]
      rfl
    have hgrown : (LedgerPool.after ledger origin).calls.length ≤
        (Pool.run ledger.program (LedgerPool.after ledger origin) rest).calls.length :=
      Pool.length_run_calls _ rest
    rw [LedgerPool.after, Pool.run_append] at hstarted
    rw [LedgerPool.after] at horigin hgrown
    omega
  obtain ⟨hpostings, htransfers, hfiled⟩ := hquiet.later (hbefore.trans horigin) harrived.within
  have hsince := (hquiet.later hbefore (horigin.trans harrived.within)).2.1
  have hpoints : PointsAddUp ledger past := by
    refine pointsAddUp_after (htimed.of_prefix harrived.within) ?_
    obtain ⟨rest, hrest⟩ := harrived.within
    rw [← hrest] at hrun
    exact hrun.of_append.1
  have hexact := hpost rfl value rfl ?_ hpoints ?_
  · rw [hexact, InMemoryStore.liveBalance, InMemoryStore.liveBalance, InMemoryStore.livePostings,
      InMemoryStore.livePostings, hpostings]
  · intro tid htid
    rwa [← htransfers, hsince] at htid
  · intro tid record hstored _
    exact hindex tid record (htransfers ▸ hstored)

section Short

variable {actions : List LedgerAction}

/-! ## Short runs -/

/-- An action stores at most one transfer. -/
theorem length_transfersOf_le (ledger : Ledger) (actions : List LedgerAction)
    (account : AccountId) :
    ((storeAfter ledger actions).transfersOf account).length ≤ actions.length := by
  induction actions using List.reverseRecOn with
  | nil => exact Nat.le_refl _
  | append_singleton actions action ih =>
      rw [List.length_append, List.length_singleton]
      obtain ⟨_, htransfers, hfiled⟩ | ⟨_, _, req, _, _, _, hfresh, _, hafter⟩ :=
        (storeStep_after ledger actions action).postings_cases
      · rw [InMemoryStore.transfersOf, hfiled, htransfers]
        exact Nat.le_succ_of_le ih
      · rw [hafter, transfersOf_applyCommit (accounted_after ledger actions).catalogued hfresh,
          List.length_append]
        split
        next => rw [List.length_singleton]; omega
        next => rw [List.length_nil]; omega

/-- No read of a run is cut off that has fewer actions than a page has room for. -/
theorem respects_uncut (hshort : actions.length < 2 ^ 32) :
    LedgerPool.initial.Respects ledger.program (fun _ => Uncut) actions := by
  suffices hrest : ∀ first rest : List LedgerAction, (first ++ rest).length < 2 ^ 32 →
      (LedgerPool.after ledger first).Respects ledger.program (fun _ => Uncut) rest from
    hrest [] actions hshort
  intro first rest
  induction rest generalizing first with
  | nil => exact fun _ => trivial
  | cons action rest ih =>
      intro hshort
      refine ⟨fun _ _ _ _ _ account fromTs toTs _ _ => ?_, ?_⟩
      · have hsublist : ((storeAfter ledger first).windowOf account fromTs toTs).Sublist
            ((storeAfter ledger first).transfersOf account) := List.filter_sublist
        have hfew := length_transfersOf_le ledger first account
        rw [List.length_append] at hshort
        have hlength := hsublist.length_le
        exact Nat.lt_of_le_of_lt (hlength.trans hfew) (by omega)
      · rw [← after_append_singleton]
        refine ih (first ++ [action]) ?_
        rwa [List.append_assoc]

end Short

end Theory

namespace Sample

/-- Alice has a cache point of 0 and is then paid 5. -/
def cached : List LedgerAction :=
  sequentially (accounts ++ [.appendCachePoint alice usd, .commit (deposit 5)])

/-- The call that reads her balance. -/
def reading : List LedgerAction :=
  .start (.balance alice usd) :: .replicate 10 (.advance 4 noon)

end Sample

/-- What the call at `index` has read, if it reads a balance and has returned. -/
def balanceRead [MoneyWidth] (pool : LedgerPool) (index : Nat) :
    Option (AccountId × AssetId × Cent) :=
  match pool.calls[index]? with
  | some ⟨.balance account asset, .done (.ok (.cent value))⟩ => some (account, asset, value)
  | _ => none

theorem balanceRead_eq_some [MoneyWidth] {pool : LedgerPool} {index : Nat} {account : AccountId}
    {asset : AssetId} {value : Cent}
    (hread : balanceRead pool index = some (account, asset, value)) :
    pool.calls[index]? = some ⟨.balance account asset, .done (.ok (.cent value))⟩ := by
  unfold balanceRead at hread
  split at hread
  next hcall =>
    cases hread
    exact hcall
  next => cases hread

open Sample in
/-- The cached balance of alice, who has been paid since. -/
theorem balance_exact_cached :
    (Cent.ofI64 5).val = (storeAfter ledger (cached ++ reading)).liveBalance (alice, usd) ∧
      (storeAfter ledger cached).pointsOf (alice, usd) ≠ [] := by
  have hclocks : (clocksOf (cached ++ reading)).all (· == some 1800000000000) := by
    decide +kernel
  have hread : balanceRead (LedgerPool.after ledger (cached ++ reading)) 4 =
      some (alice, usd, .ofI64 5) := by decide +kernel
  have hkeys : (storeAfter ledger (cached ++ reading)).transfers.keys =
      (storeAfter ledger cached).transfers.keys := by decide +kernel
  have hentries : ∀ entry ∈ (storeAfter ledger (cached ++ reading)).transfers.entries,
      entry.2.createdAt = 1800000000000 ∧ entry.2.envelope.creates.length ≤ 65536 := by
    decide +kernel
  refine ⟨balance_exact ledger cached reading 4 alice usd (.ofI64 5) ?_
    (respects_uncut (by decide +kernel)) (by decide +kernel) (balanceRead_eq_some hread)
    (fun tid htid => ?_) fun tid record hstored => ?_, by decide +kernel⟩
  · refine timed_of_still (by decide) (by decide) (fun clock hclock => ?_)
      fun tid record hstored => (hentries _ (AList.mem_lookup_iff.mp hstored)).1
    exact eq_of_beq (List.all_eq_true.mp hclocks clock hclock)
  · exact AList.mem_keys.mpr (hkeys ▸ AList.mem_keys.mp htid)
  · exact (hentries _ (AList.mem_lookup_iff.mp hstored)).2

end Kuatia
