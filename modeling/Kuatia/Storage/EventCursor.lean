import Kuatia.Collections.Cursor
import Kuatia.Storage.Calls
import Kuatia.Storage.IdGenerator

/-! # Following the event log

An event is numbered by the millisecond and the counter at which it is appended.
A consumer that polls with the last number it has received gets the whole log,
in order, exactly when these pairs keep growing and do not begin at zero.
-/

instance Cursor.uint64Order : LinearOrder UInt64 where
  __ := instLEUInt64
  __ := instLTUInt64
  le_refl := UInt64.le_refl
  le_trans _ _ _ := UInt64.le_trans
  le_antisymm _ _ := UInt64.le_antisymm
  le_total := UInt64.le_total
  lt_iff_le_not_ge first second := by
    rw [UInt64.lt_iff_toNat_lt, UInt64.le_iff_toNat_le, UInt64.le_iff_toNat_le]
    omega
  toDecidableLE := inferInstance
  toDecidableLT := inferInstance

namespace Kuatia

open InMemoryStore

/-! ## The numbers of the generator -/

/-- What the generator sees as it draws a number. -/
structure Draw where
  clock : Clock
  counter : UInt32

namespace Draw

/-- The millisecond field of the number. -/
def ms (draw : Draw) : UInt64 :=
  AutoId.nowMs draw.clock &&& (((1 : UInt64) <<< AutoId.TIMESTAMP_BITS) - 1)

/-- The counter field of the number. -/
def tail (draw : Draw) : UInt32 := draw.counter &&& AutoId.TAIL_MASK

def number (draw : Draw) : UInt64 := (AutoId.next draw.clock draw.counter).1.toUInt64

theorem toNat_ms (draw : Draw) : draw.ms.toNat = (AutoId.nowMs draw.clock).toNat % 2 ^ 40 := by
  have hmask : (((1 : UInt64) <<< AutoId.TIMESTAMP_BITS) - 1).toNat = 2 ^ 40 - 1 := by decide
  rw [ms, UInt64.toNat_and, hmask, Nat.and_two_pow_sub_one_eq_mod]

theorem tail_lt (draw : Draw) : draw.tail.toNat < 2 ^ 23 := AutoId.masked_lt draw.counter

theorem toNat_number (draw : Draw) :
    draw.number.toNat = draw.ms.toNat * 2 ^ 23 + draw.tail.toNat := by
  rw [toNat_ms]
  exact AutoId.toNat_pack draw.tail_lt

/-- The number grows with the millisecond, and within one with the counter. -/
theorem number_lt_iff (first second : Draw) : first.number < second.number ↔
    first.ms ≤ second.ms ∧ (first.ms = second.ms → first.tail < second.tail) := by
  have hfirst := first.tail_lt
  have hsecond := second.tail_lt
  rw [UInt64.lt_iff_toNat_lt, UInt64.le_iff_toNat_le, UInt32.lt_iff_toNat_lt,
    ← UInt64.toNat_inj, toNat_number, toNat_number]
  omega

theorem number_pos_iff (draw : Draw) : 0 < draw.number ↔ draw.ms ≠ 0 ∨ draw.tail ≠ 0 := by
  rw [UInt64.lt_iff_toNat_lt, toNat_number, ← UInt64.toNat_inj.ne, ← UInt32.toNat_inj.ne]
  simp only [UInt64.toNat_zero, UInt32.toNat_zero]
  omega

end Draw

section Theory

variable [MoneyWidth]

/-! ## The events that calls append -/

namespace StoreCall

/-- What the clock shows during a call, if the call looks at it. -/
def clock : StoreCall → Option Clock
  | commitEnvelope _ clock _ | commitTransition clock _ _ | appendEvent clock _
  | appendBalanceProjection clock _ _ _ _ => some clock
  | createAccount _ | appendAccountVersion _ | insertPostings _ | reservePostings _ _
  | releasePostings _ _ | deactivatePostings _ _ | storeTransfer _ _ | createBook _ => none

/-- What the generator sees if the call appends an event. -/
def draw (store : InMemoryStore) (call : StoreCall) : Option Draw :=
  if (call.apply store).events = store.events then none
  else call.clock.map fun clock => ⟨clock, store.autoid⟩

end StoreCall

/-- What the generator sees for each event that the calls append, in order. -/
def draws : List StoreCall → InMemoryStore → List Draw
  | [], _ => []
  | call :: calls, store => (call.draw store).toList ++ draws calls (call.apply store)

theorem InMemoryStore.events_appendEventLocked (clock : Clock) (event : LedgerEvent)
    (store : InMemoryStore) :
    (store.appendEventLocked clock event).events = store.events ∨
      (store.appendEventLocked clock event).events =
        store.events ++ [{ event with seq := (Draw.mk clock store.autoid).number }] := by
  unfold appendEventLocked
  split
  next => exact .inl rfl
  next => exact .inr rfl

namespace StoreCall

/-- A call appends one event at most, numbered by the clock and the counter that
it finds. -/
theorem events_apply (call : StoreCall) (store : InMemoryStore) :
    (call.apply store).events = store.events ∨
      ∃ (clock : Clock) (event : LedgerEvent), call.clock = some clock ∧
        (call.apply store).events =
          store.events ++ [{ event with seq := (Draw.mk clock store.autoid).number }] := by
  cases call with
  | createAccount account =>
      left
      simp only [apply, InMemoryStore.createAccount]
      split <;> rfl
  | appendAccountVersion account =>
      left
      simp only [apply, InMemoryStore.appendAccountVersion]
      split
      next => rfl
      next => split_ifs <;> rfl
  | insertPostings => exact .inl rfl
  | reservePostings => exact .inl rfl
  | releasePostings => exact .inl rfl
  | deactivatePostings => exact .inl rfl
  | storeTransfer record involved =>
      left
      simp only [apply, InMemoryStore.storeTransfer]
      split <;> rfl
  | commitEnvelope order clock req =>
      obtain ⟨hsame, _⟩ | ⟨_, _, heq⟩ := store.commitEnvelope_cases order clock req
      · exact .inl (congrArg InMemoryStore.events hsame)
      · simp only [apply, heq]
        apply (InMemoryStore.events_appendEventLocked clock req.event _).imp id
        exact fun happended => ⟨clock, req.event, rfl, happended⟩
  | commitTransition clock next event =>
      obtain ⟨hsame, _⟩ | ⟨heq, _⟩ | ⟨_, _, _, _, _, heq⟩ :=
        store.commitTransition_cases clock next event
      · exact .inl (congrArg InMemoryStore.events hsame)
      · simp only [apply, heq]
        apply (InMemoryStore.events_appendEventLocked clock event _).imp id
        exact fun happended => ⟨clock, event, rfl, happended⟩
      · simp only [apply, heq]
        apply (InMemoryStore.events_appendEventLocked clock event _).imp id
        exact fun happended => ⟨clock, event, rfl, happended⟩
  | appendEvent clock event =>
      simp only [apply, InMemoryStore.appendEvent_store]
      apply (InMemoryStore.events_appendEventLocked clock event _).imp id
      exact fun happended => ⟨clock, event, rfl, happended⟩
  | createBook book =>
      left
      simp only [apply, InMemoryStore.createBook]
      split <;> rfl
  | appendBalanceProjection => exact .inl rfl

theorem events_prefix_apply (call : StoreCall) (store : InMemoryStore) :
    store.events <+: (call.apply store).events := by
  obtain hsame | ⟨_, _, _, happended⟩ := call.events_apply store
  · rw [hsame]
  · rw [happended]
    exact List.prefix_append _ _

theorem numbers_apply (call : StoreCall) (store : InMemoryStore) :
    (call.apply store).events.map (·.seq) =
      store.events.map (·.seq) ++ (call.draw store).toList.map Draw.number := by
  unfold draw
  obtain hsame | ⟨clock, event, hclock, happended⟩ := call.events_apply store
  · simp [hsame]
  · rw [happended, if_neg (by simp), hclock]
    simp

end StoreCall

/-- The calls number their events as they draw. -/
theorem numbers_eq_draws (calls : List StoreCall) (store : InMemoryStore) :
    (calls.foldl StoreCall.apply store).events.map (·.seq) =
      store.events.map (·.seq) ++ (draws calls store).map Draw.number := by
  induction calls generalizing store with
  | nil => simp [draws]
  | cons call calls ih =>
      rw [List.foldl_cons, ih, call.numbers_apply, draws, List.map_append, List.append_assoc]

theorem events_built_prefix {first calls : List StoreCall} (hinitial : first <+: calls) :
    (built first).events <+: (built calls).events := by
  obtain ⟨added, rfl⟩ := hinitial
  induction added using List.reverseRecOn with
  | nil => rw [List.append_nil]
  | append_singleton added call ih =>
      rw [← List.append_assoc, built_append_singleton]
      exact ih.trans (call.events_prefix_apply _)

/-! ## The consumer -/

namespace InMemoryStore

def getEventsSince (store : InMemoryStore) (afterSeq : UInt64) (limit : UInt32) :
    List LedgerEvent :=
  (store.events.filter fun event => afterSeq < event.seq).take limit.toNat

end InMemoryStore

/-- A store and what a consumer has received from it. -/
structure Feed where
  store : InMemoryStore
  received : List LedgerEvent

/-- Someone calls the store, or the consumer polls for a page. -/
inductive FeedStep where
  | call (call : StoreCall)
  | poll (limit : UInt32)

namespace FeedStep

def apply (feed : Feed) : FeedStep → Feed
  | .call request => { feed with store := request.apply feed.store }
  | .poll limit =>
      let afterSeq := Cursor.position (·.seq) 0 feed.received
      { feed with received := feed.received ++ feed.store.getEventsSince afterSeq limit }

def call? : FeedStep → Option StoreCall
  | .call request => some request
  | .poll _ => none

end FeedStep

/-- The feed after some steps, from an empty store. -/
def Feed.after (steps : List FeedStep) : Feed := steps.foldl FeedStep.apply ⟨.new, []⟩

/-- The calls of the store among the steps. -/
def callsOf (steps : List FeedStep) : List StoreCall := steps.filterMap FeedStep.call?

/-- At every moment the consumer has received the log up to some event, and each
poll takes it further by the size of the page, or to the end of the log. -/
structure Delivers (steps : List FeedStep) : Prop where
  inOrder : ∀ first, first <+: steps →
    (Feed.after first).received <+: (Feed.after first).store.events
  progress : ∀ first limit, first ++ [.poll limit] <+: steps →
    (Feed.after (first ++ [.poll limit])).received.length =
      min ((Feed.after first).received.length + limit.toNat) (Feed.after first).store.events.length

/-- The first number is not zero. From one number to the next the millisecond
field does not fall back, and within one millisecond the counter field grows. -/
structure NeverStartsOver (draws : List Draw) : Prop where
  first : ∀ draw ∈ draws.head?, draw.ms ≠ 0 ∨ draw.tail ≠ 0
  next : draws.IsChain fun before after =>
    before.ms ≤ after.ms ∧ (before.ms = after.ms → before.tail < after.tail)

theorem Feed.after_append_singleton (steps : List FeedStep) (step : FeedStep) :
    after (steps ++ [step]) = step.apply (after steps) := by
  simp [after]

theorem Feed.store_after (steps : List FeedStep) : (after steps).store = built (callsOf steps) := by
  induction steps using List.reverseRecOn with
  | nil => rfl
  | append_singleton steps step ih =>
      rw [after_append_singleton, callsOf, List.filterMap_append, ← callsOf]
      cases step with
      | call call =>
          change StoreCall.apply (after steps).store call = built (callsOf steps ++ [call])
          rw [built_append_singleton, ih]
      | poll limit =>
          change (after steps).store = built (callsOf steps ++ [])
          rw [List.append_nil, ih]

/-- Over a log with growing numbers above zero a poll goes on where the last
one has stopped. -/
theorem received_poll {feed : Feed} {limit : UInt32}
    (hincreasing : feed.store.events.Pairwise (·.seq < ·.seq))
    (hpositive : ∀ event ∈ feed.store.events, 0 < event.seq)
    (hinitial : feed.received <+: feed.store.events) :
    (FeedStep.apply feed (.poll limit)).received <+: feed.store.events ∧
      (FeedStep.apply feed (.poll limit)).received.length =
        min (feed.received.length + limit.toNat) feed.store.events.length := by
  obtain ⟨rest, hrest⟩ := hinitial
  rw [← hrest] at hincreasing hpositive ⊢
  have hpoll : (FeedStep.apply feed (.poll limit)).received =
      feed.received ++ rest.take limit.toNat := by
    have hpage : feed.received ++ Cursor.page (·.seq) (Cursor.position (·.seq) 0 feed.received)
        limit.toNat (feed.received ++ rest) = feed.received ++ rest.take limit.toNat :=
      Cursor.append_page _ hincreasing
        (fun event hevent => hpositive event (List.mem_append_right _ hevent)) limit.toNat
    rw [hrest] at hpage
    exact hpage
  rw [hpoll]
  constructor
  · exact (List.prefix_append_right_inj _).mpr (List.take_prefix _ _)
  · simp only [List.length_append, List.length_take]
    omega

theorem delivers_of_increasing {steps : List FeedStep}
    (hincreasing : (built (callsOf steps)).events.Pairwise (·.seq < ·.seq))
    (hpositive : ∀ event ∈ (built (callsOf steps)).events, 0 < event.seq) : Delivers steps := by
  have hpart : ∀ first, first <+: steps →
      (Feed.after first).store.events <+: (built (callsOf steps)).events := by
    intro first hinitial
    rw [Feed.store_after]
    exact events_built_prefix (hinitial.filterMap _)
  have hpoll : ∀ first, first <+: steps → ∀ limit,
      (Feed.after first).received <+: (Feed.after first).store.events →
      (FeedStep.apply (Feed.after first) (.poll limit)).received <+:
          (Feed.after first).store.events ∧
        (FeedStep.apply (Feed.after first) (.poll limit)).received.length =
          min ((Feed.after first).received.length + limit.toNat)
            (Feed.after first).store.events.length := by
    intro first hinitial limit hreceived
    have hevents := hpart first hinitial
    exact received_poll (hincreasing.sublist hevents.sublist)
      (fun event hevent => hpositive event (hevents.subset hevent)) hreceived
  have hinOrder : ∀ first, first <+: steps →
      (Feed.after first).received <+: (Feed.after first).store.events := by
    intro first
    induction first using List.reverseRecOn with
    | nil => exact fun _ => List.nil_prefix
    | append_singleton first step ih =>
        intro hinitial
        have hfirst := (List.prefix_append first [step]).trans hinitial
        rw [Feed.after_append_singleton]
        cases step with
        | call call => exact (ih hfirst).trans (call.events_prefix_apply _)
        | poll limit => exact (hpoll first hfirst limit (ih hfirst)).1
  refine ⟨hinOrder, fun first limit hinitial => ?_⟩
  have hfirst := (List.prefix_append first [.poll limit]).trans hinitial
  rw [Feed.after_append_singleton]
  exact (hpoll first hfirst limit (hinOrder first hfirst)).2

theorem increasing_of_neverStartsOver {calls : List StoreCall}
    (hdraws : NeverStartsOver (draws calls .new)) :
    (built calls).events.Pairwise (·.seq < ·.seq) ∧
      ∀ event ∈ (built calls).events, 0 < event.seq := by
  have hnumbers : (built calls).events.map (·.seq) = (draws calls .new).map Draw.number :=
    numbers_eq_draws calls .new
  have hincreasing : ((built calls).events.map (·.seq)).Pairwise (· < ·) := by
    rw [hnumbers, ← List.isChain_iff_pairwise, List.isChain_map]
    exact hdraws.next.imp fun before after hnext => (Draw.number_lt_iff before after).mpr hnext
  refine ⟨List.pairwise_map.mp hincreasing, fun event hevent => ?_⟩
  have hmem : event.seq ∈ (draws calls .new).map Draw.number :=
    hnumbers ▸ List.mem_map_of_mem hevent
  rw [hnumbers] at hincreasing
  cases hall : draws calls .new with
  | nil => simp [hall] at hmem
  | cons first later =>
      -- All later numbers are above the first one.
      have hfirst : 0 < first.number := first.number_pos_iff.mpr (hdraws.first first (by simp [hall]))
      rw [hall, List.map_cons, List.mem_cons] at hmem
      rw [hall, List.map_cons, List.pairwise_cons] at hincreasing
      rcases hmem with heq | hlater
      · rw [heq]
        exact hfirst
      · exact hfirst.trans (hincreasing.1 _ hlater)

theorem neverStartsOver_of_increasing {calls : List StoreCall}
    (hincreasing : (built calls).events.Pairwise (·.seq < ·.seq))
    (hpositive : ∀ event ∈ (built calls).events.head?, 0 < event.seq) :
    NeverStartsOver (draws calls .new) := by
  have hnumbers : (built calls).events.map (·.seq) = (draws calls .new).map Draw.number :=
    numbers_eq_draws calls .new
  constructor
  · intro first hfirst
    apply first.number_pos_iff.mp
    have hhead : ((built calls).events.map (·.seq)).head? = some first.number := by
      rw [hnumbers, List.head?_map, hfirst, Option.map_some]
    rw [List.head?_map] at hhead
    obtain ⟨event, hevent, heq⟩ := Option.map_eq_some_iff.mp hhead
    exact heq ▸ hpositive event hevent
  · have hpairwise : ((draws calls .new).map Draw.number).Pairwise (· < ·) :=
      hnumbers ▸ List.pairwise_map.mpr hincreasing
    rw [← List.isChain_iff_pairwise, List.isChain_map] at hpairwise
    exact hpairwise.imp fun before after hnext => (Draw.number_lt_iff before after).mp hnext

theorem callsOf_map_call (calls : List StoreCall) (limit : UInt32) :
    callsOf (calls.map .call ++ [.poll limit]) = calls := by
  rw [callsOf, List.filterMap_append, List.filterMap_map]
  simp [Function.comp_def, FeedStep.call?]

theorem received_map_call (calls : List StoreCall) :
    (Feed.after (calls.map .call)).received = [] := by
  induction calls using List.reverseRecOn with
  | nil => rfl
  | append_singleton calls call ih =>
      rw [List.map_append, List.map_singleton, Feed.after_append_singleton]
      exact ih

/-- A consumer that polls once, after all calls, gets the first event. -/
theorem first_positive_of_delivers {calls : List StoreCall}
    (hdelivers : Delivers (calls.map .call ++ [.poll 1])) :
    ∀ event ∈ (built calls).events.head?, 0 < event.seq := by
  intro event hevent
  have hstore : (Feed.after (calls.map .call)).store = built calls := by
    rw [Feed.store_after, callsOf, List.filterMap_map]
    simp [Function.comp_def, FeedStep.call?]
  have hpolled : Feed.after (calls.map .call ++ [.poll 1]) =
      ⟨built calls, (built calls).getEventsSince 0 1⟩ := by
    rw [Feed.after_append_singleton]
    simp [FeedStep.apply, received_map_call, hstore, Cursor.position]
  have hinitial := hdelivers.inOrder _ (List.prefix_refl _)
  have hlength := hdelivers.progress _ 1 (List.prefix_refl _)
  rw [hpolled] at hinitial hlength
  obtain ⟨later, hevents⟩ := List.head?_eq_some_iff.mp hevent
  rw [received_map_call, hstore, hevents] at hlength
  -- What is received is not empty, so it begins with the first event.
  cases hpage : (built calls).getEventsSince 0 1 with
  | nil => simp [hpage] at hlength
  | cons first rest =>
      rw [hpage, hevents, List.cons_prefix_cons] at hinitial
      have hmem : event ∈ (built calls).getEventsSince 0 1 := by
        rw [hpage, ← hinitial.1]
        exact List.mem_cons_self
      exact of_decide_eq_true (List.mem_filter.mp (List.mem_of_mem_take hmem)).2

/-- Numbers increase and every consumer is served, however its polls fall between
the calls, exactly when the two fields of the numbers never start over. -/
theorem cursor_delivers_iff (calls : List StoreCall) :
    ((built calls).events.Pairwise (·.seq < ·.seq) ∧
      ∀ steps, callsOf steps = calls → Delivers steps) ↔
      NeverStartsOver (draws calls .new) := by
  constructor
  · rintro ⟨hincreasing, hdelivers⟩
    exact neverStartsOver_of_increasing hincreasing
      (first_positive_of_delivers (hdelivers _ (callsOf_map_call calls 1)))
  · intro hdraws
    have h := increasing_of_neverStartsOver hdraws
    refine ⟨h.1, fun steps hsteps => delivers_of_increasing ?_ ?_⟩
    · rw [hsteps]
      exact h.1
    · rw [hsteps]
      exact h.2

end Theory

open Sample in
/-- As many calls that append an event, all in one millisecond. -/
def sameMillisecond (count : Nat) : List StoreCall :=
  .replicate count (.appendEvent (some 1800000000000) ⟨0, 0, .accountCreated external⟩)

open Sample in
theorem numbers_sameMillisecond (count : Nat) :
    (built (sameMillisecond count)).events.map (·.seq) = (List.range count).map (fun index =>
        (Draw.mk (some 1800000000000) (.ofNat index)).number) ∧
      (built (sameMillisecond count)).autoid = .ofNat count := by
  induction count with
  | zero => exact ⟨rfl, rfl⟩
  | succ count ih =>
      rw [sameMillisecond, List.replicate_succ', ← sameMillisecond, built_append_singleton,
        List.range_succ, List.map_append, ← ih.1]
      simp only [StoreCall.apply, appendEvent, findEvent, eventDedupKey, appendEventLocked,
        List.map_append, List.map_singleton, ih.2]
      refine ⟨rfl, ?_⟩
      change UInt32.ofNat count + 1 = UInt32.ofNat (count + 1)
      rw [UInt32.ofNat_add]
      rfl

open Sample in
/-- The counter field has 23 bits: of so many events of one millisecond the last
has the number of the first. -/
theorem number_repeated : ¬(built (sameMillisecond (2 ^ 23 + 1))).events.Pairwise
    (·.seq < ·.seq) := by
  intro hincreasing
  have hnumbers : ((built (sameMillisecond (2 ^ 23 + 1))).events.map (·.seq)).Pairwise (· < ·) :=
    List.pairwise_map.mpr hincreasing
  rw [(numbers_sameMillisecond _).1, List.pairwise_map] at hnumbers
  have hlt := List.pairwise_iff_getElem.mp hnumbers 0 (2 ^ 23) (by simp) (by simp) (by decide)
  rw [List.getElem_range, List.getElem_range] at hlt
  have hsame : (Draw.mk (some 1800000000000) (.ofNat (2 ^ 23))).number =
      (Draw.mk (some 1800000000000) (.ofNat 0)).number := by decide +kernel
  rw [hsame] at hlt
  exact lt_irrefl _ hlt

end Kuatia
