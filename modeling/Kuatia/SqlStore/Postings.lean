import Kuatia.SqlStore.Row
import Kuatia.Storage.PostingStore

/-! # Postings in SQL

A posting is a row of the immutable table; while it is active or reserved it has
a copy in the live table, whose nullable reservation tells the two apart. Every
primitive sends one statement for each chunk of ids, in one transaction.
-/

namespace Kuatia

open Sql

variable [MoneyWidth]

structure SqlPostings where
  postings : Table PostingRow.key
  live : Table LivePostingRow.key

def MAX_IDS_PER_QUERY : Nat := 500

def matchesId (id : PostingId) (row : PostingRow) : Bool :=
  row.transferId = envelopeIdToHex id.transfer && row.idx = id.index.toInt16

/-- `(transfer_id = .. AND idx = ..) OR ..` over the given ids. -/
def idPredicate (ids : List PostingId) (row : PostingRow) : Bool := ids.any (matchesId · row)

namespace SqlPostings

def empty : SqlPostings := ⟨.empty, .empty⟩

/-! ## The primitives -/

/-- Set the reservation of the rows among the ids that are not reserved. -/
def reservePostings (ids : List PostingId) (reservation : ReservationId) (store : SqlPostings) :
    Nat × SqlPostings :=
  if ids.isEmpty then (0, store)
  else
    let (claimed, live) := forEach (fun chunk => Table.updateWhere
      (fun live => idPredicate chunk live.row && live.reservation = none)
      (fun live => { live with reservation := some reservation.id }) fun _ => rfl)
      (ids.chunks MAX_IDS_PER_QUERY) store.live
    (claimed, { store with live })

/-- Clear the reservation of the rows among the ids that it holds. -/
def releasePostings (ids : List PostingId) (reservation : ReservationId) (store : SqlPostings) :
    Nat × SqlPostings :=
  if ids.isEmpty then (0, store)
  else
    let (released, live) := forEach (fun chunk => Table.updateWhere
      (fun live => idPredicate chunk live.row && live.reservation = some reservation.id)
      (fun live => { live with reservation := none }) fun _ => rfl)
      (ids.chunks MAX_IDS_PER_QUERY) store.live
    (released, { store with live })

/-- Delete the rows among the ids that are active, or that the reservation holds. -/
def deactivatePostings (ids : List PostingId) (reservation : Option ReservationId)
    (store : SqlPostings) : Nat × SqlPostings :=
  if ids.isEmpty then (0, store)
  else
    let (removed, live) := forEach (fun chunk => match reservation with
      | none => Table.deleteWhere fun live =>
          idPredicate chunk live.row && live.reservation = none
      | some reservation => Table.deleteWhere fun live =>
          idPredicate chunk live.row && live.reservation = some reservation.id)
      (ids.chunks MAX_IDS_PER_QUERY) store.live
    (removed, { store with live })

/-- Insert one posting, and activate it if it is new. -/
def insertPosting (posting : Posting) (store : SqlPostings) : Nat × SqlPostings :=
  let (inserted, postings) := store.postings.insertIgnore posting.toRow
  if inserted = 1 then
    (1, { postings, live := (store.live.insertIgnore ⟨posting.toRow, none⟩).2 })
  else (0, { store with postings })

def insertPostings (postings : List Posting) (store : SqlPostings) : Nat × SqlPostings :=
  forEach insertPosting postings store

/-- The postings under the ids, in the order of the ids, fetched chunk by chunk. -/
def getPostings (order : IterationOrder) (ids : List PostingId) (store : SqlPostings) :
    Except StoreError (List Posting) :=
  if ids.isEmpty then .ok []
  else do
    let found ← (ids.chunks MAX_IDS_PER_QUERY).foldlM (fun found chunk =>
      (order.arrange (store.postings.select (idPredicate chunk))).foldlM (fun found row => do
        let posting ← rowToPosting row
        .ok (found.insert posting.id.key posting)) found) (∅ : HashMap PostingKey Posting)
    ids.mapM fun id => match found.lookup id.key with
      | some posting => .ok posting
      | none => .error (.notFound s!"posting {id.debug}")

def getPostingStates (order : IterationOrder) (ids : List PostingId) (store : SqlPostings) :
    List PostingState :=
  if ids.isEmpty then []
  else
    let live := ((ids.chunks MAX_IDS_PER_QUERY).flatMap fun chunk =>
      order.arrange (store.live.select fun live => idPredicate chunk live.row)).foldl
        (fun live row => live.insert row.key row.reservation)
        (∅ : HashMap PostingKey (Option Int64))
    let present := (ids.chunks MAX_IDS_PER_QUERY).flatMap fun chunk =>
      (order.arrange (store.postings.select (idPredicate chunk))).map PostingRow.key
    ids.map fun id => match live.lookup id.key with
      | some none => .active
      | some (some reservation) => .reserved ⟨reservation⟩
      | none => if id.key ∈ present then .spent else .missing

/-- The state under a key: live without a reservation, live with one, recorded but
not live, or not recorded. -/
def stateAt (store : SqlPostings) (key : PostingKey) : PostingState :=
  match store.live.lookup key with
  | some live =>
      match live.reservation with
      | none => .active
      | some reservation => .reserved ⟨reservation⟩
  | none => if (store.postings.lookup key).isSome then .spent else .missing

end SqlPostings

/-! ## The same postings -/

/-- The live row that the in-memory tables call for. -/
def PostingTables.liveRow (tables : PostingTables) (id : PostingId) : Option LivePostingRow :=
  match tables.active.lookup id with
  | some posting => some ⟨posting.toRow, none⟩
  | none => (tables.reserved.lookup id).map fun entry => ⟨entry.1.toRow, some entry.2.id⟩

/-- Both stores record the same postings, and the same ones are active or
reserved, by the same reservations. -/
structure SamePostings (store : SqlPostings) (tables : PostingTables) : Prop where
  recorded : ∀ id : PostingId,
    store.postings.lookup id.key = (tables.immutable.lookup id).map Posting.toRow
  live : ∀ id : PostingId, store.live.lookup id.key = tables.liveRow id
  recordedKey : ∀ row ∈ store.postings.rows, ∃ id : PostingId, row.key = id.key
  liveKey : ∀ live ∈ store.live.rows, ∃ id : PostingId, live.key = id.key
  keyed : ∀ id posting, tables.immutable.lookup id = some posting → posting.id = id
  sound : tables.Sound

theorem samePostings_empty : SamePostings .empty ⟨∅, ∅, ∅⟩ where
  recorded _ := rfl
  live _ := rfl
  recordedKey _ hrow := by cases hrow
  liveKey _ hlive := by cases hlive
  keyed _ _ hlookup := by cases hlookup
  sound := PostingTables.sound_empty

omit [MoneyWidth] in
theorem matchesId_eq (id : PostingId) (row : PostingRow) :
    matchesId id row = decide (row.key = id.key) := by
  apply Bool.eq_iff_iff.mpr
  simp [matchesId, PostingRow.key, PostingId.key]

namespace SamePostings

variable {store : SqlPostings} {tables : PostingTables}

/-- The rows of the immutable table are those of the recorded postings. -/
theorem mem_postings_iff (hsame : SamePostings store tables) {row : PostingRow} :
    row ∈ store.postings.rows ↔
      ∃ posting, tables.immutable.lookup posting.id = some posting ∧ posting.toRow = row := by
  constructor
  · intro hrow
    obtain ⟨id, hkey⟩ := hsame.recordedKey row hrow
    have hlookup := Table.lookup_of_mem hrow
    rw [hkey, hsame.recorded] at hlookup
    obtain ⟨posting, hposting, rfl⟩ := Option.map_eq_some_iff.mp hlookup
    exact ⟨posting, (hsame.keyed id posting hposting).symm ▸ hposting, rfl⟩
  · rintro ⟨posting, hposting, rfl⟩
    have hlookup := hsame.recorded posting.id
    rw [hposting, Option.map_some] at hlookup
    exact (Table.lookup_eq_some_iff.mp hlookup).1

/-! ## One statement over the live table -/

section Live

variable (hsame : SamePostings store tables) (id : PostingId) (condition : Option Int64 → Bool)

include hsame in
theorem live_count :
    store.live.rows.countP (fun live => matchesId id live.row && condition live.reservation) =
      if (tables.liveRow id).any fun live => condition live.reservation then 1 else 0 := by
  rw [← hsame.live id, ← Table.countP_key]
  apply List.countP_congr
  intro live _
  rw [matchesId_eq]
  rfl

include hsame in
theorem live_lookup_update (set : LivePostingRow → LivePostingRow)
    (hkey : ∀ live, (set live).key = live.key) (other : PostingId) :
    (store.live.updateWhere (fun live => matchesId id live.row && condition live.reservation) set
      hkey).2.lookup other.key =
      if other = id then
        (tables.liveRow id).map fun live => if condition live.reservation then set live else live
      else tables.liveRow other := by
  rw [Table.lookup_updateWhere]
  have hmatch : ∀ live ∈ store.live.lookup other.key,
      matchesId id live.row = decide (other = id) := by
    intro live hlive
    have hlivekey : live.row.key = other.key := (Table.lookup_eq_some_iff.mp hlive).2
    rw [matchesId_eq, hlivekey]
    exact decide_eq_decide.mpr PostingId.key_inj
  split
  next heq =>
    subst heq
    rw [← hsame.live other]
    apply Option.map_congr
    intro live hlive
    simp [hmatch live hlive]
  next hne =>
    rw [← hsame.live other]
    cases hlookup : store.live.lookup other.key with
    | none => rfl
    | some live => simp [hmatch live hlookup, hne]

include hsame in
theorem live_lookup_delete (other : PostingId) :
    (store.live.deleteWhere fun live =>
      matchesId id live.row && condition live.reservation).2.lookup other.key =
      if other = id then
        (tables.liveRow id).filter fun live => !condition live.reservation
      else tables.liveRow other := by
  rw [Table.lookup_deleteWhere, hsame.live other]
  cases hlookup : tables.liveRow other with
  | none =>
      split
      next heq => rw [← heq, hlookup]; rfl
      next => rfl
  | some live =>
      have hlive := hsame.live other
      rw [hlookup] at hlive
      have hlivekey : live.row.key = other.key := (Table.lookup_eq_some_iff.mp hlive).2
      have hmatch : matchesId id live.row = decide (other = id) := by
        rw [matchesId_eq, hlivekey]
        exact decide_eq_decide.mpr PostingId.key_inj
      split
      next heq =>
        subst heq
        rw [hlookup]
        simp [Option.filter, hmatch]
      next hne => simp [Option.filter, hmatch, hne]

end Live

/-- Another live table, for tables with the same records. -/
theorem withLive (hsame : SamePostings store tables) {live : Table LivePostingRow.key}
    {next : PostingTables} (hlive : ∀ id : PostingId, live.lookup id.key = next.liveRow id)
    (hkeys : ∀ row ∈ live.rows, ∃ old ∈ store.live.rows, row.key = old.key)
    (himmutable : next.immutable = tables.immutable) (hsound : next.Sound) :
    SamePostings { store with live } next where
  recorded id := himmutable ▸ hsame.recorded id
  live := hlive
  recordedKey := hsame.recordedKey
  liveKey row hrow := by
    obtain ⟨old, hold, hkey⟩ := hkeys row hrow
    rw [hkey]
    exact hsame.liveKey old hold
  keyed id posting hlookup := hsame.keyed id posting (himmutable ▸ hlookup)
  sound := hsound

end SamePostings

/-! ## One id -/

namespace PostingTables

variable {tables : PostingTables} {id other : PostingId}

theorem liveRow_of_active {posting : Posting} (hactive : tables.active.lookup id = some posting) :
    tables.liveRow id = some ⟨posting.toRow, none⟩ := by
  simp only [liveRow, hactive]

theorem liveRow_of_reserved (hsound : tables.Sound) {posting : Posting}
    {reservation : ReservationId}
    (hreserved : tables.reserved.lookup id = some (posting, reservation)) :
    tables.liveRow id = some ⟨posting.toRow, some reservation.id⟩ := by
  have hinactive : tables.active.lookup id = none := by
    apply AList.lookup_eq_none.mpr
    intro hmem
    exact hsound.disjoint id hmem (HashMap.mem_iff_exists_lookup.mpr ⟨_, hreserved⟩)
  simp only [liveRow, hinactive, hreserved, Option.map_some]

theorem liveRow_cases {live : LivePostingRow} (hlive : tables.liveRow id = some live) :
    (live.reservation = none ∧ id ∈ tables.active) ∨
      ∃ posting reservation, tables.active.lookup id = none ∧
        tables.reserved.lookup id = some (posting, reservation) ∧
        live = ⟨posting.toRow, some reservation.id⟩ := by
  unfold liveRow at hlive
  split at hlive
  next posting hactive =>
    cases hlive
    exact .inl ⟨rfl, HashMap.mem_iff_exists_lookup.mpr ⟨posting, hactive⟩⟩
  next hinactive =>
    obtain ⟨⟨posting, reservation⟩, hreserved, rfl⟩ := Option.map_eq_some_iff.mp hlive
    exact .inr ⟨posting, reservation, hinactive, hreserved, rfl⟩

theorem liveRow_active_iff :
    ((tables.liveRow id).any fun live => live.reservation = none) = true ↔ id ∈ tables.active := by
  constructor
  · intro hany
    obtain ⟨live, hlive, hnone⟩ := (Option.any_eq_true _ _).mp hany
    obtain ⟨_, hmem⟩ | ⟨_, _, _, _, rfl⟩ := liveRow_cases hlive
    · exact hmem
    · exact absurd (of_decide_eq_true hnone) nofun
  · intro hmem
    obtain ⟨posting, hactive⟩ := HashMap.mem_iff_exists_lookup.mp hmem
    rw [liveRow_of_active hactive]
    rfl

theorem liveRow_reserved_iff (hsound : tables.Sound) {reservation : ReservationId} :
    ((tables.liveRow id).any fun live => live.reservation = some reservation.id) = true ↔
      ∃ posting, tables.reserved.lookup id = some (posting, reservation) := by
  constructor
  · intro hany
    obtain ⟨live, hlive, howner⟩ := (Option.any_eq_true _ _).mp hany
    obtain ⟨hnone, _⟩ | ⟨posting, owner, _, hreserved, rfl⟩ := liveRow_cases hlive
    · exact absurd (hnone.symm.trans (of_decide_eq_true howner)) nofun
    · have hid : owner = reservation := by
        cases owner
        cases reservation
        simpa using howner
      exact ⟨posting, hid ▸ hreserved⟩
  · rintro ⟨posting, hreserved⟩
    rw [liveRow_of_reserved hsound hreserved]
    exact decide_eq_true rfl

/-- Without a record a posting is not live. -/
theorem liveRow_of_new (hsound : tables.Sound) (hnew : id ∉ tables.immutable) :
    tables.liveRow id = none := by
  have himmutable := AList.lookup_eq_none.mpr hnew
  cases hlive : tables.liveRow id with
  | none => rfl
  | some live =>
      obtain ⟨_, hmem⟩ | ⟨_, _, _, hreserved, _⟩ := liveRow_cases hlive
      · obtain ⟨posting, hactive⟩ := HashMap.mem_iff_exists_lookup.mp hmem
        exact absurd ((hsound.active id posting hactive).symm.trans himmutable) nofun
      · exact absurd ((hsound.reserved id _ _ hreserved).symm.trans himmutable) nofun

theorem liveRow_congr {next : PostingTables}
    (hactive : next.active.lookup id = tables.active.lookup id)
    (hreserved : next.reserved.lookup id = tables.reserved.lookup id) :
    next.liveRow id = tables.liveRow id := by
  simp only [liveRow, hactive, hreserved]

end PostingTables

/-- The statement changed one row and the tables took the step, or neither did
anything. -/
def Matches {State : Type} (Rel : State → PostingTables → Prop) (result : Nat × State)
    (tables : PostingTables) : Option PostingTables → Prop
  | some next => result.1 = 1 ∧ Rel result.2 next
  | none => result.1 = 0 ∧ Rel result.2 tables

/-- Statements that match the steps item by item match a whole list, with the
same count. -/
theorem forEach_applyEach {State α : Type} {Rel : State → PostingTables → Prop}
    {statement : α → State → Nat × State} {step : PostingTables → α → Option PostingTables}
    (hstep : ∀ item state tables, Rel state tables →
      Matches Rel (statement item state) tables (step tables item))
    (items : List α) {state : State} {tables : PostingTables} (hrel : Rel state tables) :
    (forEach statement items state).1 = (tables.applyEach step items).1 ∧
      Rel (forEach statement items state).2 (tables.applyEach step items).2 := by
  suffices ∀ count, count + (forEach statement items state).1 =
      (items.foldl (fun state item => match step state.2 item with
        | some next => (state.1 + 1, next)
        | none => state) (count, tables)).1 ∧
      Rel (forEach statement items state).2
        (items.foldl (fun state item => match step state.2 item with
          | some next => (state.1 + 1, next)
          | none => state) (count, tables)).2 by
    have h := this 0
    rw [Nat.zero_add] at h
    exact h
  induction items generalizing state tables with
  | nil => exact fun count => ⟨rfl, hrel⟩
  | cons item items ih =>
      intro count
      have hitem := hstep item state tables hrel
      rw [forEach_cons, List.foldl_cons, ← Nat.add_assoc]
      cases hnext : step tables item with
      | none =>
          rw [hnext] at hitem
          rw [hitem.1]
          exact ih hitem.2 count
      | some next =>
          rw [hnext] at hitem
          rw [hitem.1]
          exact ih hitem.2 (count + 1)

namespace SamePostings

variable {postings : Table PostingRow.key} {live : Table LivePostingRow.key}
  {tables : PostingTables}

theorem matches_claim (reservation : ReservationId) (id : PostingId)
    (hsame : SamePostings ⟨postings, live⟩ tables) :
    Matches (fun live tables => SamePostings ⟨postings, live⟩ tables)
      (live.updateWhere (fun live => matchesId id live.row && live.reservation = none)
        (fun live => { live with reservation := some reservation.id }) fun _ => rfl)
      tables (tables.claim reservation id) := by
  have hcount := hsame.live_count id (· = none)
  have hlookup := hsame.live_lookup_update id (· = none)
    (fun live => { live with reservation := some reservation.id }) fun _ => rfl
  cases hactive : tables.active.lookup id with
  | some posting =>
      rw [PostingTables.liveRow_of_active hactive] at hcount hlookup
      have hclaim : tables.claim reservation id = some { tables with
          active := tables.active.erase id
          reserved := tables.reserved.insert id (posting, reservation) } := by
        rw [PostingTables.claim, hactive, Option.map_some]
      rw [hclaim]
      refine ⟨hcount, hsame.withLive (fun other => ?_) (fun _ => Table.key_of_mem_update) rfl
        ((PostingTables.step_of_claim hclaim).sound hsame.sound)⟩
      rw [hlookup]
      by_cases hother : other = id
      · subst hother
        simp [PostingTables.liveRow]
      · rw [if_neg hother]
        apply (PostingTables.liveRow_congr _ _).symm
        · rw [HashMap.lookup_erase_eq, if_neg hother]
        · rw [HashMap.lookup_insert_eq, if_neg hother]
  | none =>
      have hclaim : tables.claim reservation id = none := by
        rw [PostingTables.claim, hactive, Option.map_none]
      rw [hclaim]
      rw [if_neg (PostingTables.liveRow_active_iff.not.mpr (AList.lookup_eq_none.mp hactive))]
        at hcount
      exact ⟨hcount, Table.updateWhere_of_countP_eq_zero hcount ▸ hsame⟩

theorem matches_unclaim (reservation : ReservationId) (id : PostingId)
    (hsame : SamePostings ⟨postings, live⟩ tables) :
    Matches (fun live tables => SamePostings ⟨postings, live⟩ tables)
      (live.updateWhere
        (fun live => matchesId id live.row && live.reservation = some reservation.id)
        (fun live => { live with reservation := none }) fun _ => rfl)
      tables (tables.unclaim reservation id) := by
  have hcount := hsame.live_count id (· = some reservation.id)
  have hlookup := hsame.live_lookup_update id (· = some reservation.id)
    (fun live => { live with reservation := none }) fun _ => rfl
  by_cases hheld : ∃ posting, tables.reserved.lookup id = some (posting, reservation)
  · obtain ⟨posting, hreserved⟩ := hheld
    have hunclaim : tables.unclaim reservation id = some { tables with
        active := tables.active.insert id posting
        reserved := tables.reserved.erase id } := by
      rw [PostingTables.unclaim, hreserved]
      exact if_pos rfl
    rw [PostingTables.liveRow_of_reserved hsame.sound hreserved] at hcount hlookup
    rw [hunclaim]
    rw [Option.any_some, if_pos (decide_eq_true rfl)] at hcount
    refine ⟨hcount, hsame.withLive (fun other => ?_) (fun _ => Table.key_of_mem_update) rfl
      ((PostingTables.step_of_unclaim hunclaim).sound hsame.sound)⟩
    rw [hlookup]
    by_cases hother : other = id
    · subst hother
      simp [PostingTables.liveRow]
    · rw [if_neg hother]
      apply (PostingTables.liveRow_congr _ _).symm
      · rw [HashMap.lookup_insert_eq, if_neg hother]
      · rw [HashMap.lookup_erase_eq, if_neg hother]
  · have hunclaim : tables.unclaim reservation id = none := by
      unfold PostingTables.unclaim
      split
      next posting owner hreserved =>
        rw [if_neg]
        rintro rfl
        exact hheld ⟨posting, hreserved⟩
      next => rfl
    rw [hunclaim]
    rw [if_neg ((PostingTables.liveRow_reserved_iff hsame.sound).not.mpr hheld)] at hcount
    exact ⟨hcount, Table.updateWhere_of_countP_eq_zero hcount ▸ hsame⟩

theorem matches_spend_active (id : PostingId) (hsame : SamePostings ⟨postings, live⟩ tables) :
    Matches (fun live tables => SamePostings ⟨postings, live⟩ tables)
      (live.deleteWhere fun live => matchesId id live.row && live.reservation = none)
      tables (tables.spend none id) := by
  have hcount := hsame.live_count id (· = none)
  have hlookup := hsame.live_lookup_delete id (· = none)
  by_cases hmem : id ∈ tables.active
  · obtain ⟨posting, hactive⟩ := HashMap.mem_iff_exists_lookup.mp hmem
    have hspend : tables.spend none id = some { tables with active := tables.active.erase id } :=
      if_pos hmem
    have hunreserved : tables.reserved.lookup id = none :=
      AList.lookup_eq_none.mpr (hsame.sound.disjoint id hmem)
    rw [PostingTables.liveRow_of_active hactive] at hcount hlookup
    rw [hspend]
    refine ⟨hcount, hsame.withLive (fun other => ?_) (fun _ => Table.key_of_mem_delete) rfl
      ((PostingTables.step_of_spend hspend).sound hsame.sound)⟩
    rw [hlookup]
    by_cases hother : other = id
    · subst hother
      simp [PostingTables.liveRow, hunreserved]
    · rw [if_neg hother]
      symm
      apply PostingTables.liveRow_congr
      · rw [HashMap.lookup_erase_eq, if_neg hother]
      · rfl
  · have hspend : tables.spend none id = none := if_neg hmem
    rw [hspend]
    rw [if_neg (PostingTables.liveRow_active_iff.not.mpr hmem)] at hcount
    exact ⟨hcount, Table.deleteWhere_of_countP_eq_zero hcount ▸ hsame⟩

theorem matches_spend_reserved (reservation : ReservationId) (id : PostingId)
    (hsame : SamePostings ⟨postings, live⟩ tables) :
    Matches (fun live tables => SamePostings ⟨postings, live⟩ tables)
      (live.deleteWhere fun live =>
        matchesId id live.row && live.reservation = some reservation.id)
      tables (tables.spend (some reservation) id) := by
  have hcount := hsame.live_count id (· = some reservation.id)
  have hlookup := hsame.live_lookup_delete id (· = some reservation.id)
  by_cases hheld : ∃ posting, tables.reserved.lookup id = some (posting, reservation)
  · obtain ⟨posting, hreserved⟩ := hheld
    have hspend : tables.spend (some reservation) id =
        some { tables with reserved := tables.reserved.erase id } := by
      rw [PostingTables.spend, hreserved]
      exact if_pos rfl
    have hinactive : tables.active.lookup id = none := by
      apply AList.lookup_eq_none.mpr
      intro hmem
      exact hsame.sound.disjoint id hmem (HashMap.mem_iff_exists_lookup.mpr ⟨_, hreserved⟩)
    rw [PostingTables.liveRow_of_reserved hsame.sound hreserved] at hcount hlookup
    rw [hspend]
    rw [Option.any_some, if_pos (decide_eq_true rfl)] at hcount
    refine ⟨hcount, hsame.withLive (fun other => ?_) (fun _ => Table.key_of_mem_delete) rfl
      ((PostingTables.step_of_spend hspend).sound hsame.sound)⟩
    rw [hlookup]
    by_cases hother : other = id
    · subst hother
      simp [PostingTables.liveRow, hinactive]
    · rw [if_neg hother]
      symm
      apply PostingTables.liveRow_congr
      · rfl
      · rw [HashMap.lookup_erase_eq, if_neg hother]
  · have hspend : tables.spend (some reservation) id = none := by
      simp only [PostingTables.spend]
      split
      next posting owner hreserved =>
        rw [if_neg]
        rintro rfl
        exact hheld ⟨posting, hreserved⟩
      next => rfl
    rw [hspend]
    rw [if_neg ((PostingTables.liveRow_reserved_iff hsame.sound).not.mpr hheld)] at hcount
    exact ⟨hcount, Table.deleteWhere_of_countP_eq_zero hcount ▸ hsame⟩

theorem matches_add {store : SqlPostings} (posting : Posting)
    (hsame : SamePostings store tables) :
    Matches SamePostings (store.insertPosting posting) tables (tables.add posting) := by
  have hrecorded := hsame.recorded posting.id
  have hinserted := Table.insertIgnore_count posting.toRow store.postings
  rw [Posting.key_toRow, hrecorded] at hinserted
  by_cases hmem : posting.id ∈ tables.immutable
  · obtain ⟨recorded, hlookup⟩ := HashMap.mem_iff_exists_lookup.mp hmem
    have hadd : tables.add posting = none := if_pos hmem
    -- the id is taken in both stores, and neither changes
    have htaken : store.postings.insertIgnore posting.toRow = (0, store.postings) := by
      apply Table.insertIgnore_of_taken
      rw [Posting.key_toRow, hrecorded, hlookup]
      rfl
    rw [hadd, SqlPostings.insertPosting, htaken]
    exact ⟨rfl, hsame⟩
  · have hadd : tables.add posting = some { tables with
        immutable := tables.immutable.insert posting.id posting
        active := tables.active.insert posting.id posting } := if_neg hmem
    have hone : (store.postings.insertIgnore posting.toRow).1 = 1 := by
      rw [hinserted, AList.lookup_eq_none.mpr hmem]
      rfl
    have hinsert : store.insertPosting posting =
        (1, { postings := (store.postings.insertIgnore posting.toRow).2
              live := (store.live.insertIgnore ⟨posting.toRow, none⟩).2 }) := if_pos hone
    rw [hadd, hinsert]
    refine ⟨rfl, fun other => ?_, fun other => ?_, ?_, ?_, ?_,
      (PostingTables.step_of_add hadd).sound hsame.sound⟩
    · rw [Table.lookup_insertIgnore, hsame.recorded, Posting.key_toRow, HashMap.lookup_insert_eq]
      by_cases hother : other = posting.id
      · subst hother
        simp [AList.lookup_eq_none.mpr hmem]
      · rw [if_neg (PostingId.key_inj.not.mpr hother), if_neg hother, Option.or_none]
    · rw [Table.lookup_insertIgnore, hsame.live]
      change (tables.liveRow other).or (if other.key = posting.id.key then _ else none) = _
      by_cases hother : other = posting.id
      · subst hother
        -- a new posting has had no live row
        rw [PostingTables.liveRow_of_new hsame.sound hmem, if_pos rfl, Option.none_or]
        exact (PostingTables.liveRow_of_active (AList.lookup_insert _)).symm
      · rw [if_neg (PostingId.key_inj.not.mpr hother), Option.or_none]
        symm
        apply PostingTables.liveRow_congr
        · rw [HashMap.lookup_insert_eq, if_neg hother]
        · rfl
    · intro row hrow
      rcases Table.eq_or_mem_of_mem_insertIgnore hrow with rfl | hold
      · exact ⟨posting.id, rfl⟩
      · exact hsame.recordedKey row hold
    · intro live hlive
      rcases Table.eq_or_mem_of_mem_insertIgnore hlive with rfl | hold
      · exact ⟨posting.id, rfl⟩
      · exact hsame.liveKey live hold
    · intro other recorded hlookup
      rw [HashMap.lookup_insert_eq] at hlookup
      split at hlookup
      next heq =>
        cases hlookup
        exact heq.symm
      next => exact hsame.keyed other recorded hlookup

end SamePostings

end Kuatia
