import Kuatia.Storage.MemStoreLaws

/-! # The posting primitives of the store

Each primitive goes through a list of ids or postings, changes the tables for
those that qualify, and counts them. Every change is a small step of the tables:
claim, release, spend or add one posting.
-/

namespace Kuatia

variable [MoneyWidth]

/-- The state of a posting, read off the tables that have it. -/
inductive PostingState where
  | active
  | reserved (reservation : ReservationId)
  | spent
  | missing
  deriving DecidableEq

structure PostingQuery where
  account : Int64
  sub : Option Int64
  asset : Option AssetId
  filter : PostingFilter
  limit : Option UInt32
  offset : Option UInt32

namespace PostingTables

/-- Move an active posting to the reserved ones. -/
def claim (reservation : ReservationId) (tables : PostingTables) (id : PostingId) :
    Option PostingTables :=
  (tables.active.lookup id).map fun posting =>
    { tables with
      active := tables.active.erase id
      reserved := tables.reserved.insert id (posting, reservation) }

/-- Move a posting back that this reservation holds. -/
def unclaim (reservation : ReservationId) (tables : PostingTables) (id : PostingId) :
    Option PostingTables :=
  match tables.reserved.lookup id with
  | some (posting, owner) =>
      if owner = reservation then
        some { tables with
          active := tables.active.insert id posting
          reserved := tables.reserved.erase id }
      else none
  | none => none

/-- Remove a posting that is active, or that the reservation holds. -/
def spend (reservation : Option ReservationId) (tables : PostingTables) (id : PostingId) :
    Option PostingTables :=
  match reservation with
  | none =>
      if id ∈ tables.active then some { tables with active := tables.active.erase id } else none
  | some reservation =>
      match tables.reserved.lookup id with
      | some (_, owner) =>
          if owner = reservation then
            some { tables with reserved := tables.reserved.erase id }
          else none
      | none => none

/-- Record and activate a posting whose id is new. -/
def add (tables : PostingTables) (posting : Posting) : Option PostingTables :=
  if posting.id ∈ tables.immutable then none
  else some { tables with
    immutable := tables.immutable.insert posting.id posting
    active := tables.active.insert posting.id posting }

/-- Apply a step to each item in turn, and count the items that it applies to. -/
def applyEach {α : Type} (step : PostingTables → α → Option PostingTables) (items : List α)
    (tables : PostingTables) : Nat × PostingTables :=
  items.foldl (fun state item => match step state.2 item with
    | some next => (state.1 + 1, next)
    | none => state) (0, tables)

end PostingTables

namespace InMemoryStore

def getPostingStates (store : InMemoryStore) (ids : List PostingId) : List PostingState :=
  ids.map fun id =>
    if id ∈ store.postings.active then .active
    else match store.postings.reserved.lookup id with
      | some (_, reservation) => .reserved reservation
      | none => if id ∈ store.postings.immutable then .spent else .missing

def queryPostings (store : InMemoryStore) (order : IterationOrder) (query : PostingQuery) :
    Page Posting :=
  paginate (store.getPostingsByAccount order query.account query.sub query.asset query.filter)
    query.offset query.limit

def reservePostings (ids : List PostingId) (reservation : ReservationId) (store : InMemoryStore) :
    Nat × InMemoryStore :=
  let (reserved, postings) := store.postings.applyEach (PostingTables.claim reservation) ids
  (reserved, { store with postings })

def releasePostings (ids : List PostingId) (reservation : ReservationId) (store : InMemoryStore) :
    Nat × InMemoryStore :=
  let (released, postings) := store.postings.applyEach (PostingTables.unclaim reservation) ids
  (released, { store with postings })

def deactivatePostings (ids : List PostingId) (reservation : Option ReservationId)
    (store : InMemoryStore) : Nat × InMemoryStore :=
  let (changed, postings) := store.postings.applyEach (PostingTables.spend reservation) ids
  (changed, { store with postings })

def insertPostings (postings : List Posting) (store : InMemoryStore) : Nat × InMemoryStore :=
  let (inserted, postings) := store.postings.applyEach PostingTables.add postings
  (inserted, { store with postings })

end InMemoryStore

/-! ## What a step does -/

namespace PostingTables

/-- One change of the tables. -/
inductive Step : PostingTables → PostingTables → Prop where
  | claim {tables : PostingTables} {id : PostingId} {posting : Posting}
      (reservation : ReservationId) (hactive : tables.active.lookup id = some posting) :
      Step tables { tables with
        active := tables.active.erase id
        reserved := tables.reserved.insert id (posting, reservation) }
  | unclaim {tables : PostingTables} {id : PostingId} {posting : Posting}
      {reservation : ReservationId}
      (hreserved : tables.reserved.lookup id = some (posting, reservation)) :
      Step tables { tables with
        active := tables.active.insert id posting
        reserved := tables.reserved.erase id }
  | spendActive {tables : PostingTables} (id : PostingId) :
      Step tables { tables with active := tables.active.erase id }
  | spendReserved {tables : PostingTables} (id : PostingId) :
      Step tables { tables with reserved := tables.reserved.erase id }
  | add {tables : PostingTables} {posting : Posting} (hnew : posting.id ∉ tables.immutable) :
      Step tables { tables with
        immutable := tables.immutable.insert posting.id posting
        active := tables.active.insert posting.id posting }

abbrev Steps : PostingTables → PostingTables → Prop := Relation.ReflTransGen Step

variable {tables next : PostingTables}

theorem step_of_claim {reservation : ReservationId} {id : PostingId}
    (hclaim : tables.claim reservation id = some next) : Step tables next := by
  obtain ⟨posting, hactive, rfl⟩ := Option.map_eq_some_iff.mp hclaim
  exact .claim reservation hactive

theorem step_of_unclaim {reservation : ReservationId} {id : PostingId}
    (hunclaim : tables.unclaim reservation id = some next) : Step tables next := by
  unfold unclaim at hunclaim
  split at hunclaim
  next posting owner hreserved =>
    split at hunclaim
    next =>
      cases hunclaim
      exact .unclaim hreserved
    next => cases hunclaim
  next => cases hunclaim

theorem step_of_spend {reservation : Option ReservationId} {id : PostingId}
    (hspend : tables.spend reservation id = some next) : Step tables next := by
  cases reservation with
  | none =>
      simp only [spend] at hspend
      split at hspend
      next =>
        cases hspend
        exact .spendActive id
      next => cases hspend
  | some reservation =>
      simp only [spend] at hspend
      split at hspend
      next =>
        split at hspend
        next =>
          cases hspend
          exact .spendReserved id
        next => cases hspend
      next => cases hspend

theorem step_of_add {posting : Posting} (hadd : tables.add posting = some next) :
    Step tables next := by
  unfold add at hadd
  split at hadd
  next => cases hadd
  next hnew =>
    cases hadd
    exact .add hnew

theorem applyEach_snd_cons {α : Type} (step : PostingTables → α → Option PostingTables)
    (head : α) (tail : List α) (tables : PostingTables) :
    (tables.applyEach step (head :: tail)).2 =
      (((step tables head).getD tables).applyEach step tail).2 := by
  have hcount : ∀ (items : List α) (tables : PostingTables) (first second : Nat),
      (items.foldl (fun state item => match step state.2 item with
        | some next => (state.1 + 1, next)
        | none => state) (first, tables)).2 =
      (items.foldl (fun state item => match step state.2 item with
        | some next => (state.1 + 1, next)
        | none => state) (second, tables)).2 := by
    intro items
    induction items with
    | nil => exact fun _ _ _ => rfl
    | cons item items ih =>
        intro tables first second
        rw [List.foldl_cons, List.foldl_cons]
        cases hitem : step tables item with
        | none => exact ih tables first second
        | some next => exact ih next (first + 1) (second + 1)
  rw [applyEach, List.foldl_cons]
  cases hhead : step tables head with
  | none => rfl
  | some next => exact hcount tail next 1 0

theorem steps_applyEach {α : Type} {step : PostingTables → α → Option PostingTables}
    (hstep : ∀ tables item next, step tables item = some next → Step tables next)
    (items : List α) (tables : PostingTables) :
    Steps tables (tables.applyEach step items).2 := by
  suffices ∀ count, Steps tables (items.foldl (fun state item => match step state.2 item with
      | some next => (state.1 + 1, next)
      | none => state) (count, tables)).2 from this 0
  induction items generalizing tables with
  | nil => exact fun _ => .refl
  | cons head tail ih =>
      intro count
      rw [List.foldl_cons]
      cases hhead : step tables head with
      | none => exact ih tables count
      | some next => exact .head (hstep tables head next hhead) (ih next (count + 1))

/-! ## Sound tables -/

/-- A live posting is in one of the live sets, and it is the recorded one. -/
structure Sound (tables : PostingTables) : Prop where
  active : ∀ id posting, tables.active.lookup id = some posting →
    tables.immutable.lookup id = some posting
  reserved : ∀ id posting reservation, tables.reserved.lookup id = some (posting, reservation) →
    tables.immutable.lookup id = some posting
  disjoint : ∀ id ∈ tables.active, id ∉ tables.reserved

/-- The posting is recorded, and neither active nor reserved. -/
structure Spent (tables : PostingTables) (id : PostingId) : Prop where
  recorded : id ∈ tables.immutable
  inactive : id ∉ tables.active
  unreserved : id ∉ tables.reserved

theorem sound_empty : Sound ⟨∅, ∅, ∅⟩ where
  active _ _ hlookup := by cases hlookup
  reserved _ _ _ hlookup := by cases hlookup
  disjoint _ hmem := absurd hmem (AList.notMem_empty _)

theorem Step.sound (hstep : Step tables next) (hsound : Sound tables) : Sound next := by
  cases hstep with
  | @claim id posting reservation hactive =>
      constructor
      · intro other recorded hlookup
        rw [HashMap.lookup_erase_eq] at hlookup
        split at hlookup
        next => cases hlookup
        next => exact hsound.active other recorded hlookup
      · intro other recorded owner hlookup
        rw [HashMap.lookup_insert_eq] at hlookup
        split at hlookup
        next heq =>
          cases hlookup
          exact heq ▸ hsound.active id posting hactive
        next => exact hsound.reserved other recorded owner hlookup
      · intro other hmem hreserved
        obtain ⟨hne, hmem⟩ := AList.mem_erase.mp hmem
        exact hsound.disjoint other hmem ((AList.mem_insert _).mp hreserved |>.resolve_left hne)
  | @unclaim id posting reservation hreserved =>
      constructor
      · intro other recorded hlookup
        rw [HashMap.lookup_insert_eq] at hlookup
        split at hlookup
        next heq =>
          cases hlookup
          exact heq ▸ hsound.reserved id posting reservation hreserved
        next => exact hsound.active other recorded hlookup
      · intro other recorded owner hlookup
        rw [HashMap.lookup_erase_eq] at hlookup
        split at hlookup
        next => cases hlookup
        next => exact hsound.reserved other recorded owner hlookup
      · intro other hmem hother
        obtain ⟨hne, hother⟩ := AList.mem_erase.mp hother
        exact hsound.disjoint other ((AList.mem_insert _).mp hmem |>.resolve_left hne) hother
  | spendActive id =>
      refine ⟨fun other recorded hlookup => ?_, hsound.reserved, fun other hmem => ?_⟩
      · rw [HashMap.lookup_erase_eq] at hlookup
        split at hlookup
        next => cases hlookup
        next => exact hsound.active other recorded hlookup
      · exact hsound.disjoint other (AList.mem_erase.mp hmem).2
  | spendReserved id =>
      refine ⟨hsound.active, fun other recorded owner hlookup => ?_, fun other hmem hother => ?_⟩
      · rw [HashMap.lookup_erase_eq] at hlookup
        split at hlookup
        next => cases hlookup
        next => exact hsound.reserved other recorded owner hlookup
      · exact hsound.disjoint other hmem (AList.mem_erase.mp hother).2
  | @add posting hnew =>
      -- the new record is under a free id, so it hides no other
      have hrecorded : ∀ other recorded, tables.immutable.lookup other = some recorded →
          (tables.immutable.insert posting.id posting).lookup other = some recorded := by
        intro other recorded hlookup
        rw [HashMap.lookup_insert_eq, if_neg, hlookup]
        rintro rfl
        exact hnew (HashMap.mem_iff_exists_lookup.mpr ⟨recorded, hlookup⟩)
      constructor
      · intro other recorded hlookup
        rw [HashMap.lookup_insert_eq] at hlookup
        split at hlookup
        next heq =>
          rw [HashMap.lookup_insert_eq, if_pos heq]
          exact hlookup
        next => exact hrecorded other recorded (hsound.active other recorded hlookup)
      · exact fun other recorded owner hlookup =>
          hrecorded other recorded (hsound.reserved other recorded owner hlookup)
      · intro other hmem hother
        rcases (AList.mem_insert _).mp hmem with rfl | hmem
        · obtain ⟨⟨recorded, owner⟩, hlookup⟩ := HashMap.mem_iff_exists_lookup.mp hother
          exact hnew (HashMap.mem_iff_exists_lookup.mpr
            ⟨recorded, hsound.reserved _ recorded owner hlookup⟩)
        · exact hsound.disjoint other hmem hother

/-- A spent posting stays spent. -/
theorem Step.spent (hstep : Step tables next) {id : PostingId} (hspent : Spent tables id) :
    Spent next id := by
  cases hstep with
  | @claim other posting reservation hactive =>
      refine ⟨hspent.recorded, fun hmem => hspent.inactive (AList.mem_erase.mp hmem).2, ?_⟩
      intro hmem
      rcases (AList.mem_insert _).mp hmem with rfl | hmem
      · exact hspent.inactive (HashMap.mem_iff_exists_lookup.mpr ⟨posting, hactive⟩)
      · exact hspent.unreserved hmem
  | @unclaim other posting reservation hreserved =>
      refine ⟨hspent.recorded, ?_, fun hmem => hspent.unreserved (AList.mem_erase.mp hmem).2⟩
      intro hmem
      rcases (AList.mem_insert _).mp hmem with rfl | hmem
      · exact hspent.unreserved (HashMap.mem_iff_exists_lookup.mpr ⟨_, hreserved⟩)
      · exact hspent.inactive hmem
  | spendActive =>
      exact ⟨hspent.recorded, fun hmem => hspent.inactive (AList.mem_erase.mp hmem).2,
        hspent.unreserved⟩
  | spendReserved =>
      exact ⟨hspent.recorded, hspent.inactive,
        fun hmem => hspent.unreserved (AList.mem_erase.mp hmem).2⟩
  | @add posting hnew =>
      refine ⟨(AList.mem_insert _).mpr (.inr hspent.recorded), ?_, hspent.unreserved⟩
      intro hmem
      rcases (AList.mem_insert _).mp hmem with rfl | hmem
      · exact hnew hspent.recorded
      · exact hspent.inactive hmem

theorem Steps.sound (hsteps : Steps tables next) (hsound : Sound tables) : Sound next := by
  induction hsteps with
  | refl => exact hsound
  | tail _ hstep ih => exact hstep.sound ih

theorem Steps.spent (hsteps : Steps tables next) {id : PostingId} (hspent : Spent tables id) :
    Spent next id := by
  induction hsteps with
  | refl => exact hspent
  | tail _ hstep ih => exact hstep.spent ih

end PostingTables

end Kuatia
