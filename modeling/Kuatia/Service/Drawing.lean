import Kuatia.Ledger.Accounts
import Kuatia.Ledger.Drawing
import Kuatia.Ledger.Overdraft
import Kuatia.Service.Runs

/-! # What the calls of the service store

An authorization stores a transfer that pays the movements of its trade into the
holds. A confirm or a void stores transfers of one movement each, out of a hold
that an authorize transfer names. Both are drawn up from states that the run has
passed through.
-/

namespace Kuatia

open Async Interleaving LedgerM

variable [MoneyWidth] [Sha256] [Cbor]

/-! ## The transfers of an inflight -/

/-- The envelope parks the funds of a trade. -/
def Parks (seen : World → Prop) (transfer : Transfer) (envelope : Envelope) : Prop :=
  ∃ payload,
    encodeMeta (.authorize (transfer.movements.map (legOf (inflightSubaccount transfer)))) =
        .ok payload ∧
      Drawn seen (parkingTransfer transfer (inflightSubaccount transfer) payload) envelope

/-- The transfer that pays an amount out of a hold. -/
def settlingTransfer (book : BookId) (hold target : AccountId) (asset : AssetId) (amount : Cent)
    (metadata : Metadata) : Transfer :=
  { movements := [⟨hold, target, asset, amount⟩], book, metadata }

/-- The envelope settles an inflight: it pays out of one of its holds what the
legs let out. -/
structure Settles (seen : World → Prop) (inflight : EnvelopeId) (record : EnvelopeRecord)
    (legs : List InflightLeg) (hold target : AccountId) (asset : AssetId) (role : SettleRole)
    (envelope : Envelope) : Prop where
  found : Found seen inflight record legs
  payable : ∃ destination, Payable legs hold target destination asset role ∧
    readMeta envelope.metadata = some (role.payload inflight destination)
  drawn : ∃ amount, Drawn seen
    (settlingTransfer record.envelope.book hold target asset amount envelope.metadata) envelope

section Envelopes

variable {seen : World → Prop} {transfer : Transfer} {envelope : Envelope} {inflight : EnvelopeId}
  {record : EnvelopeRecord} {legs : List InflightLeg} {hold target : AccountId} {asset : AssetId}
  {role : SettleRole}

theorem Parks.payload (hparks : Parks seen transfer envelope) : readMeta envelope.metadata =
    some (.authorize (transfer.movements.map (legOf (inflightSubaccount transfer)))) := by
  obtain ⟨payload, hpayload, hdrawn⟩ := hparks
  rw [hdrawn.metadata]
  exact readMeta_of_encodeMeta hpayload _

/-- Parking credits the holds, and gives change to the funders. -/
theorem Parks.creates (hparks : Parks seen transfer envelope) : ∃ extra,
    envelope.creates = transfer.movements.map (fun movement =>
      (parked (inflightSubaccount transfer) movement).credit) ++ extra ∧
      ∀ posting ∈ extra, ∃ movement ∈ transfer.movements,
        posting.owner = movement.fromAccount := by
  obtain ⟨payload, _, hdrawn⟩ := hparks
  obtain ⟨extra, hcreates, _, hextra⟩ := hdrawn.creates
  refine ⟨extra, by rw [hcreates, parkingTransfer, List.map_map]; rfl, ?_⟩
  intro posting hposting
  obtain ⟨moved, hmoved, hsource⟩ := exists_source_of_outgoing (hextra posting hposting).1
  obtain ⟨movement, hmovement, rfl⟩ := List.mem_map.mp hmoved
  exact ⟨movement, hmovement, (congrArg Prod.fst hsource).symm⟩

/-- Parking takes from the funders only. -/
theorem Parks.consumes (hparks : Parks seen transfer envelope) {id : PostingId}
    (hid : id ∈ envelope.consumes) : ∃ world posting, seen world ∧
      world.store.postings.active.lookup id = some posting ∧
      ∃ movement ∈ transfer.movements, posting.owner = movement.fromAccount := by
  obtain ⟨payload, _, hdrawn⟩ := hparks
  obtain ⟨world, posting, hseen, hactive, hpositive⟩ := hdrawn.consumes id hid
  obtain ⟨moved, hmoved, hsource⟩ := exists_source_of_outgoing hpositive
  obtain ⟨movement, hmovement, rfl⟩ := List.mem_map.mp hmoved
  exact ⟨world, posting, hseen, hactive, movement, hmovement, (congrArg Prod.fst hsource).symm⟩

omit [Sha256] in
theorem Settles.creates
    (hsettles : Settles seen inflight record legs hold target asset role envelope) :
    envelope.creates.length ≤ 2 ∧ ∀ posting ∈ envelope.creates, posting.asset = asset ∧
      (posting.owner = target ∨ posting.owner = hold) := by
  obtain ⟨amount, hdrawn⟩ := hsettles.drawn
  obtain ⟨extra, hcreates, hfew, hextra⟩ := hdrawn.creates
  rw [hcreates]
  constructor
  · rw [List.length_append, List.length_map]
    exact Nat.add_le_add_left hfew 1
  · intro posting hposting
    rcases List.mem_append.mp hposting with hcredit | hmore
    · rw [List.mem_singleton.mp hcredit]
      exact ⟨rfl, .inl rfl⟩
    · obtain ⟨movement, hmovement, hsource⟩ := exists_source_of_outgoing (hextra posting hmore).1
      rw [List.mem_singleton.mp hmovement] at hsource
      exact ⟨(congrArg Prod.snd hsource).symm, .inr (congrArg Prod.fst hsource).symm⟩

omit [Sha256] in
/-- Settling takes from the hold only. -/
theorem Settles.consumes
    (hsettles : Settles seen inflight record legs hold target asset role envelope) {id : PostingId}
    (hid : id ∈ envelope.consumes) : ∃ world posting, seen world ∧
      world.store.postings.active.lookup id = some posting ∧ posting.key = (hold, asset) := by
  obtain ⟨amount, hdrawn⟩ := hsettles.drawn
  obtain ⟨world, posting, hseen, hactive, hpositive⟩ := hdrawn.consumes id hid
  obtain ⟨movement, hmovement, hsource⟩ := exists_source_of_outgoing hpositive
  rw [List.mem_singleton.mp hmovement] at hsource
  exact ⟨world, posting, hseen, hactive, hsource.symm⟩

end Envelopes

/-! ## What each request commits -/

/-- What a call of the request may commit after it has seen such states. -/
def Draws (seen : World → Prop) : ServiceRequest → Envelope → Prop
  | .ledger _ | .runMovements _ => fun _ => True
  | .authorize transfer => Parks seen transfer
  | .confirmAll inflight | .confirm inflight _ | .void inflight => fun envelope =>
      ∃ record legs hold target asset role,
        Settles seen inflight record legs hold target asset role envelope
  | .inflightStatus _ => fun _ => False

variable {seen : World → Prop} (hseen : ∀ world, seen world → Consistent world.store)

include hseen

theorem settle_draws {inflight : EnvelopeId} {record : EnvelopeRecord} {legs : List InflightLeg}
    (hfound : Found seen inflight record legs) {hold target destination : AccountId}
    {asset : AssetId} {role : SettleRole}
    (hpayable : Payable legs hold target destination asset role) (amount : Cent) :
    Moves seen (fun envelope => ∃ record legs hold target asset role,
        Settles seen inflight record legs hold target asset role envelope) (fun _ => True)
      (settle record.envelope.book inflight hold target destination asset amount role) := by
  have hmap : Moves seen
      (fun envelope => ∃ record legs hold target asset role,
        Settles seen inflight record legs hold target asset role envelope)
      (fun metadata => readMeta metadata = some (role.payload inflight destination))
      (attempt (metaMap (role.payload inflight destination))) :=
    .attempt fun _ hmetadata => readMeta_of_metaMap hmetadata
  apply hmap.bind
  intro metadata hmetadata
  apply commit_draws hseen
  intro envelope hdrawn
  have hsame : envelope.metadata = metadata := hdrawn.metadata
  rw [← hsame] at hmetadata hdrawn
  exact ⟨record, legs, hold, target, asset, role, hfound, ⟨destination, hpayable, hmetadata⟩,
    amount, hdrawn⟩

/-- Every call commits what its request draws up. -/
theorem serve_draws (ledger : Ledger) :
    Commits ledger.serve (fun _ _ _ world => seen world) (Draws seen) := by
  have hmoves : ∀ request, Moves seen (Draws seen request) (fun _ => True)
      (ledger.serve request) := by
    intro request
    cases request with
    | ledger request =>
        exact .bind (.of_steps fun _ hwell => operation_steps ledger request hwell fun _ => trivial)
          fun _ _ => .pure trivial
    | authorize transfer =>
        refine .bind (authorize_moves fun payload hpayload => ?_) fun _ _ => .pure trivial
        exact commit_draws hseen fun envelope hdrawn => ⟨payload, hpayload, hdrawn⟩
    | confirmAll inflight =>
        refine .bind (confirmAll_moves ?_) fun _ _ => .pure trivial
        intro record legs hfound hold target destination asset amount role hpayable
        exact settle_draws hseen hfound hpayable amount
    | confirm inflight confirms =>
        refine .bind (confirm_moves ?_ confirms) fun _ _ => .pure trivial
        intro record legs hfound hold target destination asset amount role hpayable
        exact settle_draws hseen hfound hpayable amount
    | void inflight =>
        refine .bind (void_moves ?_) fun _ _ => .pure trivial
        intro record legs hfound hold target destination asset amount role hpayable
        exact settle_draws hseen hfound hpayable amount
    | inflightStatus inflight =>
        exact .bind (.of_readOnly (inflightStatus_readOnly inflight)) fun _ _ => .pure trivial
    | runMovements movements =>
        exact .bind (runMovements_moves (fun _ => trivial) movements) fun _ _ => .pure trivial
  exact fun request state hwell => hmoves request state hwell

end Kuatia
