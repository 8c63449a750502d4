import Kuatia.Core.Specification
import Kuatia.Ledger.Crowded

/-! # The ids of what a plan creates

A created posting is numbered by its position, cast to a `u16`. The numbers of
at most 65536 postings are distinct, and applying the plan then adds the very
postings that the envelope creates.
-/

namespace Kuatia

section Theory

variable [MoneyWidth] [Sha256]

/-- Wherever the ledger applies the plan, it replaces the consumed postings by as
many live postings as the envelope creates, worth as much in every asset. -/
def Plan.AddsExactly (plan : Plan) (creates : List NewPosting) : Prop :=
  ∀ (ledger : Ledger) (actions : List LedgerAction) (order : IterationOrder) (clock : Clock)
    (req : CommitRequest) (next : InMemoryStore), req.transferId = plan.transferId →
    req.consume = plan.postingsToDeactivate → req.create = plan.postingsToCreate →
    (storeAfter ledger actions).commitEnvelope order clock req =
      (.ok (.committed req.record.receipt), next) →
    next.livePostings.length + plan.postingsToDeactivate.length =
      (storeAfter ledger actions).livePostings.length + creates.length ∧
    ∀ asset, next.liveTotal asset + keyTotal Posting.asset Posting.value
        ((storeAfter ledger actions).activeOf plan.postingsToDeactivate) asset =
      (storeAfter ledger actions).liveTotal asset +
        keyTotal NewPosting.asset NewPosting.value creates asset

omit [Sha256] in
/-- Created postings with distinct ids are all active afterwards, beside what is
left of the earlier ones. -/
theorem livePostings_of_created {store : InMemoryStore} {order : IterationOrder} (clock : Clock)
    {req : CommitRequest} {creates : List NewPosting} (hconsistent : Consistent store)
    (hnodup : req.consume.Nodup) (hcreate : req.create = createdPostings req.transferId creates)
    (hindex : creates.length ≤ 65536) (hfresh : req.transferId ∉ store.transfers)
    (hguards : store.commitGuards order req = .ok ()) :
    ∃ rest, store.livePostings.Perm (store.activeOf req.consume ++ rest) ∧
      (store.applyCommit clock req).livePostings.Perm (req.create ++ rest) := by
  obtain ⟨rest, hbefore, hafter⟩ :=
    active_values_of_created clock hconsistent hnodup hcreate hfresh hguards
  have hreserved : (store.applyCommit clock req).postings.reserved = ∅ := by
    rw [InMemoryStore.applyCommit_reserved, hconsistent.reserved]
  have hdistinct : (req.create.map (·.id)).Nodup := by
    rw [hcreate]
    exact nodup_map_id_createdPostings hindex
  refine ⟨rest, ?_, ?_⟩
  · rwa [InMemoryStore.livePostings_of_reserved hconsistent.reserved]
  · rw [InMemoryStore.livePostings_of_reserved hreserved]
    exact hafter.trans ((activated_perm hdistinct).append_right rest)

omit [Sha256] in
theorem assetTotal_createdPostings (tid : EnvelopeId) (creates : List NewPosting)
    (asset : AssetId) :
    keyTotal Posting.asset Posting.value (createdPostings tid creates) asset =
      keyTotal NewPosting.asset NewPosting.value creates asset := by
  rw [keyTotal_eq_sum, keyTotal_eq_sum]
  exact congrArg List.sum (map_createdPostings _ _ fun _ other value =>
    if other = asset then value.val else 0)

theorem addsExactly_of_index {envelope : Envelope} (hnodup : envelope.consumes.Nodup)
    (hindex : envelope.creates.length ≤ 65536) :
    (planOf envelope).AddsExactly envelope.creates := by
  intro ledger actions order clock req next htid hconsume hcreate hcommit
  have hconsistent := consistent_after ledger actions
  obtain ⟨_, hrefused⟩ | ⟨hfresh, hguards, heq⟩ :=
    (storeAfter ledger actions).commitEnvelope_cases order clock req
  · exact absurd (congrArg Prod.fst hcommit) (hrefused _)
  have hnext : next = (storeAfter ledger actions).applyCommit clock req :=
    (congrArg Prod.snd hcommit).symm.trans (congrArg Prod.snd heq)
  have hcreated : req.create = createdPostings req.transferId envelope.creates := by
    rw [hcreate, htid]
    rfl
  have hdistinct : req.consume.Nodup := by
    rw [hconsume]
    exact hnodup
  obtain ⟨rest, hbefore, hafter⟩ :=
    livePostings_of_created clock hconsistent hdistinct hcreated hindex hfresh hguards
  obtain ⟨_, hactive, _⟩ := InMemoryStore.commitGuards_eq_ok_iff.mp hguards
  rw [InMemoryStore.doubleSpendGuard_eq_ok_iff] at hactive
  have hspent := (HashMap.forall₂_filterMap_lookup hactive).length_eq
  subst hnext
  rw [← hconsume]
  constructor
  · have hlength : req.create.length = envelope.creates.length := by
      rw [hcreated, createdPostings, List.length_mapIdx]
    rw [hbefore.length_eq, hafter.length_eq, List.length_append, List.length_append, hlength,
      InMemoryStore.activeOf, ← hspent]
    omega
  · intro asset
    rw [InMemoryStore.liveTotal, InMemoryStore.liveTotal, keyTotal_perm hbefore,
      keyTotal_perm hafter, keyTotal_append, keyTotal_append, hcreated,
      assetTotal_createdPostings]
    omega

/-- The plan of an accepted envelope creates distinct postings, and adds exactly
them wherever it is applied, as long as their positions fit a `u16`. -/
theorem plan_distinct_iff (order : IterationOrder) (input : PlanInput) (plan : Plan)
    (hplan : validateAndPlan order input = .ok plan) :
    ((plan.postingsToCreate.map (·.id)).Nodup ∧ plan.AddsExactly input.envelope.creates) ↔
      input.envelope.creates.length ≤ 65536 := by
  obtain ⟨⟨consumed, hchecked⟩, rfl⟩ := validateAndPlan_eq_ok_iff.mp hplan
  constructor
  · rintro ⟨hdistinct, _⟩
    rw [planOf, map_id_createdPostings] at hdistinct
    exact length_le_of_nodup_createdPostingIds hdistinct
  · intro hindex
    exact ⟨nodup_map_id_createdPostings hindex, addsExactly_of_index hchecked.nodup hindex⟩

end Theory

namespace Sample

/-- The crowded transfer with the accounts it needs. -/
def crowdedInput : PlanInput where
  envelope := crowd bob bob
  consumedPostings := []
  accounts := HashMap.insertAll ∅ (·.id) [.new external, .new bob]
  balances := ∅
  book := none

theorem lookup_crowdedInput : crowdedInput.accounts.lookup external = some (.new external) ∧
    crowdedInput.accounts.lookup bob = some (.new bob) := by
  decide +kernel

theorem crowdedInput_conforms : crowdedInput.Conforms := by
  have howner : ∀ owner ∈ (crowd bob bob).creates.map (·.owner) ++ [],
      crowdedInput.accounts.lookup owner = some (.new owner) := by
    intro owner hmem
    rw [List.append_nil] at hmem
    obtain ⟨posting, hposting, rfl⟩ := List.mem_map.mp hmem
    obtain ⟨hexternal, hbob⟩ := lookup_crowdedInput
    rcases key_of_mem_crowd hposting with hkey | hkey | hkey
    · rwa [show posting.owner = external from congrArg Prod.fst hkey]
    · rwa [show posting.owner = bob from congrArg Prod.fst hkey]
    · rwa [show posting.owner = bob from congrArg Prod.fst hkey]
  have hflags : ∀ id : AccountId, (Account.new id).isFrozen = false ∧
      (Account.new id).isClosed = false ∧ (Account.new id).forbidsOverdraft = false := by
    have hempty : AccountFlags.empty.contains .FROZEN = false ∧
        AccountFlags.empty.contains .CLOSED = false ∧
        AccountFlags.empty.contains .DEBIT_MUST_NOT_EXCEED_CREDIT = false := by decide
    exact fun _ => hempty
  constructor
  case nonEmpty => exact .inr (List.cons_ne_nil _ _)
  case nodup => exact .nil
  case found => exact nofun
  case owners => exact fun owner hmem => ⟨_, howner owner hmem, (hflags owner).1, (hflags owner).2.1⟩
  case snapshots =>
    intro snapshot hsnapshot
    rcases List.mem_pair.mp hsnapshot with rfl | rfl
    · exact ⟨_, lookup_crowdedInput.1, rfl⟩
    · exact ⟨_, lookup_crowdedInput.2, rfl⟩
  case bookAssets => exact nofun
  case bookAccounts => exact nofun
  case conserved => exact fun asset => (crowd_balanced asset).symm
  case negatives =>
    intro posting hposting _ account hlookup
    rw [howner posting.owner (List.mem_append_left _ (List.mem_map_of_mem hposting))] at hlookup
    cases hlookup
    exact (hflags _).2.2
  case floors =>
    intro key hkey account hlookup hforbids
    rcases List.mem_append.mp hkey with hkey | hkey
    · obtain ⟨posting, hposting, rfl⟩ := List.mem_map.mp hkey
      have hmem := List.mem_append_left [] (List.mem_map_of_mem (f := NewPosting.owner) hposting)
      cases hlookup.symm.trans (howner posting.owner hmem)
      cases hforbids.symm.trans (hflags _).2.2
    · cases hkey

theorem crowdedInput_sumsHeld : crowdedInput.SumsHeld := by
  refine PlanInput.sumsHeld_of_room fun key => ?_
  have hcreated : Cent.magnitude (crowdedInput.envelope.creates.map NewPosting.value) = 24 :=
    magnitude_crowd
  have hspent : Cent.magnitude (crowdedInput.spent.map Posting.value) = 0 := rfl
  have hcurrent : |((crowdedInput.balances.lookup key).getD .ZERO).val| = 0 := rfl
  rw [hcreated, hspent, hcurrent]
  decide

end Sample

open Sample in
/-- Two of 65537 created postings have one id. -/
theorem crowded_plan_repeats : ∃ plan, validateAndPlan .listed crowdedInput = .ok plan ∧
    ¬(plan.postingsToCreate.map (·.id)).Nodup := by
  have hchecked : Checked .listed crowdedInput crowdedInput.spent :=
    crowdedInput_conforms.checked .nil (fun _ hnone => absurd hnone List.not_mem_nil)
      crowdedInput_sumsHeld
  refine ⟨_, validateAndPlan_eq_ok_iff.mpr ⟨⟨_, hchecked⟩, rfl⟩, fun hdistinct => ?_⟩
  rw [planOf, map_id_createdPostings] at hdistinct
  have hshort : (crowd bob bob).creates.length ≤ 65536 :=
    length_le_of_nodup_createdPostingIds hdistinct
  rw [crowd, List.length_append, List.length_cons, length_filler, List.length_singleton] at hshort
  omega

open Sample in
theorem plan_distinct_iff_payment : ∃ plan, validateAndPlan .listed payment = .ok plan ∧
    (plan.postingsToCreate.map (·.id)).Nodup ∧ plan.AddsExactly payment.envelope.creates := by
  have hplan : validateAndPlan .listed payment = .ok (planOf payment.envelope) := by
    decide +kernel
  have hindex : payment.envelope.creates.length ≤ 65536 := by simp [payment]
  exact ⟨_, hplan, (plan_distinct_iff .listed payment _ hplan).mpr hindex⟩

end Kuatia
