import Kuatia.Collections.HashMap
import Mathlib.Algebra.BigOperators.Group.List.Basic
import Mathlib.Tactic.Abel

/-! # Histories of spending and creating

A transaction spends outputs that are live and creates outputs under fresh
names. A history is a list of transactions, the latest one first, each applied
to the live outputs that the earlier ones leave. Whatever is additive over the
outputs is accounted for by the transactions of the history.
-/

namespace Utxo

variable {L Id Out : Type} [DecidableEq Id]

/-- A labelled transaction with the full records of what it spends and creates. -/
structure Tx (L Out : Type) where
  label : L
  spends : List Out
  creates : List Out

variable (idOf : Out → Id)

namespace Tx

def spentIds (tx : Tx L Out) : List Id := tx.spends.map idOf

def createdIds (tx : Tx L Out) : List Id := tx.creates.map idOf

/-- The live outputs after the transaction. -/
def apply (tx : Tx L Out) (live : HashMap Id Out) : HashMap Id Out :=
  (live.eraseAll (tx.spentIds idOf)).insertAll idOf tx.creates

end Tx

section Net

variable {M : Type*} [AddCommGroup M] (weight : Out → M)

/-- What a transaction adds to the total weight of the live outputs. -/
def Tx.net (tx : Tx L Out) : M :=
  (tx.creates.map weight).sum - (tx.spends.map weight).sum

end Net

def createdIn (history : List (Tx L Out)) (id : Id) : Prop :=
  ∃ tx ∈ history, id ∈ tx.createdIds idOf

def spentIn (history : List (Tx L Out)) (id : Id) : Prop :=
  ∃ tx ∈ history, id ∈ tx.spentIds idOf

/-- What a transaction has to meet when it is applied. -/
structure Applicable (history : List (Tx L Out)) (live : HashMap Id Out) (tx : Tx L Out) :
    Prop where
  spends_nodup : (tx.spentIds idOf).Nodup
  spends_live : ∀ out ∈ tx.spends, live.lookup (idOf out) = some out
  creates_nodup : (tx.createdIds idOf).Nodup
  creates_fresh : ∀ id ∈ tx.createdIds idOf, ¬createdIn idOf history id

/-- `Valid history live`: the history can be replayed and leaves `live`. -/
inductive Valid : List (Tx L Out) → HashMap Id Out → Prop where
  | start : Valid [] ∅
  | extend {history : List (Tx L Out)} {live : HashMap Id Out} {tx : Tx L Out}
      (earlier : Valid history live) (happlicable : Applicable idOf history live tx) :
      Valid (tx :: history) (tx.apply idOf live)

variable {idOf} {history : List (Tx L Out)} {live : HashMap Id Out}

namespace Valid

/-- A live output is stored under its own name and was created in the history. -/
theorem of_lookup (hvalid : Valid idOf history live) {id : Id} {out : Out}
    (hlookup : live.lookup id = some out) :
    idOf out = id ∧ ∃ tx ∈ history, out ∈ tx.creates := by
  induction hvalid with
  | start => cases hlookup
  | extend _ _ ih =>
      obtain ⟨hout, hid⟩ | ⟨hold, _⟩ := HashMap.lookup_insertAll_cases hlookup
      · exact ⟨hid, _, List.mem_cons_self, hout⟩
      · rw [HashMap.lookup_eraseAll] at hold
        split at hold
        next => cases hold
        next =>
          obtain ⟨hid, tx, htx, hout⟩ := ih hold
          exact ⟨hid, tx, List.mem_cons_of_mem _ htx, hout⟩

theorem createdIn_of_mem (hvalid : Valid idOf history live) {id : Id} (hlive : id ∈ live) :
    createdIn idOf history id := by
  obtain ⟨out, hlookup⟩ := HashMap.mem_iff_exists_lookup.mp hlive
  obtain ⟨rfl, tx, htx, hout⟩ := hvalid.of_lookup hlookup
  exact ⟨tx, htx, List.mem_map_of_mem hout⟩

theorem createdIn_of_spentIn (hvalid : Valid idOf history live) {id : Id}
    (hspent : spentIn idOf history id) : createdIn idOf history id := by
  induction hvalid with
  | start => obtain ⟨_, htx, _⟩ := hspent; cases htx
  | @extend history _ _ earlier happlicable ih =>
      obtain ⟨tx, htx, hid⟩ := hspent
      have hcreated : createdIn idOf history id := by
        rcases List.mem_cons.mp htx with rfl | htx
        · obtain ⟨out, hout, rfl⟩ := List.mem_map.mp hid
          exact earlier.createdIn_of_mem
            (HashMap.mem_iff_exists_lookup.mpr ⟨_, happlicable.spends_live out hout⟩)
        · exact ih ⟨tx, htx, hid⟩
      obtain ⟨other, hother, hmem⟩ := hcreated
      exact ⟨other, List.mem_cons_of_mem _ hother, hmem⟩

/-- The live names are the created ones that are not spent. -/
theorem mem_iff (hvalid : Valid idOf history live) {id : Id} :
    id ∈ live ↔ createdIn idOf history id ∧ ¬spentIn idOf history id := by
  induction hvalid with
  | start => simp [createdIn]
  | @extend history live tx earlier happlicable ih =>
      have hcreates : (∃ out ∈ tx.creates, idOf out = id) ↔ id ∈ tx.createdIds idOf := by
        simp [Tx.createdIds]
      rw [Tx.apply, HashMap.mem_insertAll, HashMap.mem_eraseAll, ih, hcreates]
      simp only [createdIn, spentIn, List.mem_cons, exists_eq_or_imp, not_or]
      constructor
      · rintro (⟨⟨hcreated, hunspent⟩, hspends⟩ | hcreates)
        · exact ⟨.inr hcreated, hspends, hunspent⟩
        · have hfresh := happlicable.creates_fresh id hcreates
          refine ⟨.inl hcreates, fun hspends => hfresh ?_, fun hspent => hfresh ?_⟩
          · obtain ⟨out, hout, rfl⟩ := List.mem_map.mp hspends
            exact earlier.createdIn_of_mem
              (HashMap.mem_iff_exists_lookup.mpr ⟨_, happlicable.spends_live out hout⟩)
          · exact earlier.createdIn_of_spentIn hspent
      · rintro ⟨hcreated | hcreated, hspends, hunspent⟩
        · exact .inr hcreated
        · exact .inl ⟨⟨hcreated, hunspent⟩, hspends⟩

section Weight

variable {M : Type*} [AddCommGroup M] (weight : Out → M)

/-- One transaction changes the total weight by its net weight. -/
theorem sum_apply (hvalid : Valid idOf history live) {tx : Tx L Out}
    (happlicable : Applicable idOf history live tx) :
    ((tx.apply idOf live).values.map weight).sum =
      (live.values.map weight).sum + tx.net weight := by
  have hfresh : ∀ out ∈ tx.creates, idOf out ∉ live.eraseAll (tx.spentIds idOf) := by
    intro out hout hmem
    have hlive := (HashMap.mem_eraseAll.mp hmem).1
    exact happlicable.creates_fresh _ (List.mem_map_of_mem hout) (hvalid.createdIn_of_mem hlive)
  have hspent := (HashMap.values_eraseAll_perm happlicable.spends_nodup
    happlicable.spends_live).map weight
  have hcreated := (HashMap.values_insertAll_perm happlicable.creates_nodup hfresh).map weight
  rw [Tx.apply, hcreated.sum_eq, hspent.sum_eq]
  simp only [List.map_append, List.sum_append, Tx.net, Tx.spentIds]
  abel

/-- The total weight of the live outputs is what the history adds up to. -/
theorem sum_live (hvalid : Valid idOf history live) :
    (live.values.map weight).sum = (history.map (Tx.net weight)).sum := by
  induction hvalid with
  | start => rfl
  | extend earlier happlicable ih =>
      rw [earlier.sum_apply weight happlicable, ih, List.map_cons, List.sum_cons, add_comm]

/-- A history of balanced transactions keeps the total at zero. -/
theorem sum_live_eq_zero (hvalid : Valid idOf history live)
    (hbalanced : ∀ tx ∈ history, tx.net weight = 0) : (live.values.map weight).sum = 0 := by
  rw [hvalid.sum_live weight, List.sum_eq_zero]
  simpa using hbalanced

end Weight

end Valid

end Utxo
