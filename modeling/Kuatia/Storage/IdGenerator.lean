import Kuatia.Collections.Stamps
import Kuatia.Storage.MemStore

/-! # The ids of one generator

An id is the millisecond in which it is drawn, above the low bits of a counter that
every call advances. Within the window of the millisecond field, the ids are the
stamps of their milliseconds and that counter.
-/

namespace Kuatia.AutoId

open Stamps (stamps stamps_cons stamps_congr nodup_stamps_iff)

/-- The millisecond field of an id. -/
def timestamp (id : Int64) : UInt64 :=
  ((id >>> TAIL_BITS.toInt64) &&& (((1 : Int64) <<< TIMESTAMP_BITS.toInt64) - 1)).toUInt64

/-- The counter field of an id. -/
def tail (id : Int64) : UInt32 := id.toUInt64.toUInt32 &&& TAIL_MASK

/-- The ids that a generator returns to one call after the other. -/
def ids : List Clock → UInt32 → List Int64
  | [], _ => []
  | clock :: clocks, counter =>
      let (id, counter) := next clock counter
      id :: ids clocks counter

/-! ## The two fields -/

section Fields

variable {id : Int64} {ms : UInt64} {seq : UInt32}

theorem toNat_masked (counter : UInt32) :
    (counter &&& TAIL_MASK).toNat = counter.toNat % 2 ^ 23 := by
  have hmask : TAIL_MASK.toNat = 2 ^ 23 - 1 := by decide
  rw [UInt32.toNat_and, hmask, Nat.and_two_pow_sub_one_eq_mod]

theorem masked_lt (counter : UInt32) : (counter &&& TAIL_MASK).toNat < 2 ^ 23 := by
  rw [toNat_masked]
  exact Nat.mod_lt _ (by decide)

theorem nonneg_iff : 0 ≤ id ↔ id.toUInt64.toNat < 2 ^ 63 := by
  have hlt := id.toUInt64.toNat_lt
  have hvalue : id.toInt = if 2 * id.toUInt64.toNat < 2 ^ 64 then (id.toUInt64.toNat : Int)
      else id.toUInt64.toNat - (2 ^ 64 : Nat) := BitVec.toInt_eq_toNat_cond id.toBitVec
  rw [Int64.le_iff_toInt_le, Int64.toInt_zero, hvalue]
  split <;> omega

theorem toNat_pack (hseq : seq.toNat < 2 ^ 23) :
    (pack ms seq).toUInt64.toNat = ms.toNat % 2 ^ 40 * 2 ^ 23 + seq.toNat := by
  have hbits : TAIL_BITS.toNat % 64 = 23 := by decide
  have hmask : (((1 : UInt64) <<< TIMESTAMP_BITS) - 1).toNat = 2 ^ 40 - 1 := by decide
  have hms : ms.toNat % 2 ^ 40 < 2 ^ 40 := Nat.mod_lt _ (by decide)
  change (((ms &&& (((1 : UInt64) <<< TIMESTAMP_BITS) - 1)) <<< TAIL_BITS) |||
    seq.toUInt64).toNat = _
  rw [UInt64.toNat_or, UInt64.toNat_shiftLeft, UInt32.toNat_toUInt64, hbits, UInt64.toNat_and,
    hmask, Nat.and_two_pow_sub_one_eq_mod, Nat.mod_eq_of_lt,
    ← Nat.shiftLeft_add_eq_or_of_lt hseq, Nat.shiftLeft_eq]
  rw [Nat.shiftLeft_eq]
  omega

theorem toNat_timestamp (hid : 0 ≤ id) : (timestamp id).toNat = id.toUInt64.toNat / 2 ^ 23 := by
  have hlt := nonneg_iff.mp hid
  have hbits : (TAIL_BITS.toInt64.toBitVec.smod 64).toNat = 23 := by decide
  have hmask : (((1 : Int64) <<< TIMESTAMP_BITS.toInt64) - 1).toUInt64.toNat = 2 ^ 40 - 1 := by
    decide
  have hmsb : id.toBitVec.msb = false := by
    rw [BitVec.msb_eq_decide, Int64.toNat_toBitVec, decide_eq_false_iff_not]
    omega
  -- the shift keeps the sign, and there is none
  have hshift : (id >>> TAIL_BITS.toInt64).toUInt64.toNat = id.toUInt64.toNat / 2 ^ 23 := by
    rw [← Int64.toNat_toBitVec, Int64.toBitVec_shiftRight,
      BitVec.toNat_sshiftRight'_of_msb_false hmsb, hbits, Nat.shiftRight_eq_div_pow,
      Int64.toNat_toBitVec]
  rw [timestamp, Int64.toUInt64_and, UInt64.toNat_and, hmask, Nat.and_two_pow_sub_one_eq_mod,
    hshift]
  omega

theorem toNat_tail : (tail id).toNat = id.toUInt64.toNat % 2 ^ 23 := by
  rw [tail, toNat_masked, UInt64.toNat_toUInt32]
  omega

theorem pack_nonneg (hseq : seq.toNat < 2 ^ 23) : 0 ≤ pack ms seq := by
  rw [nonneg_iff, toNat_pack hseq]
  omega

theorem timestamp_pack (hms : ms.toNat < 2 ^ 40) (hseq : seq.toNat < 2 ^ 23) :
    timestamp (pack ms seq) = ms := by
  apply UInt64.toNat_inj.mp
  rw [toNat_timestamp (pack_nonneg hseq), toNat_pack hseq]
  omega

theorem tail_pack (hseq : seq.toNat < 2 ^ 23) : tail (pack ms seq) = seq := by
  apply UInt32.toNat_inj.mp
  rw [toNat_tail, toNat_pack hseq]
  omega

/-- An id is determined by its fields. -/
theorem pack_timestamp_tail (hid : 0 ≤ id) : pack (timestamp id) (tail id) = id := by
  have hlt := nonneg_iff.mp hid
  have htail : (tail id).toNat < 2 ^ 23 := masked_lt _
  have hsame : (pack (timestamp id) (tail id)).toUInt64 = id.toUInt64 := by
    apply UInt64.toNat_inj.mp
    rw [toNat_pack htail, toNat_timestamp hid, toNat_tail]
    omega
  exact congrArg UInt64.toInt64 hsame

end Fields

/-! ## The ids of a run -/

/-- The fields of the ids are the milliseconds and the counter. A counter of 32 bits
that wraps is as good as one that never does. -/
theorem fields_ids {clocks : List Clock} {counter : UInt32}
    (hwindow : ∀ clock ∈ clocks, (nowMs clock).toNat < 2 ^ 40) :
    (ids clocks counter).map (fun id => ((timestamp id).toNat, (tail id).toNat)) =
      stamps (2 ^ 23) counter.toNat (clocks.map fun clock => (nowMs clock).toNat) := by
  induction clocks generalizing counter with
  | nil => rfl
  | cons clock clocks ih =>
      rw [List.forall_mem_cons] at hwindow
      have hseq := masked_lt counter
      have hnext : (counter + 1).toNat ≡ counter.toNat + 1 [MOD 2 ^ 23] := by
        rw [UInt32.toNat_add]
        exact Nat.mod_mod_of_dvd _ (by decide)
      rw [ids, next, List.map_cons, List.map_cons, stamps_cons, ih hwindow.2, stamps_congr hnext,
        timestamp_pack hwindow.1 hseq, tail_pack hseq, toNat_masked]

theorem nonneg_of_mem_ids {clocks : List Clock} {counter : UInt32} {id : Int64}
    (hid : id ∈ ids clocks counter) : 0 ≤ id := by
  induction clocks generalizing counter with
  | nil => simp [ids] at hid
  | cons clock clocks ih =>
      rcases List.mem_cons.mp hid with rfl | hlater
      · exact pack_nonneg (masked_lt counter)
      · exact ih hlater

theorem count_toNat_le_iff {times : List UInt64} {bound : Nat} :
    (∀ ms, (times.map UInt64.toNat).count ms ≤ bound) ↔ ∀ ms, times.count ms ≤ bound := by
  have hinjective : Function.Injective UInt64.toNat := fun _ _ => UInt64.toNat_inj.mp
  constructor
  · intro hcount ms
    rw [← List.count_map_of_injective times _ hinjective]
    exact hcount _
  · intro hcount ms
    by_cases hmem : ms ∈ times.map UInt64.toNat
    · rcases List.mem_map.mp hmem with ⟨time, _, rfl⟩
      rw [List.count_map_of_injective times _ hinjective]
      exact hcount time
    · simp [List.count_eq_zero_of_not_mem hmem]

/-- While the clock does not go back, an id repeats exactly when some millisecond sees
more calls than the counter field has values. -/
theorem nodup_ids_iff {clocks : List Clock} {counter : UInt32}
    (hclock : clocks.Pairwise fun before after => nowMs before ≤ nowMs after)
    (hwindow : ∀ clock ∈ clocks, (nowMs clock).toNat < 2 ^ 40) :
    (ids clocks counter).Nodup ↔ ∀ ms, (clocks.map nowMs).count ms ≤ 2 ^ 23 := by
  have hinjective : ∀ first ∈ ids clocks counter, ∀ second ∈ ids clocks counter,
      ((timestamp first).toNat, (tail first).toNat) =
        ((timestamp second).toNat, (tail second).toNat) → first = second := by
    intro first hfirst second hsecond heq
    rcases Prod.mk.inj heq with ⟨hms, hseq⟩
    rw [← pack_timestamp_tail (nonneg_of_mem_ids hfirst), UInt64.toNat_inj.mp hms,
      UInt32.toNat_inj.mp hseq, pack_timestamp_tail (nonneg_of_mem_ids hsecond)]
  have hsorted : (clocks.map fun clock => (nowMs clock).toNat).Pairwise (· ≤ ·) :=
    List.pairwise_map.mpr (hclock.imp UInt64.le_iff_toNat_le.mp)
  have hfields : (ids clocks counter).Nodup ↔
      (stamps (2 ^ 23) counter.toNat (clocks.map fun clock => (nowMs clock).toNat)).Nodup := by
    rw [← fields_ids hwindow]
    exact ⟨fun hnodup => hnodup.map_on hinjective, .of_map _⟩
  rw [hfields, nodup_stamps_iff (by decide) hsorted, ← count_toNat_le_iff, List.map_map]
  rfl

/-- Ids are unique: as long as the clock does not go back, stays in the window of the
millisecond field and shows no millisecond to more than 2^23 calls, the ids of a
generator are distinct and not negative, wherever its counter starts. -/
theorem ids_unique (clocks : List Clock) (counter : UInt32)
    (hclock : clocks.Pairwise fun before after => nowMs before ≤ nowMs after)
    (hwindow : ∀ clock ∈ clocks, (nowMs clock).toNat < 2 ^ 40)
    (hrate : ∀ ms, (clocks.map nowMs).count ms ≤ 2 ^ 23) :
    (ids clocks counter).Nodup ∧ ∀ id ∈ ids clocks counter, 0 ≤ id :=
  ⟨(nodup_ids_iff hclock hwindow).mpr hrate, fun _ => nonneg_of_mem_ids⟩

/-- The counter wraps between the first and the second call of one millisecond. -/
theorem ids_unique_wrap :
    let ids := ids [some 1800000000000, some 1800000000000, some 1800000000001] 4294967295
    ids.Nodup ∧ ∀ id ∈ ids, 0 ≤ id := by
  refine ids_unique _ _ (by decide) ?_ fun ms => ?_
  · simp only [List.forall_mem_cons]
    exact ⟨by decide, by decide, by decide, nofun⟩
  · exact List.count_le_length.trans (by decide)

end Kuatia.AutoId
