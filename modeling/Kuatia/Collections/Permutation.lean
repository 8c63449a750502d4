import Mathlib.Data.Set.Finite.Basic
import Mathlib.Dynamics.PeriodicPts.Lemmas

/-! # Feistel networks and cycle walking

A Feistel network is a permutation of the pairs of halves, whatever its round
functions are. A permutation of a finite set is narrowed to a part of the set by
walking on until the value is in the part again: every value of the part comes
back, since its orbit is a cycle, and the inverse walks the same cycle backwards.
-/

/-! ## Feistel networks -/

namespace Feistel

variable {Half Round : Type} {mix : Half → Half → Half} {valid : Half → Prop}
  {value : Round → Half → Half}

/-- Mixing gives a valid half, and mixing a valid half twice gives it back. -/
structure Cancels (mix : Half → Half → Half) (valid : Half → Prop) : Prop where
  valid_mix : ∀ half key, valid (mix half key)
  mix_mix : ∀ half key, valid half → mix (mix half key) key = half

/-- One round: the right half moves left, and is mixed into what was there. -/
def round (mix : Half → Half → Half) (value : Round → Half → Half) (halves : Half × Half)
    (index : Round) : Half × Half :=
  (halves.2, mix halves.1 (value index halves.2))

/-- The inverse of one round. -/
def unround (mix : Half → Half → Half) (value : Round → Half → Half) (halves : Half × Half)
    (index : Round) : Half × Half :=
  (mix halves.2 (value index halves.1), halves.1)

/-- Both halves are valid. -/
def Valid (valid : Half → Prop) (halves : Half × Half) : Prop := valid halves.1 ∧ valid halves.2

theorem valid_foldl_round (hmix : Cancels mix valid) (rounds : List Round) {halves : Half × Half}
    (hhalves : Valid valid halves) : Valid valid (rounds.foldl (round mix value) halves) := by
  induction rounds generalizing halves with
  | nil => exact hhalves
  | cons index rounds ih => exact ih ⟨hhalves.2, hmix.valid_mix ..⟩

theorem unround_round (hmix : Cancels mix valid) {halves : Half × Half} (hhalves : Valid valid halves)
    (index : Round) : unround mix value (round mix value halves index) index = halves :=
  Prod.ext (hmix.mix_mix _ _ hhalves.1) rfl

/-- The inverse rounds in reverse order undo the rounds. -/
theorem unrounds_rounds (hmix : Cancels mix valid) (rounds : List Round) {halves : Half × Half}
    (hhalves : Valid valid halves) :
    rounds.reverse.foldl (unround mix value) (rounds.foldl (round mix value) halves) = halves := by
  induction rounds generalizing halves with
  | nil => rfl
  | cons index rounds ih =>
      have hnext : Valid valid (round mix value halves index) := ⟨hhalves.2, hmix.valid_mix ..⟩
      rw [List.foldl_cons, List.reverse_cons, List.foldl_append, ih hnext, List.foldl_cons,
        List.foldl_nil]
      exact unround_round hmix hhalves index

/-- An inverse round is a round with the halves the other way round. -/
theorem foldl_unround (rounds : List Round) (halves : Half × Half) :
    rounds.foldl (unround mix value) halves =
      (rounds.foldl (round mix value) halves.swap).swap := by
  induction rounds generalizing halves with
  | nil => rfl
  | cons index rounds ih => exact ih _

/-- The rounds undo the inverse rounds in reverse order. -/
theorem rounds_unrounds (hmix : Cancels mix valid) (rounds : List Round) {halves : Half × Half}
    (hhalves : Valid valid halves) :
    rounds.foldl (round mix value) (rounds.reverse.foldl (unround mix value) halves) = halves := by
  have hswapped : Valid valid halves.swap := ⟨hhalves.2, hhalves.1⟩
  have hundone : rounds.reverse.reverse.foldl (unround mix value)
      (rounds.reverse.foldl (round mix value) halves.swap) = halves.swap :=
    unrounds_rounds hmix rounds.reverse hswapped
  rw [List.reverse_reverse, foldl_unround, Prod.swap_eq_iff_eq_swap, Prod.swap_swap] at hundone
  rw [foldl_unround]
  exact hundone

end Feistel

/-! ## Cycle walking -/

namespace CycleWalk

variable {α : Type} {step back : α → α} {inside : α → Prop} {v : α} {space : Set α}

/-- Stepping on from `v` comes inside at some time. -/
def Returns (step : α → α) (inside : α → Prop) (v : α) : Prop := ∃ n, inside (step^[n + 1] v)

theorem Returns.next (hreturns : Returns step inside v) (houtside : ¬inside (step v)) :
    Returns step inside (step v) := by
  obtain ⟨n, hn⟩ := hreturns
  cases n with
  | zero => exact absurd hn houtside
  | succ n => exact ⟨n, hn⟩

variable [DecidablePred inside]

/-- Step until the value is inside. -/
def walk (step : α → α) (inside : α → Prop) [DecidablePred inside] (v : α)
    (hreturns : Returns step inside v) : α :=
  if hinside : inside (step v) then step v
  else walk step inside (step v) (hreturns.next hinside)
termination_by Nat.find hreturns
decreasing_by
  -- the walk from `step v` is the one from `v` without its first step
  have hlater : Nat.find hreturns ≠ 0 := fun hzero => by
    have hfound := Nat.find_spec hreturns
    rw [hzero] at hfound
    exact hinside hfound
  have hfound := Nat.find_spec hreturns
  apply Nat.lt_of_le_of_lt (m := Nat.find hreturns - 1) _ (by omega)
  apply Nat.find_min'
  rwa [show Nat.find hreturns = Nat.find hreturns - 1 + 1 by omega] at hfound

theorem inside_walk (hreturns : Returns step inside v) : inside (walk step inside v hreturns) := by
  induction v, hreturns using walk.induct step inside with
  | case1 v hreturns hinside => rwa [walk, dif_pos hinside]
  | case2 v hreturns houtside ih => rwa [walk, dif_neg houtside]

/-- The loop cut off after `fuel` steps; `none` if it is still walking. -/
def walkWithin (step : α → α) (inside : α → Prop) [DecidablePred inside] :
    (fuel : Nat) → (v : α) → Option α
  | 0, _ => none
  | fuel + 1, v =>
      if inside (step v) then some (step v) else walkWithin step inside fuel (step v)

/-- The walk is what the loop gives, and enough steps reach its end. -/
theorem exists_walkWithin (hreturns : Returns step inside v) :
    ∃ enough, ∀ fuel, enough ≤ fuel →
      walkWithin step inside fuel v = some (walk step inside v hreturns) := by
  induction v, hreturns using walk.induct step inside with
  | case1 v hreturns hinside =>
      refine ⟨1, fun fuel hfuel => ?_⟩
      obtain ⟨fuel, rfl⟩ : ∃ less, fuel = less + 1 := ⟨fuel - 1, by omega⟩
      rw [walk, dif_pos hinside, walkWithin, if_pos hinside]
  | case2 v hreturns houtside ih =>
      obtain ⟨enough, henough⟩ := ih
      refine ⟨enough + 1, fun fuel hfuel => ?_⟩
      obtain ⟨fuel, rfl⟩ : ∃ less, fuel = less + 1 := ⟨fuel - 1, by omega⟩
      rw [walk, dif_neg houtside, walkWithin, if_neg houtside, henough fuel (by omega)]

/-- The walk ends at the first value inside. -/
theorem walk_eq_iterate {n : Nat} (hreturns : Returns step inside v)
    (hinside : inside (step^[n + 1] v)) (hfirst : ∀ k < n, ¬inside (step^[k + 1] v)) :
    walk step inside v hreturns = step^[n + 1] v := by
  induction n generalizing v with
  | zero =>
      have hinside : inside (step v) := hinside
      rw [walk, dif_pos hinside]
      rfl
  | succ n ih =>
      have houtside : ¬inside (step v) := hfirst 0 n.succ_pos
      rw [walk, dif_neg houtside]
      exact ih _ hinside fun k hk => hfirst (k + 1) (Nat.succ_lt_succ hk)

omit [DecidablePred inside] in
/-- In a finite set that an injective step keeps, what starts inside comes back. -/
theorem returns_of_injOn (hfinite : space.Finite) (hmaps : Set.MapsTo step space space)
    (hinj : Set.InjOn step space) (hv : v ∈ space) (hinside : inside v) :
    Returns step inside v := by
  have : Finite space := hfinite
  have hperiodic := (hmaps.restrict_inj.mpr hinj).mem_periodicPts ⟨v, hv⟩
  obtain ⟨period, hpos, hback⟩ := Function.mem_periodicPts.mp hperiodic
  have hcycle : step^[period] v = v := by
    rw [← hmaps.coe_iterate_restrict ⟨v, hv⟩ period, hback.eq]
  refine ⟨period - 1, ?_⟩
  rwa [Nat.sub_add_cancel hpos, hcycle]

omit [DecidablePred inside] in
theorem iterate_back (hmaps : Set.MapsTo step space space) (hback : ∀ w ∈ space, back (step w) = w)
    (hv : v ∈ space) (n k : Nat) : back^[k] (step^[n + k] v) = step^[n] v := by
  induction k with
  | zero => rfl
  | succ k ih =>
      rw [Function.iterate_succ_apply, ← Nat.add_assoc, Function.iterate_succ_apply',
        hback _ (hmaps.iterate (n + k) hv), ih]

/-- The walk of the inverse goes back to where the walk has started. -/
theorem walk_walk (hmaps : Set.MapsTo step space space) (hback : ∀ w ∈ space, back (step w) = w)
    (hv : v ∈ space) (hinside : inside v) {hreturns : Returns step inside v} {w : α}
    (hwalk : walk step inside v hreturns = w) (hreturnsBack : Returns back inside w) :
    walk back inside w hreturnsBack = v := by
  rw [walk_eq_iterate hreturns (Nat.find_spec hreturns) fun k => Nat.find_min hreturns] at hwalk
  subst hwalk
  have hfirst : ∀ k < Nat.find hreturns, ¬inside (step^[k + 1] v) := fun k => Nat.find_min hreturns
  generalize Nat.find hreturns = n at hfirst hreturnsBack ⊢
  -- `k + 1` steps back from the end are `n - k` steps from the start
  have hsteps : ∀ k ≤ n, back^[k + 1] (step^[n + 1] v) = step^[n - k] v := by
    intro k hk
    rw [← iterate_back hmaps hback hv (n - k) (k + 1)]
    congr 2
    omega
  rw [walk_eq_iterate (n := n), hsteps n le_rfl, Nat.sub_self, Function.iterate_zero_apply]
  · rwa [hsteps n le_rfl, Nat.sub_self, Function.iterate_zero_apply]
  · intro k hk
    rw [hsteps k hk.le]
    have hearlier := hfirst (n - k - 1) (by omega)
    rwa [show n - k - 1 + 1 = n - k by omega] at hearlier

end CycleWalk
