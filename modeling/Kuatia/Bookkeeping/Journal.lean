import Mathlib.Algebra.BigOperators.Group.List.Basic
import Mathlib.Algebra.Order.BigOperators.Group.Finset
import Mathlib.Algebra.Ring.Int.Defs
import Mathlib.Data.Finset.Basic
import Mathlib.Logic.Function.Basic
import Mathlib.Logic.Relation

/-! # Double-entry bookkeeping

Parties hold amounts of several units. An entry of the journal moves amounts
between parties and comes to nothing in every unit, so there is no amount without
its counterpart. Every party has a standing, which says whether the party may take
part in an entry and whether the party may be in debt.
-/

namespace Bookkeeping

variable {R P U S : Type*}

structure Line (P U : Type*) where
  party : P
  unit : U
  amount : Int

structure Entry (R P U : Type*) where
  ref : R
  lines : List (Line P U)

/-- What the standing of a party allows, and which standing may follow it. -/
structure Rules (S : Type*) where
  trades : S → Prop
  solvent : S → Prop
  passes : S → S → Prop
  solvent_of_passes : ∀ {standing next}, passes standing next → solvent next → solvent standing

structure Books (R P U S : Type*) where
  standing : P → Option S
  journal : List (Entry R P U)

namespace Entry

variable [DecidableEq P] [DecidableEq U]

/-- What an entry adds to what a party holds of a unit. -/
def change (entry : Entry R P U) (party : P) (unit : U) : Int :=
  (entry.lines.map fun line =>
    if line.party = party ∧ line.unit = unit then line.amount else 0).sum

omit [DecidableEq P] in
/-- In every unit the lines come to nothing. -/
def Balanced (entry : Entry R P U) : Prop :=
  ∀ unit, (entry.lines.map fun line => if line.unit = unit then line.amount else 0).sum = 0

theorem change_of_absent {entry : Entry R P U} {party : P}
    (habsent : ∀ line ∈ entry.lines, line.party ≠ party) (unit : U) :
    entry.change party unit = 0 := by
  refine List.sum_eq_zero fun amount hamount => ?_
  obtain ⟨line, hline, rfl⟩ := List.mem_map.mp hamount
  exact if_neg fun hkey => habsent line hline hkey.1

/-- What an entry adds to all parties together is what its lines come to. -/
theorem sum_change {parties : Finset P} {entry : Entry R P U}
    (hparties : ∀ line ∈ entry.lines, line.party ∈ parties) (unit : U) :
    ∑ party ∈ parties, entry.change party unit =
      (entry.lines.map fun line => if line.unit = unit then line.amount else 0).sum := by
  obtain ⟨ref, lines⟩ := entry
  simp only [change]
  induction lines with
  | nil => simp
  | cons line lines ih =>
      obtain ⟨hparty, hrest⟩ := List.forall_mem_cons.mp hparties
      simp only [List.map_cons, List.sum_cons, Finset.sum_add_distrib, ih hrest]
      congr 1
      rw [Finset.sum_eq_single_of_mem line.party hparty]
      · simp
      · exact fun other _ hother => if_neg fun hkey => hother hkey.1.symm

end Entry

namespace Books

variable [DecidableEq P] [DecidableEq U]

/-- What a party holds of a unit. -/
def balance (books : Books R P U S) (party : P) (unit : U) : Int :=
  (books.journal.map fun entry => entry.change party unit).sum

/-- Before there is any party. -/
def blank : Books R P U S := ⟨fun _ => none, []⟩

/-- The party may take part in an entry. -/
def Trading (rules : Rules S) (books : Books R P U S) (party : P) : Prop :=
  ∃ standing, books.standing party = some standing ∧ rules.trades standing

/-- A party is admitted, a standing changes, or an entry is posted. -/
inductive Step (rules : Rules S) : Books R P U S → Books R P U S → Prop where
  | enrol {books : Books R P U S} (party : P) (standing : S)
      (hnew : books.standing party = none) :
      Step rules books
        { books with standing := Function.update books.standing party (some standing) }
  | pass {books : Books R P U S} (party : P) {standing next : S}
      (hstanding : books.standing party = some standing) (hpasses : rules.passes standing next) :
      Step rules books
        { books with standing := Function.update books.standing party (some next) }
  | post {books : Books R P U S} (entry : Entry R P U)
      (hfresh : ∀ posted ∈ books.journal, posted.ref ≠ entry.ref) (hbalanced : entry.Balanced)
      (htrading : ∀ line ∈ entry.lines, books.Trading rules line.party)
      (hsolvent : ∀ party standing, books.standing party = some standing →
        rules.solvent standing → ∀ unit, 0 ≤ books.balance party unit + entry.change party unit) :
      Step rules books { books with journal := entry :: books.journal }

/-- Any number of steps. -/
def Leads (rules : Rules S) : Books R P U S → Books R P U S → Prop :=
  Relation.ReflTransGen (Step rules)

variable {rules : Rules S} {books after : Books R P U S}

/-! ## What always holds -/

/-- Books that are in order. -/
structure Sound (rules : Rules S) (books : Books R P U S) : Prop where
  balanced : ∀ entry ∈ books.journal, entry.Balanced
  distinct : (books.journal.map (·.ref)).Nodup
  admitted : ∀ entry ∈ books.journal, ∀ line ∈ entry.lines, (books.standing line.party).isSome
  solvent : ∀ party standing, books.standing party = some standing → rules.solvent standing →
    ∀ unit, 0 ≤ books.balance party unit

theorem sound_blank : Sound rules (blank : Books R P U S) where
  balanced _ hentry := absurd hentry List.not_mem_nil
  distinct := .nil
  admitted _ hentry := absurd hentry List.not_mem_nil
  solvent _ _ hstanding := by cases hstanding

theorem balance_post (entry : Entry R P U) (party : P) (unit : U) :
    ({ books with journal := entry :: books.journal } : Books R P U S).balance party unit =
      books.balance party unit + entry.change party unit := by
  rw [balance, List.map_cons, List.sum_cons, add_comm]
  rfl

theorem Sound.balance_of_stranger (hsound : Sound rules books) {party : P}
    (hstranger : books.standing party = none) (unit : U) : books.balance party unit = 0 := by
  refine List.sum_eq_zero fun amount hamount => ?_
  obtain ⟨entry, hentry, rfl⟩ := List.mem_map.mp hamount
  refine Entry.change_of_absent (fun line hline hparty => ?_) unit
  have hadmitted := hsound.admitted entry hentry line hline
  rw [hparty, hstranger] at hadmitted
  cases hadmitted

theorem Sound.step (hsound : Sound rules books) (hstep : Step rules books after) :
    Sound rules after := by
  cases hstep with
  | enrol party standing hnew =>
      refine ⟨hsound.balanced, hsound.distinct, fun entry hentry line hline => ?_, ?_⟩
      · dsimp only
        rw [Function.update_apply]
        split
        next => rfl
        next => exact hsound.admitted entry hentry line hline
      · intro other found hfound hsolvent unit
        dsimp only at hfound
        rw [Function.update_apply] at hfound
        split at hfound
        next heq =>
          subst heq
          exact (hsound.balance_of_stranger hnew unit).ge
        next => exact hsound.solvent other found hfound hsolvent unit
  | @pass party standing next hstanding hpasses =>
      refine ⟨hsound.balanced, hsound.distinct, fun entry hentry line hline => ?_, ?_⟩
      · dsimp only
        rw [Function.update_apply]
        split
        next => rfl
        next => exact hsound.admitted entry hentry line hline
      · intro other found hfound hsolvent unit
        dsimp only at hfound
        rw [Function.update_apply] at hfound
        split at hfound
        next heq =>
          subst heq
          cases hfound
          exact hsound.solvent _ standing hstanding (rules.solvent_of_passes hpasses hsolvent) unit
        next => exact hsound.solvent other found hfound hsolvent unit
  | post entry hfresh hbalanced htrading hsolvent =>
      refine ⟨List.forall_mem_cons.mpr ⟨hbalanced, hsound.balanced⟩, ?_, ?_, ?_⟩
      · rw [List.map_cons, List.nodup_cons, List.mem_map]
        exact ⟨fun ⟨posted, hposted, heq⟩ => hfresh posted hposted heq, hsound.distinct⟩
      · refine List.forall_mem_cons.mpr ⟨fun line hline => ?_, hsound.admitted⟩
        obtain ⟨standing, hstanding, _⟩ := htrading line hline
        exact Option.isSome_iff_exists.mpr ⟨standing, hstanding⟩
      · intro party standing hstanding hsolv unit
        rw [balance_post]
        exact hsolvent party standing hstanding hsolv unit

theorem Sound.leads (hsound : Sound rules books) (hleads : Leads rules books after) :
    Sound rules after := by
  induction hleads with
  | refl => exact hsound
  | tail _ hstep ih => exact ih.step hstep

/-- The trial balance: all parties together hold nothing of any unit. -/
theorem Sound.trial_balance (hsound : Sound rules books) {parties : Finset P}
    (hparties : ∀ party, (books.standing party).isSome → party ∈ parties) (unit : U) :
    ∑ party ∈ parties, books.balance party unit = 0 := by
  calc ∑ party ∈ parties, books.balance party unit
      = (books.journal.map fun entry => ∑ party ∈ parties, entry.change party unit).sum := by
        simp only [balance]
        induction books.journal with
        | nil => simp
        | cons entry journal ih =>
            simp only [List.map_cons, List.sum_cons, Finset.sum_add_distrib, ih]
    _ = 0 := by
        refine List.sum_eq_zero fun amount hamount => ?_
        obtain ⟨entry, hentry, rfl⟩ := List.mem_map.mp hamount
        rw [Entry.sum_change fun line hline => hparties _ (hsound.admitted entry hentry line hline)]
        exact hsound.balanced entry hentry unit

/-! ## Who does not trade -/

/-- A step leaves alone what a party holds that may not trade. -/
theorem Step.balance_eq (hstep : Step rules books after) {party : P}
    (hidle : ¬books.Trading rules party) (unit : U) :
    after.balance party unit = books.balance party unit := by
  cases hstep with
  | enrol => rfl
  | pass => rfl
  | post entry hfresh hbalanced htrading hsolvent =>
      rw [balance_post, Entry.change_of_absent, add_zero]
      rintro line hline rfl
      exact hidle (htrading line hline)

/-- A standing that nothing may follow stays. -/
theorem Step.standing_eq (hstep : Step rules books after) {party : P} {standing : S}
    (hstanding : books.standing party = some standing)
    (hfinal : ∀ next, ¬rules.passes standing next) : after.standing party = some standing := by
  cases hstep with
  | enrol other admitted hnew =>
      have hne : party ≠ other := by
        rintro rfl
        rw [hstanding] at hnew
        cases hnew
      exact (Function.update_of_ne hne _ _).trans hstanding
  | @pass other earlier next hother hpasses =>
      have hne : party ≠ other := by
        rintro rfl
        rw [hstanding] at hother
        cases hother
        exact hfinal next hpasses
      exact (Function.update_of_ne hne _ _).trans hstanding
  | post => exact hstanding

/-- A party that has come to an end keeps what it holds for ever. -/
theorem Leads.balance_eq_of_final (hleads : Leads rules books after) {party : P} {standing : S}
    (hstanding : books.standing party = some standing) (hidle : ¬rules.trades standing)
    (hfinal : ∀ next, ¬rules.passes standing next) :
    after.standing party = some standing ∧
      ∀ unit, after.balance party unit = books.balance party unit := by
  induction hleads with
  | refl => exact ⟨hstanding, fun _ => rfl⟩
  | tail _ hstep ih =>
      obtain ⟨hkept, hsame⟩ := ih
      refine ⟨hstep.standing_eq hkept hfinal, fun unit => ?_⟩
      rw [hstep.balance_eq _ unit, hsame unit]
      rintro ⟨found, hfound, htrades⟩
      rw [hkept] at hfound
      cases hfound
      exact hidle htrades

end Books

end Bookkeeping
