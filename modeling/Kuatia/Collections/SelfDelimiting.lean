import Mathlib.Data.List.Basic
import Mathlib.Tactic.Common

/-! # Self-delimiting encodings

An encoding is self-delimiting on a domain when the symbols written for a value,
with anything behind them, show the value and where the rest begins. Such
encodings may be written one after the other, and any number of them may follow
their count. An encoding may also leave something out: `part` is what it keeps.
-/

variable {Symbol Value Other Part Rest : Type}

/-- What is written for a value of the domain, with anything behind it, shows
`part` of the value and where the rest begins. -/
def SelfDelimiting (write : Value → List Symbol) (domain : Value → Prop) (part : Value → Part) :
    Prop :=
  ∀ ⦃first second : Value⦄ ⦃rest others : List Symbol⦄, domain first → domain second →
    write first ++ rest = write second ++ others → part first = part second ∧ rest = others

namespace SelfDelimiting

variable {write : Value → List Symbol} {domain : Value → Prop} {part : Value → Part}

/-- Two values with the same encoding agree in what it keeps. -/
theorem part_eq (hwrite : SelfDelimiting write domain part) {first second : Value}
    (hfirst : domain first) (hsecond : domain second) (heq : write first = write second) :
    part first = part second := by
  have hsame : write first ++ [] = write second ++ [] := by rw [heq]
  exact (hwrite hfirst hsecond hsame).1

/-- An encoding of one length shows where it ends. -/
theorem of_length {width : Nat} (hlength : ∀ value, (write value).length = width)
    (hinj : ∀ ⦃first second⦄, domain first → domain second → write first = write second →
      part first = part second) : SelfDelimiting write domain part := by
  intro first second rest others hfirst hsecond heq
  have hsplit := List.append_inj heq (by rw [hlength, hlength])
  exact ⟨hinj hfirst hsecond hsplit.1, hsplit.2⟩

/-- A mark that is the same for every value. -/
theorem mark (symbols : List Symbol) : SelfDelimiting (fun _ : Value => symbols) (fun _ => True) fun _ => () :=
  of_length (fun _ => rfl) fun _ _ _ _ _ => rfl

/-- Another spelling of the same encoding. -/
theorem congr {other : Value → List Symbol} (hwrite : SelfDelimiting write domain part)
    (hsame : ∀ value, other value = write value) : SelfDelimiting other domain part := by
  have heq : other = write := funext hsame
  rwa [heq]

/-- Encode a component of the value. -/
theorem comap (hwrite : SelfDelimiting write domain part) (component : Other → Value) :
    SelfDelimiting (fun other => write (component other)) (fun other => domain (component other))
      fun other => part (component other) :=
  fun _ _ _ _ hfirst hsecond heq => hwrite hfirst hsecond heq

/-- A smaller domain, and less to show. -/
theorem weaken {Less : Type} {smaller : Value → Prop} {less : Value → Less}
    (hwrite : SelfDelimiting write domain part) (hdomain : ∀ value, smaller value → domain value)
    (hless : ∀ ⦃first second⦄, part first = part second → less first = less second) :
    SelfDelimiting write smaller less := by
  intro first second rest others hfirst hsecond heq
  have hshown := hwrite (hdomain first hfirst) (hdomain second hsecond) heq
  exact ⟨hless hshown.1, hshown.2⟩

/-- One encoding behind another. -/
theorem append {next : Value → List Symbol} {among : Value → Prop} {follows : Value → Rest}
    (hwrite : SelfDelimiting write domain part) (hnext : SelfDelimiting next among follows) :
    SelfDelimiting (fun value => write value ++ next value) (fun value => domain value ∧ among value)
      fun value => (part value, follows value) := by
  intro first second rest others hfirst hsecond heq
  rw [List.append_assoc, List.append_assoc] at heq
  have hhead := hwrite hfirst.1 hsecond.1 heq
  have htail := hnext hfirst.2 hsecond.2 hhead.2
  exact ⟨Prod.ext hhead.1 htail.1, htail.2⟩

/-- As many encodings as are known to follow each other. -/
theorem flatMap (hwrite : SelfDelimiting write domain part) {first second : List Value}
    {rest others : List Symbol} (hlength : first.length = second.length)
    (hfirst : ∀ value ∈ first, domain value) (hsecond : ∀ value ∈ second, domain value)
    (heq : first.flatMap write ++ rest = second.flatMap write ++ others) :
    first.map part = second.map part ∧ rest = others := by
  induction first generalizing second with
  | nil =>
      cases second with
      | nil => exact ⟨rfl, heq⟩
      | cons => cases hlength
  | cons value first ih =>
      cases second with
      | nil => cases hlength
      | cons other second =>
          rw [List.flatMap_cons, List.flatMap_cons, List.append_assoc, List.append_assoc] at heq
          have hhead := hwrite (hfirst value List.mem_cons_self) (hsecond other List.mem_cons_self) heq
          have htail := ih (Nat.succ.inj hlength)
            (fun later hlater => hfirst later (List.mem_cons_of_mem _ hlater))
            (fun later hlater => hsecond later (List.mem_cons_of_mem _ hlater)) hhead.2
          exact ⟨by rw [List.map_cons, List.map_cons, hhead.1, htail.1], htail.2⟩

/-- A list behind its length. -/
theorem counted {count : Nat → List Symbol} {bound : Nat} (hcount : SelfDelimiting count (· < bound) id)
    (hwrite : SelfDelimiting write domain part) :
    SelfDelimiting (fun values : List Value => count values.length ++ values.flatMap write)
      (fun values => values.length < bound ∧ ∀ value ∈ values, domain value)
      fun values => values.map part := by
  intro first second rest others hfirst hsecond heq
  rw [List.append_assoc, List.append_assoc] at heq
  have hlength := hcount hfirst.1 hsecond.1 heq
  exact flatMap hwrite hlength.1 hfirst.2 hsecond.2 hlength.2

/-- A text behind its length. -/
theorem text {count : Nat → List Symbol} {bound : Nat} (hcount : SelfDelimiting count (· < bound) id) :
    SelfDelimiting (fun text : List Symbol => count text.length ++ text)
      (fun text => text.length < bound) id := by
  intro first second rest others hfirst hsecond heq
  rw [List.append_assoc, List.append_assoc] at heq
  have hlength := hcount hfirst hsecond heq
  exact List.append_inj hlength.2 hlength.1

end SelfDelimiting
