import Kuatia.Collections.SelfDelimiting
import Kuatia.Types.Canonical
import Mathlib.Data.Nat.ModEq

/-! # What canonical bytes determine

Every fixed-width field is injective in its width, every variable-length section
stands behind its length, so the bytes of an envelope or an account determine it
up to the payers, as long as every length fits the `u32` it is written in.
-/

namespace Kuatia

/-! ## Fixed-width integers -/

/-- The number that big-endian bytes stand for. -/
def beValue : List UInt8 → Nat
  | [] => 0
  | byte :: rest => byte.toNat * 256 ^ rest.length + beValue rest

theorem beValue_beBytes (width v : Nat) : beValue (beBytes width v) = v % 256 ^ width := by
  induction width with
  | zero => rw [Nat.pow_zero, Nat.mod_one]; rfl
  | succ width ih =>
      have hbyte : (UInt8.ofNat (v / 256 ^ width)).toNat = v / 256 ^ width % 256 :=
        UInt8.toNat_ofNat'
      rw [beBytes, beValue, ih, length_beBytes, hbyte, Nat.pow_succ, Nat.mod_mul]
      ring

theorem beBytes_inj {width first second : Nat} (hfirst : first < 256 ^ width)
    (hsecond : second < 256 ^ width) (heq : beBytes width first = beBytes width second) :
    first = second := by
  have hvalue := congrArg beValue heq
  rwa [beValue_beBytes, beValue_beBytes, Nat.mod_eq_of_lt hfirst, Nat.mod_eq_of_lt hsecond] at hvalue

section Words

/-- A number written in a fixed number of bytes that hold it. -/
theorem selfDelimiting_beBytes (width : Nat) :
    SelfDelimiting (beBytes width) (· < 256 ^ width) id :=
  .of_length (length_beBytes width) fun _ _ hfirst hsecond heq => beBytes_inj hfirst hsecond heq

theorem selfDelimiting_writeU16 : SelfDelimiting writeU16 (fun _ => True) id :=
  .weaken ((selfDelimiting_beBytes 2).comap UInt16.toNat) (fun v _ => v.toNat_lt)
    fun _ _ heq => UInt16.toNat_inj.mp heq

theorem selfDelimiting_writeU32 : SelfDelimiting writeU32 (fun _ => True) id :=
  .weaken ((selfDelimiting_beBytes 4).comap UInt32.toNat) (fun v _ => v.toNat_lt)
    fun _ _ heq => UInt32.toNat_inj.mp heq

theorem selfDelimiting_writeU64 : SelfDelimiting writeU64 (fun _ => True) id :=
  .weaken ((selfDelimiting_beBytes 8).comap UInt64.toNat) (fun v _ => v.toNat_lt)
    fun _ _ heq => UInt64.toNat_inj.mp heq

theorem selfDelimiting_writeI64 : SelfDelimiting writeI64 (fun _ => True) id := by
  refine .weaken (selfDelimiting_writeU64.comap Int64.toUInt64) (fun _ _ => trivial) ?_
  intro first second heq
  simpa using congrArg UInt64.toInt64 heq

/-- A length below `2 ^ 32`, cast to a `u32`. -/
theorem selfDelimiting_length :
    SelfDelimiting (fun length => writeU32 (.ofNat length)) (· < 2 ^ 32) id := by
  intro first second rest others hfirst hsecond heq
  have hword := selfDelimiting_writeU32 trivial trivial heq
  refine ⟨?_, hword.2⟩
  rw [id, id, ← UInt32.toNat_ofNat_of_lt' hfirst, ← UInt32.toNat_ofNat_of_lt' hsecond]
  exact congrArg UInt32.toNat hword.1

theorem selfDelimiting_bytes {width : Nat} :
    SelfDelimiting (fun bytes : Vector UInt8 width => bytes.toList) (fun _ => True) id :=
  .of_length (fun bytes => bytes.length_toList) fun _ _ _ _ heq => Vector.toList_inj.mp heq

/-- A list behind its `u32` length. -/
theorem selfDelimiting_writeList {α β : Type} {write : α → List UInt8} {domain : α → Prop}
    {part : α → β} (hwrite : SelfDelimiting write domain part) :
    SelfDelimiting (writeList write)
      (fun list => list.length < 2 ^ 32 ∧ ∀ item ∈ list, domain item) (·.map part) :=
  .counted selfDelimiting_length hwrite

end Words

/-! ## Identifiers -/

section Ids

theorem selfDelimiting_accountId : SelfDelimiting (toBytes (α := AccountId)) (fun _ => True) id := by
  have hlegs := (selfDelimiting_writeI64.comap AccountId.id).append
    (selfDelimiting_writeI64.comap AccountId.sub)
  refine hlegs.weaken (fun _ _ => ⟨trivial, trivial⟩) fun first second heq => ?_
  cases first
  cases second
  simpa using heq

theorem selfDelimiting_accountSnapshotId :
    SelfDelimiting (toBytes (α := AccountSnapshotId)) (fun _ => True) id := by
  have hparts := (selfDelimiting_accountId.comap AccountSnapshotId.account).append
    (selfDelimiting_bytes.comap AccountSnapshotId.snapshotId)
  refine hparts.weaken (fun _ _ => ⟨trivial, trivial⟩) fun first second heq => ?_
  cases first
  cases second
  simpa using heq

theorem selfDelimiting_postingId : SelfDelimiting (toBytes (α := PostingId)) (fun _ => True) id := by
  have hparts := (selfDelimiting_bytes.comap fun id : PostingId => id.transfer.bytes).append
    (selfDelimiting_writeU16.comap PostingId.index)
  refine hparts.weaken (fun _ _ => ⟨trivial, trivial⟩) fun first second heq => ?_
  obtain ⟨⟨firstBytes⟩, firstIndex⟩ := first
  obtain ⟨⟨secondBytes⟩, secondIndex⟩ := second
  simpa using heq

theorem selfDelimiting_assetId : SelfDelimiting (toBytes (α := AssetId)) (fun _ => True) id := by
  refine (selfDelimiting_writeU32.comap AssetId.id).weaken (fun _ _ => trivial) fun first second heq => ?_
  exact congrArg AssetId.mk heq

theorem selfDelimiting_accountFlags :
    SelfDelimiting (toBytes (α := AccountFlags)) (fun _ => True) id := by
  refine (selfDelimiting_writeU32.comap AccountFlags.bits).weaken (fun _ _ => trivial)
    fun first second heq => ?_
  exact congrArg AccountFlags.mk heq

theorem selfDelimiting_bookId : SelfDelimiting (toBytes (α := BookId)) (fun _ => True) id := by
  refine (selfDelimiting_writeI64.comap BookId.id).weaken (fun _ _ => trivial) fun first second heq => ?_
  exact congrArg BookId.mk heq

end Ids

/-! ## Metadata and accounts -/

section Metadata

theorem toList_loop_eq (bytes : ByteArray) (i : Nat) (earlier : List UInt8) :
    ByteArray.toList.loop bytes i earlier = earlier.reverse ++ bytes.data.toList.drop i := by
  fun_induction ByteArray.toList.loop bytes i earlier with
  | case1 i earlier hi ih =>
      have hi : i < bytes.data.toList.length := hi
      have hget : bytes.get! i = bytes.data.toList[i] := getElem!_pos bytes.data i hi
      rw [ih, List.drop_eq_getElem_cons hi, hget]
      simp
  | case2 i earlier hi =>
      have hi : bytes.data.toList.length ≤ i := Nat.le_of_not_lt hi
      rw [List.drop_eq_nil_of_le hi, List.append_nil]

theorem toList_eq_data (bytes : ByteArray) : bytes.toList = bytes.data.toList := by
  rw [ByteArray.toList, toList_loop_eq]
  rfl

theorem length_toList_toUTF8 (key : String) : key.toUTF8.toList.length = key.utf8ByteSize := by
  rw [toList_eq_data]
  rfl

theorem toList_toUTF8_inj {first second : String} (heq : first.toUTF8.toList = second.toUTF8.toList) :
    first = second := by
  rw [toList_eq_data, toList_eq_data] at heq
  exact String.toByteArray_inj.mp (ByteArray.ext (Array.toList_inj.mp heq))

/-- Every length of a metadata map is below `2 ^ 32`. -/
structure Metadata.Fits (metadata : Metadata) : Prop where
  entries : metadata.entries.length < 2 ^ 32
  keys : ∀ entry ∈ metadata.entries, entry.1.utf8ByteSize < 2 ^ 32
  values : ∀ entry ∈ metadata.entries, entry.2.length < 2 ^ 32

theorem selfDelimiting_metadata : SelfDelimiting (toBytes (α := Metadata)) Metadata.Fits id := by
  have hkey : SelfDelimiting
      (fun key : String => writeU32 (.ofNat key.toUTF8.toList.length) ++ key.toUTF8.toList)
      (fun key => key.utf8ByteSize < 2 ^ 32) id :=
    (SelfDelimiting.text selfDelimiting_length).comap (fun key : String => key.toUTF8.toList)
      |>.weaken (fun key hkey => (length_toList_toUTF8 key).trans_lt hkey)
        fun _ _ heq => toList_toUTF8_inj heq
  have hentry := (hkey.comap (Prod.fst (β := List UInt8))).append
    ((SelfDelimiting.text selfDelimiting_length).comap Prod.snd)
  have hentries := (selfDelimiting_writeList
    (hentry.congr fun _ => (List.append_assoc ..))).comap Metadata.entries
  refine hentries.weaken (fun metadata hfits => ⟨hfits.entries, fun entry hentry =>
    ⟨hfits.keys entry hentry, hfits.values entry hentry⟩⟩) fun first second heq => ?_
  cases first
  cases second
  simpa using heq

/-- The bytes of an account show all of it. -/
theorem selfDelimiting_account :
    SelfDelimiting (toBytes (α := Account)) (fun account => account.metadata.Fits) id := by
  have hparts := (((((SelfDelimiting.mark [CANONICAL_VERSION]).append
    (selfDelimiting_accountId.comap Account.id)).append
    (selfDelimiting_writeU64.comap Account.version)).append
    (selfDelimiting_accountFlags.comap Account.flags)).append
    (selfDelimiting_bookId.comap Account.book)).append
    (selfDelimiting_metadata.comap Account.metadata)
  refine hparts.weaken (fun account hfits =>
    ⟨⟨⟨⟨⟨trivial, trivial⟩, trivial⟩, trivial⟩, trivial⟩, hfits⟩) fun first second heq => ?_
  cases first
  cases second
  simpa [and_assoc] using heq

end Metadata

/-! ## Envelopes -/

section Envelopes

variable [MoneyWidth]

theorem Cent.fits_i128 (amount : Cent) : -2 ^ 127 ≤ amount.val ∧ amount.val < 2 ^ 127 := by
  have hmin := amount.min_le
  have hmax := amount.le_max
  revert hmin hmax
  generalize MoneyWidth.backing = backing
  cases backing <;> simp only [Backing.min, Backing.max, Backing.bits] <;> omega

/-- Sixteen bytes hold the amounts of either backing. -/
theorem selfDelimiting_cent : SelfDelimiting (toBytes (α := Cent)) (fun _ => True) id := by
  refine .of_length (fun _ => length_beBytes ..) fun first second _ _ heq => Cent.ext ?_
  have hwords : (first.val % 2 ^ 128).toNat = (second.val % 2 ^ 128).toNat :=
    beBytes_inj (by omega) (by omega) heq
  have hfirst := first.fits_i128
  have hsecond := second.fits_i128
  change first.val = second.val
  omega

/-- A created posting without the note on who pays for it. -/
def NewPosting.withoutPayer (posting : NewPosting) : NewPosting := { posting with payer := none }

/-- An envelope without the notes on who pays. -/
def Envelope.withoutPayers (envelope : Envelope) : Envelope :=
  { envelope with creates := envelope.creates.map NewPosting.withoutPayer }

/-- Every length of an envelope is below `2 ^ 32`. -/
structure Envelope.Fits (envelope : Envelope) : Prop where
  consumes : envelope.consumes.length < 2 ^ 32
  creates : envelope.creates.length < 2 ^ 32
  accountSnapshots : envelope.accountSnapshots.length < 2 ^ 32
  metadata : envelope.metadata.Fits

theorem selfDelimiting_newPosting :
    SelfDelimiting (toBytes (α := NewPosting)) (fun _ => True) NewPosting.withoutPayer := by
  have hparts := ((selfDelimiting_accountId.comap NewPosting.owner).append
    (selfDelimiting_assetId.comap NewPosting.asset)).append
    (selfDelimiting_cent.comap NewPosting.value)
  refine hparts.weaken (fun _ _ => ⟨⟨trivial, trivial⟩, trivial⟩) fun first second heq => ?_
  cases first
  cases second
  simpa [NewPosting.withoutPayer, and_assoc] using heq

/-- The bytes of an envelope show all of it but the payers. -/
theorem selfDelimiting_envelope :
    SelfDelimiting (toBytes (α := Envelope)) Envelope.Fits Envelope.withoutPayers := by
  have hparts := (((((SelfDelimiting.mark [CANONICAL_VERSION]).append
    ((selfDelimiting_writeList selfDelimiting_postingId).comap Envelope.consumes)).append
    ((selfDelimiting_writeList selfDelimiting_newPosting).comap Envelope.creates)).append
    ((selfDelimiting_writeList selfDelimiting_accountSnapshotId).comap
      Envelope.accountSnapshots)).append
    (selfDelimiting_bookId.comap Envelope.book)).append
    (selfDelimiting_metadata.comap Envelope.metadata)
  refine hparts.weaken (fun envelope hfits => ⟨⟨⟨⟨⟨trivial, hfits.consumes, fun _ _ => trivial⟩,
    hfits.creates, fun _ _ => trivial⟩, hfits.accountSnapshots, fun _ _ => trivial⟩, trivial⟩,
    hfits.metadata⟩) fun first second heq => ?_
  cases first
  cases second
  simpa [Envelope.withoutPayers, and_assoc] using heq

/-- The payers are not among the bytes. -/
theorem toBytes_withoutPayers (envelope : Envelope) :
    toBytes envelope.withoutPayers = toBytes envelope := by
  simp only [toBytes, Envelope.withoutPayers, writeList, List.length_map, List.flatMap_map,
    NewPosting.withoutPayer]

/-- Envelopes and accounts whose lengths fit their fields have the same canonical
bytes only if they are the same, up to the payers of the created postings. -/
theorem canonicalBytes_injective :
    (∀ first second : Envelope, first.Fits → second.Fits →
      (toBytes first = toBytes second ↔ first.withoutPayers = second.withoutPayers)) ∧
    ∀ first second : Account, first.metadata.Fits → second.metadata.Fits →
      (toBytes first = toBytes second ↔ first = second) := by
  refine ⟨fun first second hfirst hsecond => ⟨fun heq => ?_, fun heq => ?_⟩,
    fun first second hfirst hsecond => ⟨fun heq => ?_, congrArg _⟩⟩
  · exact selfDelimiting_envelope.part_eq hfirst hsecond heq
  · rw [← toBytes_withoutPayers first, heq, toBytes_withoutPayers]
  · exact selfDelimiting_account.part_eq hfirst hsecond heq

end Envelopes

theorem Metadata.fits_single {key : String} {value : List UInt8}
    (hkey : key.utf8ByteSize < 2 ^ 32) (hvalue : value.length < 2 ^ 32) :
    (Metadata.single key value).Fits where
  entries := by simp [Metadata.single]
  keys entry hentry := by rwa [List.mem_singleton.mp hentry]
  values entry hentry := by rwa [List.mem_singleton.mp hentry]

/-- Two postings are consumed and two created, one version is pinned. -/
def transferring [MoneyWidth] (payer : Option AccountId) (metadata : Metadata) : Envelope where
  consumes := [⟨⟨.replicate 32 1⟩, 0⟩, ⟨⟨.replicate 32 1⟩, 1⟩]
  creates := [⟨⟨2, 0⟩, ⟨1⟩, .ofI64 5, payer⟩, ⟨⟨3, 7⟩, ⟨1⟩, .ofI64 (-5), none⟩]
  accountSnapshots := [⟨⟨2, 0⟩, .replicate 32 9⟩]
  book := DEFAULT_BOOK
  metadata

/-- A payer leaves no trace; a byte that moves from a key to its value does. -/
theorem canonicalBytes_injective_sample :
    letI : MoneyWidth := ⟨.i64⟩
    toBytes (transferring (some ⟨1, 0⟩) (.single "ab" [99])) =
      toBytes (transferring none (.single "ab" [99])) ∧
    toBytes (transferring none (.single "ab" [99])) ≠
      toBytes (transferring none (.single "a" [98, 99])) ∧
    toBytes { Account.new ⟨1, 0⟩ with metadata := .single "ab" [99] } ≠
      toBytes { Account.new ⟨1, 0⟩ with metadata := .single "a" [98, 99] } := by
  let _ : MoneyWidth := ⟨.i64⟩
  have hlong : (Metadata.single "ab" [99]).Fits := Metadata.fits_single (by decide) (by decide)
  have hshort : (Metadata.single "a" [98, 99]).Fits := Metadata.fits_single (by decide) (by decide)
  have hfits : ∀ payer metadata, metadata.Fits → (transferring payer metadata).Fits :=
    fun _ _ hmetadata => ⟨by simp [transferring], by simp [transferring], by simp [transferring],
      hmetadata⟩
  have hdiffer : Metadata.single "ab" [99] ≠ Metadata.single "a" [98, 99] := by decide
  refine ⟨?_, fun heq => ?_, fun heq => ?_⟩
  · exact (canonicalBytes_injective.1 _ _ (hfits _ _ hlong) (hfits _ _ hlong)).mpr (by decide)
  · have hsame := (canonicalBytes_injective.1 _ _ (hfits _ _ hlong) (hfits _ _ hshort)).mp heq
    exact absurd (congrArg Envelope.metadata hsame) hdiffer
  · have hsame := (canonicalBytes_injective.2 _ _ hlong hshort).mp heq
    exact absurd (congrArg Account.metadata hsame) hdiffer

end Kuatia
