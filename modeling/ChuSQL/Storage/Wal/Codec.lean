import ChuSQL.Storage.Wal.Recovery
import ChuSQL.Library.Fallible

/-! When every cut of a log is read exactly: table names and bodies must fit the widths
of their length fields, which `encode` does not check, and a migration must pass the
check of its own decoder. -/

set_option autoImplicit false

namespace ChuSQL.Storage

open Library Library.Framing WalOp

namespace WalOp

variable {serde : Serde} {op : WalOp}

/-- Numbers within the types of their fields. -/
def Typed : WalOp → Prop
  | migrate _ objectId _ _ => objectId < 2 ^ 64
  | accounts records _ _ => ∀ account ∈ records, account.Sized
  | deleteKeys _ keys => ∀ key ∈ keys, -2 ^ 63 ≤ key ∧ key < 2 ^ 63
  | hideColumn _ _ version | dropColumn _ _ version _ => VersionSized version
  | replaceSchema _ _ version _ => VersionSized version
  | createTable _ _ objectId => VersionSized objectId
  | compact .. | insert .. | insertBatch .. | replaceAll .. | dropTable _ | createIndex ..
  | dropIndex .. | commit => True

def columns : WalOp → List SchemaColumn
  | replaceSchema _ columns _ _ | createTable _ columns _ => columns
  | _ => []

/-- The JSON library reads back the payload; it would read a null default as none. -/
structure RoundTrips (serde : Serde) (op : WalOp) : Prop where
  faithful : ∀ value ∈ op.payloadJson, serde.Faithful value
  shown : ColumnsShown op.columns

instance : (op : WalOp) → Decidable op.Typed
  | migrate _ objectId _ _ => inferInstanceAs (Decidable (objectId < 2 ^ 64))
  | accounts records _ _ => inferInstanceAs (Decidable (∀ account ∈ records, account.Sized))
  | deleteKeys _ keys => inferInstanceAs (Decidable (∀ key ∈ keys, -2 ^ 63 ≤ key ∧ key < 2 ^ 63))
  | hideColumn _ _ version | dropColumn _ _ version _ => inferInstanceAs (Decidable (VersionSized version))
  | replaceSchema _ _ version _ => inferInstanceAs (Decidable (VersionSized version))
  | createTable _ _ objectId => inferInstanceAs (Decidable (VersionSized objectId))
  | compact .. | insert .. | insertBatch .. | replaceAll .. | dropTable _ | createIndex ..
  | dropIndex .. | commit => .isTrue trivial

def Generations : WalOp → Prop
  | migrate _ _ source target => validGeneration source ∧ ¬target.isEmpty ∧ validGeneration target
  | _ => True

instance : (op : WalOp) → Decidable op.Generations
  | migrate _ _ source target =>
      inferInstanceAs (Decidable (validGeneration source ∧ ¬target.isEmpty ∧ validGeneration target))
  | compact .. | insert .. | insertBatch .. | replaceAll .. | dropTable _ | createIndex ..
  | dropIndex .. | commit | accounts .. | deleteKeys .. | hideColumn .. | dropColumn ..
  | replaceSchema .. | createTable .. => .isTrue trivial

/-- The table name and the body fit their length fields, the generations their check. -/
structure Fits (serde : Serde) (op : WalOp) : Prop where
  table : (utf8 op.frameTable).length < 2 ^ 16
  body : 11 + (utf8 op.frameTable).length + (op.payload serde).length < 2 ^ 32
  generations : op.Generations

theorem valid_of_typed (typed : op.Typed) (shown : ColumnsShown op.columns) (generations : op.Generations) :
    op.Valid := by
  cases op with
  | migrate table objectId source target => exact ⟨typed, generations⟩
  | replaceSchema table columns version rows => exact ⟨typed, shown⟩
  | createTable table columns objectId => exact ⟨typed, shown⟩
  | _ => exact typed

/-! ### What a decoded body says -/

theorem decodeMigrate_generations {table : String} {payload : Bytes}
    (decoded : decodeMigrate serde table payload = .ok op) :
    op.Generations ∧ op.opType = 15 ∧ op.frameTable = table := by
  obtain ⟨parts, _, checked⟩ := bind_eq_ok.mp decoded
  obtain ⟨name, objectId, source, target⟩ := parts
  dsimp only at checked
  split at checked
  · next holds =>
      cases checked
      exact ⟨holds.2, rfl, holds.1⟩
  · cases checked

theorem decodeAccounts_frameTable {payload : Bytes} (decoded : decodeAccounts serde payload = .ok op) :
    op.Generations ∧ op.opType = 6 ∧ op.frameTable = usersTable := by
  unfold decodeAccounts at decoded
  split at decoded
  · cases decoded
  · dsimp only at decoded
    split at decoded
    · obtain ⟨_, _, same⟩ := bind_eq_ok.mp decoded
      cases same
      exact ⟨trivial, rfl, rfl⟩
    · split at decoded
      · obtain ⟨_, _, decoded⟩ := bind_eq_ok.mp decoded
        split at decoded
        · obtain ⟨_, _, decoded⟩ := bind_eq_ok.mp decoded
          split at decoded
          · cases decoded
            exact ⟨trivial, rfl, rfl⟩
          · cases decoded
        · cases decoded
      · cases decoded

/-- A decoded operation has the type of its frame and is on the table named there, and its
generations are checked. -/
theorem decodeOp_frame {opType : Fin 256} {table : String} {payload : Bytes}
    (decoded : decodeOp serde opType table payload = .ok op) :
    op.Generations ∧ op.opType = opType ∧ (op = .commit ∨ op.frameTable = table) := by
  unfold decodeOp at decoded
  split at decoded
  case h_1 kind =>
    obtain ⟨generations, migrates, same⟩ := decodeMigrate_generations decoded
    exact ⟨generations, migrates.trans (Fin.ext kind.symm), .inr same⟩
  case h_2 kind =>
    cases decoded
    exact ⟨trivial, Fin.ext kind.symm, .inl rfl⟩
  case h_5 kind =>
    split at decoded
    · next users =>
        obtain ⟨generations, replaces, same⟩ := decodeAccounts_frameTable decoded
        exact ⟨generations, replaces.trans (Fin.ext kind.symm), .inr (same.trans users.symm)⟩
    · cases decoded
  case h_13 kind =>
    cases decoded
    exact ⟨trivial, Fin.ext kind.symm, .inr rfl⟩
  case h_16 => cases decoded
  all_goals
    rename_i kind
    obtain ⟨_, _, same⟩ := bind_eq_ok.mp decoded
    cases same
    exact ⟨trivial, Fin.ext kind.symm, .inr rfl⟩

theorem opType_commit : op.opType = 10 ↔ op = .commit := by
  cases op <;> simp [opType]

theorem utf8_length (text : String) : (utf8 text).length = text.toByteArray.size := by
  simp [utf8]

/-- The text of some bytes has as many bytes. -/
theorem fromUtf8_length {bytes : Bytes} {text : String} (read : fromUtf8 bytes = some text) :
    (utf8 text).length = bytes.length := by
  unfold fromUtf8 String.fromUTF8? at read
  split at read
  · cases read
    rw [utf8_length]
    show (bytes.map fun byte => UInt8.ofNat byte.val).toArray.size = bytes.length
    rw [List.size_toArray, List.length_map]
  · cases read

/-- An operation that is read back from its own body fits. -/
theorem fits_of_read {lsn : Nat} (read : decodeBody serde (op.encodeBody serde lsn) = .ok (lsn, op))
    (short : (op.encodeBody serde lsn).length < 256 ^ 4) : op.Fits serde := by
  have length := encodeBody_length serde lsn op
  have body : 11 + (utf8 op.frameTable).length + (op.payload serde).length < 2 ^ 32 := by
    rw [← length]
    exact short
  have afterType : (op.encodeBody serde lsn).drop 9 = littleEndian 2 (utf8 op.frameTable).length ++
      (utf8 op.frameTable ++ op.payload serde) := by
    rw [encodeBody, List.drop_append, List.drop_eq_nil_of_le (by simp)]
    simp
  have lengthRead : ofLittleEndian (((op.encodeBody serde lsn).drop 9).take 2) < 2 ^ 16 := by
    rw [afterType, List.take_left' (littleEndian_length 2 _), ofLittleEndian_mod]
    exact Nat.mod_lt _ (by decide)
  unfold decodeBody at read
  split at read
  · cases read
  dsimp only at read
  split at read
  · cases read
  split at read
  · cases read
  next table text =>
  obtain ⟨decodedOp, decoded, same⟩ := bind_eq_ok.mp read
  obtain rfl : decodedOp = op := (Prod.mk.inj (Except.ok.inj same)).2
  obtain ⟨generations, _, onTable⟩ := decodeOp_frame decoded
  refine ⟨?_, body, generations⟩
  cases onTable with
  | inl isCommit =>
      rw [isCommit]
      decide
  | inr named =>
      rw [named, fromUtf8_length text, List.length_take]
      omega

theorem writable_of_fits (typed : op.Typed) (trips : op.RoundTrips serde) (fits : op.Fits serde) :
    op.Writable serde where
  valid := valid_of_typed typed trips.shown fits.generations
  faithful := trips.faithful
  table := fits.table
  body := fun lsn => by
    rw [encodeBody_length]
    exact fits.body

end WalOp

namespace Wal

variable {serde : Serde}

/-- The record is about a table the storage layer accepts, its numbers fit their types, and
the JSON library reads back its payload. -/
structure Accepted (serde : Serde) (record : Record) : Prop where
  table : ∀ table ∈ record.2.table, validStorageName table = true
  lsn : record.1 < 2 ^ 64
  typed : record.2.Typed
  trips : record.2.RoundTrips serde

theorem readable_iff {record : Record} (accepted : Accepted serde record) :
    (WalOp.decodeBody serde (record.2.encodeBody serde record.1) = .ok record ∧
      (record.2.encodeBody serde record.1).length < 256 ^ 4) ↔ record.2.Fits serde := by
  constructor
  · exact fun readable => WalOp.fits_of_read readable.1 readable.2
  · intro fits
    have writable := WalOp.writable_of_fits accepted.typed accepted.trips fits
    exact ⟨WalOp.decodeBody_encodeBody accepted.lsn writable, writable.body record.1⟩

/-- Cut at any byte, a log is read as exactly the records whose frames lie below the cut, with
their offsets and the end of the last of them: for each operation whose table name and body fit
their length fields and whose generations pass their check, and for no other. -/
theorem cuts_exact_iff (records : List Record) (accepted : ∀ record ∈ records, Accepted serde record) :
    (∀ cut, parse serde ((records.flatMap (encodeRecord serde)).take cut) =
      .ok (located (frameSize serde) 0 (whole (frameSize serde) cut records),
        ((whole (frameSize serde) cut records).map (frameSize serde)).sum)) ↔
      ∀ record ∈ records, record.2.Fits serde := by
  have framed : CutsExact (WalOp.decodeBody serde) (fun record : Record => record.2.encodeBody serde record.1)
      records ↔ ∀ record ∈ records, record.2.Fits serde :=
    cutsExact_iff.trans (forall₂_congr fun record member => readable_iff (accepted record member))
  exact framed

theorem update_accepted : ∀ record ∈ (Group.mk 1 updateOps).records, Accepted sampleSerde record := by
  have checked : ∀ record ∈ (Group.mk 1 updateOps).records,
      (∀ table ∈ record.2.table, validStorageName table = true) ∧ record.1 < 2 ^ 64 ∧
        (∀ value ∈ record.2.payloadJson, sampleSerde.Faithful value) ∧ ColumnsShown record.2.columns := by
    decide +kernel
  intro record member
  obtain ⟨table, lsn, faithful, shown⟩ := checked record member
  refine ⟨table, lsn, ?_, faithful, shown⟩
  revert record
  decide +kernel

theorem cuts_exact_update :
    parse sampleSerde (((Group.mk 1 updateOps).records.flatMap (encodeRecord sampleSerde)).take 30) =
      .ok (located (frameSize sampleSerde) 0 (whole (frameSize sampleSerde) 30 (Group.mk 1 updateOps).records),
        ((whole (frameSize sampleSerde) 30 (Group.mk 1 updateOps).records).map (frameSize sampleSerde)).sum) := by
  refine (cuts_exact_iff (Group.mk 1 updateOps).records update_accepted).mpr ?_ 30
  have fits : ∀ record ∈ (Group.mk 1 updateOps).records, (utf8 record.2.frameTable).length < 2 ^ 16 ∧
      11 + (utf8 record.2.frameTable).length + (record.2.payload sampleSerde).length < 2 ^ 32 := by
    decide +kernel
  intro record member
  obtain ⟨table, body⟩ := fits record member
  refine ⟨table, body, ?_⟩
  revert record
  decide +kernel

/-- A table name of so many letters. -/
def letters (count : Nat) : String := String.ofList (List.replicate count 'a')

theorem letters_length (count : Nat) : (utf8 (letters count)).length = count := by
  have encoded : (List.replicate count 'a').utf8Encode.size = count := by
    induction count with
    | zero => rfl
    | succ count ih =>
        rw [List.replicate_succ, List.utf8Encode_cons, ByteArray.size_append, ih, Nat.add_comm]
        rfl
  rw [WalOp.utf8_length, letters, String.toByteArray_ofList, encoded]

theorem letters_valid {count : Nat} (positive : 0 < count) : validStorageName (letters count) = true := by
  have shown : (letters count).toList = List.replicate count 'a' := String.toList_ofList
  have filled : (letters count).isEmpty = false := by
    rw [Bool.eq_false_iff]
    intro empty
    have nothing : letters count = "" := by simpa using empty
    rw [nothing] at shown
    have length := congrArg List.length shown
    rw [List.length_replicate] at length
    exact Nat.ne_of_gt positive length.symm
  simp only [validStorageName, filled, shown, Bool.not_false, Bool.true_and, List.all_eq_true]
  intro letter member
  rw [List.eq_of_mem_replicate member]
  decide

/-- One letter too many for the length field. -/
def longDrop : Record := (1, .dropTable (letters 65536))

/-- The storage layer accepts the name, but a log with its table dropped is not read back. -/
theorem long_table_name_misread : Accepted sampleSerde longDrop ∧
    ¬∀ cut, parse sampleSerde (([longDrop].flatMap (encodeRecord sampleSerde)).take cut) =
      .ok (located (frameSize sampleSerde) 0 (whole (frameSize sampleSerde) cut [longDrop]),
        ((whole (frameSize sampleSerde) cut [longDrop]).map (frameSize sampleSerde)).sum) := by
  constructor
  · refine ⟨fun table named => ?_, by decide, trivial, ⟨fun value absent => ?_, fun column absent => ?_⟩⟩
    · obtain rfl := Option.some.inj named
      exact @letters_valid 65536 (by omega)
    · cases absent
    · cases absent
  · intro cuts
    have framed : CutsExact (WalOp.decodeBody sampleSerde)
        (fun record : Record => record.2.encodeBody sampleSerde record.1) [longDrop] := cuts
    have readable := cutsExact_iff.mp framed longDrop (List.mem_singleton_self _)
    have short : (utf8 (letters 65536)).length < 2 ^ 16 := (WalOp.fits_of_read readable.1 readable.2).table
    rw [letters_length] at short
    exact absurd short (by decide)

end Wal

end ChuSQL.Storage
