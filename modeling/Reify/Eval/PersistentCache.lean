import Reify.Foundation.Bincode

/-!
# The on-disk cache

An entry is one file: a header of 92 bytes, which echoes the two halves of the
key, and the body that the value's own codec writes.  A read answers with the
value, with a miss, or with an error that the caller has to handle.

## Main definitions

* `PersistentlyCacheable`: how a value is written, read back and costed.
* `CacheEntryHeader`, with `writeTo`, `readFrom` and the two `verify` checks.
* `writeEntry`, `readEntry`.
* `DamageIsMiss`: a read of these bytes answers with the value only under a
  matching header, and else with a miss.

## Main results

* `damageIsMiss_iff`: this is so exactly for files of 92 bytes or more.
-/

namespace Reify

open Foundation Decoder

/-- `PersistentlyCacheable`: the bytes of a value, the reader that gets it back,
and the two costs the entry header records.  A read also returns what it left
unread of the stream its body came from. -/
structure PersistentlyCacheable (V : Type) where
  serializeToWriter : V → Except IoErrorKind (List UInt8)
  deserializeFromReader : Reader → Except IoErrorKind (V × Reader)
  uncompressedByteSize : V → UInt64
  solveTimeMs : V → UInt64

/-! ## The entry header -/

/-- The 32 bytes of one half of a cache key. -/
abbrev KeyBytes : Type := {bs : List UInt8 // bs.length = 32}

/-- The header in front of every entry. -/
structure CacheEntryHeader where
  formatVersion : UInt32
  engineVersionHash : KeyBytes
  inputHash : KeyBytes
  solveTimeMs : UInt64
  byteSize : UInt64
  writtenAt : Int64
deriving DecidableEq

/-- On-disk layout version. -/
def entryFormatVersion : UInt32 := 5

/-- Encoded length of a header: 4 + 32 + 32 + 8 + 8 + 8. -/
def entryHeaderEncodedLen : Nat := 92

namespace CacheEntryHeader

/-- The fields in their order on the disk. -/
def codec (bincode : Bincode) : Codec bincode.Error CacheEntryHeader :=
  (bincode.u32.pair <| (Codec.array 31 bincode.u8).pair <| (Codec.array 31 bincode.u8).pair <|
    bincode.u64.pair <| bincode.u64.pair bincode.i64).iso
    (fun (version, engine, input, solve, size, written) =>
      ⟨version, engine, input, solve, size, written⟩)
    (fun h => (h.formatVersion, h.engineVersionHash, h.inputHash, h.solveTimeMs, h.byteSize,
      h.writtenAt))
    fun _ => rfl

def verifyFormatVersion (h : CacheEntryHeader) : Except IoErrorKind Unit :=
  if h.formatVersion ≠ entryFormatVersion then .error .invalidData else .ok ()

def verifyFieldEchoes (h : CacheEntryHeader) (expectedEngineVersionHash expectedInputHash : KeyBytes) :
    Except IoErrorKind Unit :=
  if h.engineVersionHash ≠ expectedEngineVersionHash then .error .invalidData
  else if h.inputHash ≠ expectedInputHash then .error .invalidData
  else .ok ()

/-- Encodes the header. -/
def writeTo (bincode : Bincode) (h : CacheEntryHeader) : List UInt8 := (codec bincode).enc h

/-- Decodes a header; every bincode error is wrapped by `io::Error::other`. -/
def readFrom (bincode : Bincode) : Decoder IoErrorKind CacheEntryHeader :=
  Decoder.mapError (fun _ => .other) (codec bincode).dec

theorem verifyFormatVersion_eq_ok_iff {h : CacheEntryHeader} :
    h.verifyFormatVersion = .ok () ↔ h.formatVersion = entryFormatVersion := by
  rw [verifyFormatVersion]
  split <;> simp_all

theorem verifyFieldEchoes_eq_ok_iff {h : CacheEntryHeader} {engine input : KeyBytes} :
    h.verifyFieldEchoes engine input = .ok () ↔
      h.engineVersionHash = engine ∧ h.inputHash = input := by
  rw [verifyFieldEchoes]
  split
  · simp_all
  · split <;> simp_all

theorem exact_readFrom (bincode : Bincode) : Exact (readFrom bincode) entryHeaderEncodedLen :=
  (Codec.exact_iso <|
    Codec.exact_pair bincode.u32_exact <| Codec.exact_pair (Codec.exact_array 31 bincode.u8_exact) <|
    Codec.exact_pair (Codec.exact_array 31 bincode.u8_exact) <|
    Codec.exact_pair bincode.u64_exact <| Codec.exact_pair bincode.u64_exact
      bincode.i64_exact).mapError _

theorem length_enc (bincode : Bincode) (h : CacheEntryHeader) :
    ((codec bincode).enc h).length = entryHeaderEncodedLen := by
  have hengine : (h.engineVersionHash.val.flatMap bincode.u8.enc).length = 32 := by
    rw [List.length_flatMap]
    simp [bincode.length_u8_enc, h.engineVersionHash.property]
  have hinput : (h.inputHash.val.flatMap bincode.u8.enc).length = 32 := by
    rw [List.length_flatMap]
    simp [bincode.length_u8_enc, h.inputHash.property]
  simp only [codec, Codec.iso, Codec.pair, Codec.array, List.length_append, hengine, hinput,
    bincode.length_u32_enc, bincode.length_u64_enc, bincode.length_i64_enc]
  rfl

/-- A written header is read back. -/
theorem decodes_readFrom (bincode : Bincode) (h : CacheEntryHeader) :
    Decodes (readFrom bincode) (h.writeTo bincode) h := by
  refine ((codec bincode).dec_enc h ?_).mapError _
  rw [length_enc]
  decide

/-- A decoder error of the header reaches the caller as kind `Other`. -/
theorem readFrom_eq_error {bincode : Bincode} {r : Reader} {e : IoErrorKind}
    (h : readFrom bincode r = .error e) : e = .other := by
  rw [readFrom, Decoder.mapError] at h
  split at h
  · cases h
  · cases h
    rfl

end CacheEntryHeader

/-! ## Keys and paths -/

/-- Path components. -/
abbrev Path : Type := List String

/-- The stored files. -/
abbrev Files : Type := Path → Option (List UInt8)

/-- The files after one has been written or replaced. -/
def Files.set (files : Files) (path : Path) (bytes : List UInt8) : Files := fun p =>
  if p = path then some bytes else files p

@[simp] theorem Files.set_self (files : Files) (path : Path) (bytes : List UInt8) :
    files.set path bytes path = some bytes := if_pos rfl

/-- Checks the length of one half of a key, and nothing else. -/
def cacheKeyToAscii32 (s : String) : Except IoErrorKind KeyBytes :=
  if h : s.toUTF8.data.toList.length = 32 then .ok ⟨s.toUTF8.data.toList, h⟩
  else .error .invalidInput

/-- A key that the engine forms: two texts of 32 ASCII characters. -/
structure CacheKey where
  engineVersionHash : String
  inputHash : String
  engineBytes : KeyBytes
  inputBytes : KeyBytes
  engine_ok : cacheKeyToAscii32 engineVersionHash = .ok engineBytes
  input_ok : cacheKeyToAscii32 inputHash = .ok inputBytes
  ascii : ∀ c ∈ inputHash.toList, c.toNat < 128

/-- The directory of an entry; of an ASCII key, the first two bytes are the first
two characters. -/
def shardDir (cacheRoot : Path) (engineVersionHash inputHash : String) : Path :=
  cacheRoot ++ [engineVersionHash, String.ofList (inputHash.toList.take 2)]

/-- The file of an entry. -/
def entryBinPath (cacheRoot : Path) (engineVersionHash inputHash : String) : Path :=
  shardDir cacheRoot engineVersionHash inputHash ++ [inputHash ++ ".bin"]

/-! ## Writing -/

/-- The answers of the file system and the clock during one `write_entry`. -/
structure WriteCalls where
  createDirAll : Except IoErrorKind Unit
  tempfileIn : Except IoErrorKind Unit
  createDirAgain : Except IoErrorKind Unit
  tempfileAgain : Except IoErrorKind Unit
  writeAll : Except IoErrorKind Unit
  syncFile : Except IoErrorKind Unit
  persist : Except IoErrorKind Unit
  syncDir : Except IoErrorKind Unit
  writeSidecar : Except IoErrorKind Unit
  writtenAt : Int64

/-- Every call succeeds. -/
def WriteCalls.succeed (writtenAt : Int64) : WriteCalls :=
  ⟨.ok (), .ok (), .ok (), .ok (), .ok (), .ok (), .ok (), .ok (), .ok (), writtenAt⟩

section
variable {V : Type} (bincode : Bincode) (cacheable : PersistentlyCacheable V)

/-- The header that `write_entry` puts in front of a value. -/
def entryHeader (engineBytes inputBytes : KeyBytes) (writtenAt : Int64) (value : V) :
    CacheEntryHeader where
  formatVersion := entryFormatVersion
  engineVersionHash := engineBytes
  inputHash := inputBytes
  solveTimeMs := cacheable.solveTimeMs value
  byteSize := cacheable.uncompressedByteSize value
  writtenAt := writtenAt

/-- A temporary file in the shard directory; when a concurrent eviction has removed
the directory, it is created once more. -/
def createTempfile (calls : WriteCalls) : Except IoErrorKind Unit :=
  match calls.tempfileIn with
  | .ok () => .ok ()
  | .error .notFound => do
    calls.createDirAgain
    calls.tempfileAgain
  | .error e => .error e

/-- The steps up to the rename: the content of the temporary file. -/
def writeTempfile (calls : WriteCalls) (engineVersionHash inputHash : String) (value : V) :
    Except IoErrorKind (List UInt8) := do
  let engineBytes ← cacheKeyToAscii32 engineVersionHash
  let inputBytes ← cacheKeyToAscii32 inputHash
  calls.createDirAll
  createTempfile calls
  let header := entryHeader cacheable engineBytes inputBytes calls.writtenAt value
  let body ← cacheable.serializeToWriter value
  calls.writeAll
  calls.syncFile
  pure (header.writeTo bincode ++ body)

/-- Writes an entry: the file appears with the rename, and the steps behind it
can still fail. -/
def writeEntry (calls : WriteCalls) (files : Files) (cacheRoot : Path)
    (engineVersionHash inputHash : String) (value : V) : Except IoErrorKind Unit × Files :=
  match writeTempfile bincode cacheable calls engineVersionHash inputHash value with
  | .error e => (.error e, files)
  | .ok content =>
    match calls.persist with
    | .error e => (.error e, files)
    | .ok () =>
      (do
        calls.syncDir
        calls.writeSidecar,
       files.set (entryBinPath cacheRoot engineVersionHash inputHash) content)

/-! ## Reading -/

/-- The answers of the file system during one `read_entry`, the content of the
file apart. -/
structure ReadCalls where
  openFile : Except IoErrorKind Unit
  readFault : Option IoErrorKind

/-- Every call succeeds. -/
def ReadCalls.succeed : ReadCalls := ⟨.ok (), none⟩

/-- `File::open`. -/
def ReadCalls.open (calls : ReadCalls) (files : Files) (path : Path) : Except IoErrorKind Reader :=
  match files path with
  | none => .error .notFound
  | some bytes => calls.openFile.map fun _ => ⟨bytes, calls.readFault⟩

/-- Reads an entry: `none` is a miss. -/
def readEntry (calls : ReadCalls) (files : Files) (cacheRoot : Path)
    (engineVersionHash inputHash : String) : Except IoErrorKind (Option V) := do
  let expectedEngine ← cacheKeyToAscii32 engineVersionHash
  let expectedInput ← cacheKeyToAscii32 inputHash
  match calls.open files (entryBinPath cacheRoot engineVersionHash inputHash) with
  | .error .notFound => .ok none
  | .error e => .error e
  | .ok f =>
    match CacheEntryHeader.readFrom bincode f with
    | .error .unexpectedEof => .ok none
    | .error .invalidData => .ok none
    | .error e => .error e
    | .ok (header, f) =>
      match header.verifyFormatVersion with
      | .error _ => .ok none
      | .ok () =>
        match header.verifyFieldEchoes expectedEngine expectedInput with
        | .error _ => .ok none
        | .ok () =>
          match cacheable.deserializeFromReader f with
          | .error _ => .ok none
          | .ok (value, _) => .ok (some value)

end

/-! ## A written entry -/

/-- A sequence of checks succeeds when each does. -/
theorem except_bind_eq_ok_iff {ε α β : Type} {x : Except ε α} {f : α → Except ε β} {b : β} :
    (x >>= f) = .ok b ↔ ∃ a, x = .ok a ∧ f a = .ok b := by
  cases x with
  | error e => simp [bind, Except.bind]
  | ok a => simp [bind, Except.bind]

section
variable {V : Type} (bincode : Bincode) (cacheable : PersistentlyCacheable V)
  {calls : WriteCalls} {engineVersionHash inputHash : String} {value : V}

/-- What reaches the rename: a header that echoes the key, and the value's body. -/
theorem writeTempfile_eq_ok {content : List UInt8}
    (h : writeTempfile bincode cacheable calls engineVersionHash inputHash value = .ok content) :
    ∃ engineBytes inputBytes body,
      cacheKeyToAscii32 engineVersionHash = .ok engineBytes ∧
      cacheKeyToAscii32 inputHash = .ok inputBytes ∧
      cacheable.serializeToWriter value = .ok body ∧
      content = (entryHeader cacheable engineBytes inputBytes calls.writtenAt value).writeTo
        bincode ++ body := by
  obtain ⟨engineBytes, hengine, h⟩ := except_bind_eq_ok_iff.mp h
  obtain ⟨inputBytes, hinput, h⟩ := except_bind_eq_ok_iff.mp h
  obtain ⟨-, -, h⟩ := except_bind_eq_ok_iff.mp h
  obtain ⟨-, -, h⟩ := except_bind_eq_ok_iff.mp h
  obtain ⟨body, hbody, h⟩ := except_bind_eq_ok_iff.mp h
  obtain ⟨-, -, h⟩ := except_bind_eq_ok_iff.mp h
  obtain ⟨-, -, h⟩ := except_bind_eq_ok_iff.mp h
  cases h
  exact ⟨engineBytes, inputBytes, body, hengine, hinput, hbody, rfl⟩

/-- A write that succeeds has stored what was in the temporary file. -/
theorem writeEntry_eq_ok {files : Files} {cacheRoot : Path}
    (h : (writeEntry bincode cacheable calls files cacheRoot engineVersionHash inputHash value).1 =
      .ok ()) :
    ∃ content,
      writeTempfile bincode cacheable calls engineVersionHash inputHash value = .ok content ∧
      (writeEntry bincode cacheable calls files cacheRoot engineVersionHash inputHash value).2 =
        files.set (entryBinPath cacheRoot engineVersionHash inputHash) content := by
  rcases hcontent : writeTempfile bincode cacheable calls engineVersionHash inputHash value with
    e | content
  · simp [writeEntry, hcontent] at h
  · rcases hpersist : calls.persist with e | u
    · simp [writeEntry, hcontent, hpersist] at h
    · exact ⟨content, rfl, by simp [writeEntry, hcontent, hpersist]⟩

/-- With every call succeeding, a value that serialises is written. -/
theorem writeEntry_succeed (key : CacheKey) {body : List UInt8} {writtenAt : Int64} {files : Files}
    {cacheRoot : Path} (h : cacheable.serializeToWriter value = .ok body) :
    (writeEntry bincode cacheable (.succeed writtenAt) files cacheRoot key.engineVersionHash
      key.inputHash value).1 = .ok () := by
  simp [writeEntry, writeTempfile, createTempfile, WriteCalls.succeed, key.engine_ok,
    key.input_ok, h, bind, Except.bind, pure, Except.pure]

/-- **A stored entry reads as its body decodes.** -/
theorem readEntry_writeEntry {files : Files} {cacheRoot : Path}
    (h : (writeEntry bincode cacheable calls files cacheRoot engineVersionHash inputHash value).1 =
      .ok ()) :
    ∃ body, cacheable.serializeToWriter value = .ok body ∧
      readEntry bincode cacheable .succeed
        (writeEntry bincode cacheable calls files cacheRoot engineVersionHash inputHash value).2
        cacheRoot engineVersionHash inputHash =
        .ok ((cacheable.deserializeFromReader ⟨body, none⟩).toOption.map Prod.fst) := by
  obtain ⟨content, hcontent, hfiles⟩ := writeEntry_eq_ok bincode cacheable h
  obtain ⟨engineBytes, inputBytes, body, hengine, hinput, hbody, rfl⟩ :=
    writeTempfile_eq_ok bincode cacheable hcontent
  refine ⟨body, hbody, ?_⟩
  have hheader := CacheEntryHeader.decodes_readFrom bincode
    (entryHeader cacheable engineBytes inputBytes calls.writtenAt value) body none
  have hversion := CacheEntryHeader.verifyFormatVersion_eq_ok_iff.mpr
    (rfl : (entryHeader cacheable engineBytes inputBytes calls.writtenAt value).formatVersion =
      entryFormatVersion)
  have hechoes := CacheEntryHeader.verifyFieldEchoes_eq_ok_iff.mpr
    (⟨rfl, rfl⟩ : (entryHeader cacheable engineBytes inputBytes calls.writtenAt
      value).engineVersionHash = engineBytes ∧
      (entryHeader cacheable engineBytes inputBytes calls.writtenAt value).inputHash = inputBytes)
  rw [hfiles]
  simp only [readEntry, hengine, hinput, bind, Except.bind, ReadCalls.open, ReadCalls.succeed,
    Files.set_self, Except.map, hheader, hversion, hechoes]
  rcases cacheable.deserializeFromReader ⟨body, none⟩ with e | ⟨v, rest⟩
  · rfl
  · rfl

end

/-! ## What a read answers -/

section
variable {V : Type} (bincode : Bincode) (cacheable : PersistentlyCacheable V)
  (files : Files) (cacheRoot : Path) (key : CacheKey) (bytes : List UInt8)

/-- The stored bytes hold `value` for the key: a header of this format version
that echoes both halves, and a body that decodes to it. -/
def HoldsEntry (value : V) : Prop :=
  ∃ header body rest, CacheEntryHeader.readFrom bincode ⟨bytes, none⟩ = .ok (header, body) ∧
    header.formatVersion = entryFormatVersion ∧
    header.engineVersionHash = key.engineBytes ∧ header.inputHash = key.inputBytes ∧
    cacheable.deserializeFromReader body = .ok (value, rest)

/-- Reading the key with these bytes stored is no error: it is a hit on what they
hold, and a miss when they hold nothing. -/
def DamageIsMiss : Prop :=
  ∃ answer,
    readEntry bincode cacheable .succeed
        (files.set (entryBinPath cacheRoot key.engineVersionHash key.inputHash) bytes)
        cacheRoot key.engineVersionHash key.inputHash = .ok answer ∧
      ∀ value, answer = some value ↔ HoldsEntry bincode cacheable key bytes value

variable {bytes}

/-- A header that does not decode is an error, since `Other` passes the filter. -/
theorem readEntry_of_header_error {e : IoErrorKind}
    (h : CacheEntryHeader.readFrom bincode ⟨bytes, none⟩ = .error e) :
    readEntry bincode cacheable .succeed
        (files.set (entryBinPath cacheRoot key.engineVersionHash key.inputHash) bytes)
        cacheRoot key.engineVersionHash key.inputHash = .error .other := by
  obtain rfl := CacheEntryHeader.readFrom_eq_error h
  simp [readEntry, key.engine_ok, key.input_ok, ReadCalls.open, ReadCalls.succeed, Except.map, h,
    bind, Except.bind]

/-- Under a header that decodes, the two checks and the body decide. -/
theorem readEntry_of_header_ok {header : CacheEntryHeader} {body : Reader}
    (h : CacheEntryHeader.readFrom bincode ⟨bytes, none⟩ = .ok (header, body)) :
    readEntry bincode cacheable .succeed
        (files.set (entryBinPath cacheRoot key.engineVersionHash key.inputHash) bytes)
        cacheRoot key.engineVersionHash key.inputHash =
      if header.formatVersion = entryFormatVersion ∧
          header.engineVersionHash = key.engineBytes ∧ header.inputHash = key.inputBytes then
        .ok ((cacheable.deserializeFromReader body).toOption.map Prod.fst)
      else .ok none := by
  have hrun : readEntry bincode cacheable .succeed
      (files.set (entryBinPath cacheRoot key.engineVersionHash key.inputHash) bytes)
      cacheRoot key.engineVersionHash key.inputHash =
      match header.verifyFormatVersion with
      | .error _ => .ok none
      | .ok () =>
        match header.verifyFieldEchoes key.engineBytes key.inputBytes with
        | .error _ => .ok none
        | .ok () =>
          match cacheable.deserializeFromReader body with
          | .error _ => .ok none
          | .ok (value, _) => .ok (some value) := by
    simp [readEntry, key.engine_ok, key.input_ok, ReadCalls.open, ReadCalls.succeed, Except.map,
      h, bind, Except.bind]
  rw [hrun]
  rcases hversion : header.verifyFormatVersion with e | u
  · have hne : header.formatVersion ≠ entryFormatVersion := by
      intro heq
      rw [CacheEntryHeader.verifyFormatVersion_eq_ok_iff.mpr heq] at hversion
      cases hversion
    simp [hne]
  · have hv := CacheEntryHeader.verifyFormatVersion_eq_ok_iff.mp hversion
    rcases hecho : header.verifyFieldEchoes key.engineBytes key.inputBytes with e | u
    · have hne : ¬ (header.engineVersionHash = key.engineBytes ∧
          header.inputHash = key.inputBytes) := by
        intro heq
        rw [CacheEntryHeader.verifyFieldEchoes_eq_ok_iff.mpr heq] at hecho
        cases hecho
      simp [hne]
    · have he := CacheEntryHeader.verifyFieldEchoes_eq_ok_iff.mp hecho
      simp only [hv, he, and_self, if_true]
      rcases cacheable.deserializeFromReader body with e | ⟨value, rest⟩ <;> rfl

/-- **Damage is a miss exactly behind a full header**: a file shorter than the
encoded header makes the read fail. -/
theorem damageIsMiss_iff :
    DamageIsMiss bincode cacheable files cacheRoot key bytes ↔
      entryHeaderEncodedLen ≤ bytes.length := by
  have hexact := CacheEntryHeader.exact_readFrom bincode
  constructor
  · rintro ⟨answer, hread, -⟩
    by_contra hlt
    obtain ⟨e, he⟩ := hexact.short ⟨bytes, none⟩ (Nat.not_le.mp hlt)
    rw [readEntry_of_header_error bincode cacheable files cacheRoot key he] at hread
    cases hread
  · intro hle
    obtain ⟨header, hheader⟩ := hexact.ok ⟨bytes, none⟩ hle
    have hread := readEntry_of_header_ok bincode cacheable files cacheRoot key hheader
    have hholds (value : V) : HoldsEntry bincode cacheable key bytes value ↔
        (header.formatVersion = entryFormatVersion ∧
          header.engineVersionHash = key.engineBytes ∧ header.inputHash = key.inputBytes) ∧
        ∃ rest, cacheable.deserializeFromReader ⟨bytes.drop entryHeaderEncodedLen, none⟩ =
          .ok (value, rest) := by
      constructor
      · rintro ⟨header', body, rest, h', hv, he, hi, hbody⟩
        rw [hheader] at h'
        cases h'
        exact ⟨⟨hv, he, hi⟩, rest, hbody⟩
      · rintro ⟨⟨hv, he, hi⟩, rest, hbody⟩
        exact ⟨header, _, rest, hheader, hv, he, hi, hbody⟩
    split at hread
    · next hmatch =>
      refine ⟨_, hread, fun value => ?_⟩
      rw [hholds]
      simp only [hmatch, and_self, true_and]
      rcases cacheable.deserializeFromReader ⟨bytes.drop entryHeaderEncodedLen, none⟩ with
        e | ⟨value', rest⟩
      · simp [Except.toOption]
      · simp [Except.toOption]
    · next hmatch =>
      refine ⟨none, hread, fun value => ?_⟩
      simp [hholds, hmatch]

end

/-- A body that is stored as it is. -/
def PersistentlyCacheable.raw : PersistentlyCacheable (List UInt8) where
  serializeToWriter := .ok
  deserializeFromReader r := .ok (r.bytes, ⟨[], r.fault⟩)
  uncompressedByteSize bs := UInt64.ofNat bs.length
  solveTimeMs _ := 0

/-- A key of two hex digests. -/
def digestKey : CacheKey where
  engineVersionHash := "00112233445566778899aabbccddeeff"
  inputHash := "ffeeddccbbaa99887766554433221100"
  engineBytes := ⟨"00112233445566778899aabbccddeeff".toUTF8.data.toList, by decide +kernel⟩
  inputBytes := ⟨"ffeeddccbbaa99887766554433221100".toUTF8.data.toList, by decide +kernel⟩
  engine_ok := by decide +kernel
  input_ok := by decide +kernel
  ascii := by simp

/-- The empty file of a key is an error to its reader. -/
theorem not_damageIsMiss_empty :
    readEntry Bincode.fixint .raw .succeed
        (Files.set (fun _ => none)
          (entryBinPath [] digestKey.engineVersionHash digestKey.inputHash) [])
        [] digestKey.engineVersionHash digestKey.inputHash = .error .other ∧
      ¬ DamageIsMiss Bincode.fixint .raw (fun _ => none) [] digestKey [] := by
  have hread : readEntry Bincode.fixint .raw .succeed
      (Files.set (fun _ => none)
        (entryBinPath [] digestKey.engineVersionHash digestKey.inputHash) [])
      [] digestKey.engineVersionHash digestKey.inputHash = .error .other := by
    decide +kernel
  refine ⟨hread, ?_⟩
  rintro ⟨answer, hok, -⟩
  rw [hread] at hok
  cases hok

end Reify
