import Reify.Foundation.Codec

/-!
# The external formats: bincode and zstd

Persisted values go through two libraries.  `Bincode` is the fixed-width integer
configuration of the first: codecs for the primitive types and formers for
options and sequences, all of which a source short of bytes makes fail.  `Zstd`
is a compressor whose decoder gives back what was compressed and then the end of
the input.  Everything built on them is generic in both; `Bincode.fixint` and
`Zstd.stored` are implementations of the two interfaces.

## Main definitions

* `Bincode`, `Bincode.fixint`.
* `Zstd`, `Zstd.stored`.
-/

namespace Foundation

open Decoder

/-! ## bincode -/

/-- bincode with fixed-width little-endian integers. -/
structure Bincode where
  Error : Type
  u8 : Codec Error UInt8
  u32 : Codec Error UInt32
  u64 : Codec Error UInt64
  i64 : Codec Error Int64
  bool : Codec Error Bool
  str : Codec Error String
  option {α : Type} : Codec Error α → Codec Error (Option α)
  vec {α : Type} : Codec Error α → Codec Error (List α)
  /-- The error of a variant index that the enum does not have. -/
  unknownVariant : Error
  /-- `with_limit`: decoding refuses to take more than so many bytes. -/
  limited {α : Type} : Nat → Decoder Error α → Decoder Error α
  u8_enc : ∀ x, u8.enc x = [x]
  u32_enc : ∀ x, u32.enc x = leBytes 4 x.toNat
  u64_enc : ∀ x, u64.enc x = leBytes 8 x.toNat
  i64_enc : ∀ x, i64.enc x = leBytes 8 x.toUInt64.toNat
  bool_enc : ∀ x, bool.enc x = [if x then 1 else 0]
  u8_exact : Exact u8.dec 1
  u32_exact : Exact u32.dec 4
  u64_exact : Exact u64.dec 8
  i64_exact : Exact i64.dec 8
  limited_decodes : ∀ {α : Type} {n : Nat} {d : Decoder Error α} {bs : List UInt8} {a : α},
    bs.length ≤ n → Decodes d bs a → Decodes (limited n d) bs a

/-- What a bincode decoder reports. -/
inductive BincodeError where
  | io (kind : IoErrorKind)
  | invalidUtf8Encoding
  | invalidBoolEncoding (byte : UInt8)
  | invalidTagEncoding (byte : UInt8)
  | sizeLimit
  | custom
deriving DecidableEq, Repr

namespace Bincode

/-- One byte. -/
def byteCodec : Codec IoErrorKind UInt8 :=
  Codec.word 1 (by decide) UInt8.ofNat UInt8.toNat (fun a => a.toNat_lt) fun _ => UInt8.ofNat_toNat

/-- Four bytes. -/
def u32Codec : Codec IoErrorKind UInt32 :=
  Codec.word 4 (by decide) UInt32.ofNat UInt32.toNat (fun a => a.toNat_lt)
    fun _ => UInt32.ofNat_toNat

/-- Eight bytes. -/
def u64Codec : Codec IoErrorKind UInt64 :=
  Codec.word 8 (by decide) UInt64.ofNat UInt64.toNat (fun a => a.toNat_lt)
    fun _ => UInt64.ofNat_toNat

theorem byteCodec_enc (x : UInt8) : byteCodec.enc x = [x] := by
  simp [byteCodec, Codec.word, leBytes]

theorem decodes_byte (x : UInt8) : Decodes byteCodec.dec [x] x := by
  have h := byteCodec.dec_enc x (by simp [byteCodec_enc])
  rwa [byteCodec_enc] at h

theorem decodes_u64 (x : UInt64) : Decodes u64Codec.dec (u64Codec.enc x) x :=
  u64Codec.dec_enc x (by
    show (leBytes 8 x.toNat).length < 2 ^ 64
    simp)

/-- A byte that is `0` or `1`. -/
def boolCodec : Codec BincodeError Bool where
  enc x := [if x then 1 else 0]
  dec := do
    let b ← Decoder.mapError .io byteCodec.dec
    if b = 0 then pure false else if b = 1 then pure true else fail (.invalidBoolEncoding b)
  enc_ne_nil _ := by simp
  dec_enc x _ := by
    refine ((decodes_byte (if x then 1 else 0)).mapError _).bind_pure ?_
    cases x
    · exact Decodes.pure false
    · exact Decodes.pure true

/-- The UTF-8 bytes of a text behind their number. -/
def strCodec : Codec BincodeError String where
  enc s := u64Codec.enc (UInt64.ofNat s.toUTF8.size) ++ s.toUTF8.data.toList
  dec := do
    let n ← Decoder.mapError .io u64Codec.dec
    let bs ← Decoder.mapError .io (readExact n.toNat)
    match String.fromUTF8? ⟨bs.toArray⟩ with
    | some s => pure s
    | none => fail .invalidUtf8Encoding
  enc_ne_nil s := List.append_ne_nil_of_left_ne_nil (u64Codec.enc_ne_nil _) _
  dec_enc s h := by
    rw [List.length_append] at h
    have hsize : s.toUTF8.data.toList.length = s.toUTF8.size := Array.length_toList
    have hn : (UInt64.ofNat s.toUTF8.size).toNat = s.toUTF8.size :=
      UInt64.toNat_ofNat_of_lt' (by
        show s.toUTF8.size < 2 ^ 64
        omega)
    have hdecode : String.fromUTF8? ⟨s.toUTF8.data.toList.toArray⟩ = some s := by
      simp only [Array.toArray_toList, String.fromUTF8?]
      exact dif_pos s.isValidUTF8
    refine ((u64Codec.dec_enc _ (by omega)).mapError _).bind ?_
    rw [hn]
    refine ((Decodes.readExact hsize).mapError _).bind_pure ?_
    rw [hdecode]
    exact Decodes.pure s

/-- A tag byte, and the value behind the tag `1`. -/
def optionCodec {α : Type} (c : Codec BincodeError α) : Codec BincodeError (Option α) where
  enc
    | none => [0]
    | some a => 1 :: c.enc a
  dec := do
    let b ← Decoder.mapError .io byteCodec.dec
    if b = 0 then pure none
    else if b = 1 then do
      let a ← c.dec
      pure (some a)
    else fail (.invalidTagEncoding b)
  enc_ne_nil x := by cases x <;> exact List.cons_ne_nil _ _
  dec_enc x h := by
    cases x with
    | none => exact ((decodes_byte 0).mapError _).bind_pure (Decodes.pure none)
    | some a =>
      have ha := c.dec_enc a (Nat.lt_of_succ_lt h)
      exact ((decodes_byte 1).mapError _).bind (ha.bind_pure (Decodes.pure (some a)))

/-- Decoding from a source cut off after `n` bytes. -/
def limitedDecoder {α : Type} (n : Nat) (d : Decoder BincodeError α) : Decoder BincodeError α :=
  fun r =>
    match d ⟨r.bytes.take n, if r.bytes.length ≤ n then r.fault else some .other⟩ with
    | .ok (a, r') => .ok (a, ⟨r'.bytes ++ r.bytes.drop n, r.fault⟩)
    | .error e => .error e

theorem limitedDecoder_decodes {α : Type} {n : Nat} {d : Decoder BincodeError α} {bs : List UInt8}
    {a : α} (hn : bs.length ≤ n) (h : Decodes d bs a) : Decodes (limitedDecoder n d) bs a := by
  intro rest fault
  -- The cut falls behind `bs`.
  have htake : (bs ++ rest).take n = bs ++ rest.take (n - bs.length) := by
    rw [List.take_append, List.take_of_length_le hn]
  have hdrop : (bs ++ rest).drop n = rest.drop (n - bs.length) := by
    rw [List.drop_append, List.drop_eq_nil_of_le hn, List.nil_append]
  simp only [limitedDecoder, htake, hdrop, h _ _, List.take_append_drop]

/-- The layout of the fixed-width configuration. -/
def fixint : Bincode where
  Error := BincodeError
  u8 := byteCodec.mapError .io
  u32 := u32Codec.mapError .io
  u64 := u64Codec.mapError .io
  i64 := (u64Codec.iso Int64.ofUInt64 Int64.toUInt64 fun _ => rfl).mapError .io
  bool := boolCodec
  str := strCodec
  option := optionCodec
  vec := Codec.counted (u64Codec.mapError .io)
  unknownVariant := .custom
  limited := limitedDecoder
  u8_enc := byteCodec_enc
  u32_enc _ := rfl
  u64_enc _ := rfl
  i64_enc _ := rfl
  bool_enc _ := rfl
  u8_exact := Codec.exact_word.mapError _
  u32_exact := Codec.exact_word.mapError _
  u64_exact := Codec.exact_word.mapError _
  i64_exact := (Codec.exact_iso Codec.exact_word).mapError _
  limited_decodes := limitedDecoder_decodes

section
variable (bincode : Bincode)

theorem u64_enc_eq (x : UInt64) : bincode.u64.enc x = u64Codec.enc x := bincode.u64_enc x

/-- The variant index of an enum of `n` variants. -/
def variant (n : Nat) (hn : n ≤ 2 ^ 32) : Codec bincode.Error (Fin n) :=
  (bincode.u32.refine (fun t => t.toNat < n) bincode.unknownVariant).iso
    (fun t => ⟨t.val.toNat, t.property⟩)
    (fun i => ⟨UInt32.ofNat i.val, by
      rw [UInt32.toNat_ofNat_of_lt' (i.isLt.trans_le hn)]
      exact i.isLt⟩)
    fun i => Fin.ext (UInt32.toNat_ofNat_of_lt' (i.isLt.trans_le hn))

theorem length_u8_enc (x : UInt8) : (bincode.u8.enc x).length = 1 := by
  rw [bincode.u8_enc]
  rfl

theorem length_u32_enc (x : UInt32) : (bincode.u32.enc x).length = 4 := by
  rw [bincode.u32_enc, length_leBytes]

theorem length_u64_enc (x : UInt64) : (bincode.u64.enc x).length = 8 := by
  rw [bincode.u64_enc, length_leBytes]

theorem length_i64_enc (x : Int64) : (bincode.i64.enc x).length = 8 := by
  rw [bincode.i64_enc, length_leBytes]

theorem length_bool_enc (x : Bool) : (bincode.bool.enc x).length = 1 := by
  rw [bincode.bool_enc]
  rfl

end

end Bincode

/-! ## zstd -/

/-- A compressor and its streaming decoder, which turns a source of compressed
bytes into a source of the bytes that were compressed. -/
structure Zstd where
  compress : List UInt8 → List UInt8
  decoder : Reader → Except IoErrorKind Reader
  decoder_compress : ∀ bs, decoder ⟨compress bs, none⟩ = .ok ⟨bs, none⟩

/-- A frame that stores its content as it is, behind the magic number. -/
def Zstd.stored : Zstd where
  compress bs := [0x28, 0xB5, 0x2F, 0xFD] ++ bs
  decoder r :=
    if r.bytes.take 4 = [0x28, 0xB5, 0x2F, 0xFD] then .ok ⟨r.bytes.drop 4, r.fault⟩
    else .error .other
  decoder_compress _ := rfl

end Foundation
