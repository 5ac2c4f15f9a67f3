import Mathlib.Data.UInt
import Mathlib.Data.List.Basic

/-!
# Byte sources and decoders

A decoder reads a value off the front of a byte source and leaves the rest.
Two relations carry the reasoning: `Decodes d bs a` says that `d` reads `a` off
`bs` whatever follows, and `Exact d n` that `d` succeeds on any `n` bytes and on
no fewer.  Both compose along `>>=`, so a round trip is proved field by field,
in the order in which the fields are written.

## Main definitions

* `Reader`: the bytes a source still delivers and the fault a read past them meets.
* `Decoder`: the reading monad, with `readExact`, `readByte?` and `times`.
* `Decodes`, `DecodesAll`, `Exact`.

## Main results

* `Decodes.bind`, `DecodesAll.of_bind`, `Exact.bind`: composition.
* `Decodes.times`, `Exact.times`: a counted run of one decoder.
-/

namespace Foundation

/-- Why an operation on a file or a stream failed. -/
inductive IoErrorKind where
  | notFound
  | permissionDenied
  | invalidInput
  | invalidData
  | unexpectedEof
  | other
  /-- Any further kind the operating system reports. -/
  | os (code : Nat)
deriving DecidableEq, Repr

/-- A source of bytes: those it still delivers, and the fault that a read past
them meets (`none` at the end of the input). -/
@[ext] structure Reader where
  bytes : List UInt8
  fault : Option IoErrorKind
deriving DecidableEq, Repr

/-- What a read past the last byte reports. -/
def Reader.pastEnd (r : Reader) : IoErrorKind := r.fault.getD .unexpectedEof

/-- A reader of one value: the value and the source behind it, or an error. -/
def Decoder (ε α : Type) : Type := Reader → Except ε (α × Reader)

variable {ε ε' α β γ : Type}

namespace Decoder

instance : Monad (Decoder ε) where
  pure a := fun r => .ok (a, r)
  bind d f := fun r =>
    match d r with
    | .ok (a, r') => f a r'
    | .error e => .error e

/-- Fails without reading. -/
def fail (e : ε) : Decoder ε α := fun _ => .error e

/-- A check on values already read. -/
def ofExcept (x : Except ε α) : Decoder ε α := fun r => x.map fun a => (a, r)

/-- Rewraps the error. -/
def mapError (f : ε → ε') (d : Decoder ε α) : Decoder ε' α := fun r =>
  match d r with
  | .ok x => .ok x
  | .error e => .error (f e)

/-- `Read::read_exact` into a buffer of `n` bytes. -/
def readExact (n : Nat) : Decoder IoErrorKind (List UInt8) := fun r =>
  if n ≤ r.bytes.length then .ok (r.bytes.take n, ⟨r.bytes.drop n, r.fault⟩)
  else .error r.pastEnd

/-- `Read::read` into a buffer of one byte: `none` at the end of the input. -/
def readByte? : Decoder IoErrorKind (Option UInt8) := fun r =>
  match r.bytes, r.fault with
  | b :: rest, _ => .ok (some b, ⟨rest, r.fault⟩)
  | [], none => .ok (none, r)
  | [], some e => .error e

/-- `n` values in a row. -/
def times (d : Decoder ε α) : (n : Nat) → Decoder ε {xs : List α // xs.length = n}
  | 0 => pure ⟨[], rfl⟩
  | n + 1 => do
    let x ← d
    let xs ← times d n
    pure ⟨x :: xs.val, by simp [xs.property]⟩

@[simp] theorem pure_apply (a : α) (r : Reader) : (pure a : Decoder ε α) r = .ok (a, r) := rfl

@[simp] theorem fail_apply (e : ε) (r : Reader) : (fail e : Decoder ε α) r = .error e := rfl

theorem bind_ok {d : Decoder ε α} {f : α → Decoder ε β} {r r' : Reader} {a : α}
    (h : d r = .ok (a, r')) : (d >>= f) r = f a r' := by
  show (match d r with | .ok (a, r') => f a r' | .error e => .error e) = _
  rw [h]

theorem bind_error {d : Decoder ε α} {f : α → Decoder ε β} {r : Reader} {e : ε}
    (h : d r = .error e) : (d >>= f) r = .error e := by
  show (match d r with | .ok (a, r') => f a r' | .error e => .error e) = _
  rw [h]

/-- A sequence succeeds when both parts do, one after the other. -/
theorem bind_eq_ok_iff {d : Decoder ε α} {f : α → Decoder ε β} {r r'' : Reader} {b : β} :
    (d >>= f) r = .ok (b, r'') ↔
      ∃ a r', d r = .ok (a, r') ∧ f a r' = .ok (b, r'') := by
  rcases h : d r with e | ⟨a, r'⟩
  · simp [bind_error h]
  · rw [bind_ok h]
    constructor
    · intro hf
      exact ⟨a, r', rfl, hf⟩
    · rintro ⟨a', s, heq, hf⟩
      cases heq
      exact hf

@[simp] theorem ofExcept_ok (a : α) : (ofExcept (.ok a) : Decoder ε α) = pure a := rfl

@[simp] theorem ofExcept_error (e : ε) : (ofExcept (.error e) : Decoder ε α) = fail e := rfl

/-- A pointwise inverse inverts the image of a whole list. -/
theorem mapM_map_eq_ok {f : β → Except ε γ} {g : α → β} {h : α → γ} (xs : List α)
    (hfg : ∀ a ∈ xs, f (g a) = .ok (h a)) : (xs.map g).mapM f = .ok (xs.map h) := by
  induction xs with
  | nil => rfl
  | cons x xs ih =>
    have hx := hfg x (by simp)
    have hxs := ih fun a ha => hfg a (List.mem_cons_of_mem x ha)
    rw [List.map_cons, List.mapM_cons, hx, hxs]
    rfl

theorem mapError_ok {f : ε → ε'} {d : Decoder ε α} {r : Reader} {x : α × Reader}
    (h : d r = .ok x) : mapError f d r = .ok x := by
  simp [mapError, h]

theorem mapError_error {f : ε → ε'} {d : Decoder ε α} {r : Reader} {e : ε}
    (h : d r = .error e) : mapError f d r = .error (f e) := by
  simp [mapError, h]

end Decoder

open Decoder

/-! ## Reading an encoding back -/

/-- `d` reads `a` off `bs`, and nothing of what follows. -/
def Decodes (d : Decoder ε α) (bs : List UInt8) (a : α) : Prop :=
  ∀ rest fault, d ⟨bs ++ rest, fault⟩ = .ok (a, ⟨rest, fault⟩)

/-- `d` reads `a` off a source that ends with `bs`, to its end. -/
def DecodesAll (d : Decoder ε α) (bs : List UInt8) (a : α) : Prop :=
  d ⟨bs, none⟩ = .ok (a, ⟨[], none⟩)

namespace Decodes

theorem pure (a : α) : Decodes (Pure.pure a : Decoder ε α) [] a := fun _ _ => rfl

theorem bind {d : Decoder ε α} {f : α → Decoder ε β} {bs cs : List UInt8} {a : α} {b : β}
    (hd : Decodes d bs a) (hf : Decodes (f a) cs b) : Decodes (d >>= f) (bs ++ cs) b := by
  intro rest fault
  rw [List.append_assoc, bind_ok (hd _ fault)]
  exact hf rest fault

/-- A step that reads nothing. -/
theorem bind_nil {d : Decoder ε α} {f : α → Decoder ε β} {cs : List UInt8} {a : α} {b : β}
    (hd : Decodes d [] a) (hf : Decodes (f a) cs b) : Decodes (d >>= f) cs b :=
  hd.bind hf

/-- A last step that reads nothing. -/
theorem bind_pure {d : Decoder ε α} {f : α → Decoder ε β} {bs : List UInt8} {a : α} {b : β}
    (hd : Decodes d bs a) (hf : Decodes (f a) [] b) : Decodes (d >>= f) bs b := by
  simpa using hd.bind hf

theorem mapError {d : Decoder ε α} {bs : List UInt8} {a : α} (f : ε → ε')
    (h : Decodes d bs a) : Decodes (Decoder.mapError f d) bs a :=
  fun rest fault => mapError_ok (h rest fault)

theorem all {d : Decoder ε α} {bs : List UInt8} {a : α} (h : Decodes d bs a) :
    DecodesAll d bs a := by
  simpa [DecodesAll] using h [] none

/-- What runs behind it runs on what follows. -/
theorem of_bind_ok {d : Decoder ε α} {f : α → Decoder ε β} {bs rest : List UInt8}
    {fault : Option IoErrorKind} {a : α} {x : β × Reader} (h : Decodes d bs a)
    (hx : (d >>= f) ⟨bs ++ rest, fault⟩ = .ok x) : f a ⟨rest, fault⟩ = .ok x := by
  rwa [bind_ok (h rest fault)] at hx

theorem of_bind_nil_ok {d : Decoder ε α} {f : α → Decoder ε β} {bs : List UInt8}
    {fault : Option IoErrorKind} {a : α} {x : β × Reader} (h : Decodes d [] a)
    (hx : (d >>= f) ⟨bs, fault⟩ = .ok x) : f a ⟨bs, fault⟩ = .ok x :=
  h.of_bind_ok hx

theorem readExact {bs : List UInt8} {n : Nat} (h : bs.length = n) :
    Decodes (Decoder.readExact n) bs bs := by
  intro rest fault
  subst h
  simp [Decoder.readExact]

theorem readByte (b : UInt8) : Decodes Decoder.readByte? [b] (some b) := fun _ _ => rfl

/-- A run of one decoder over the concatenated encodings. -/
theorem times {d : Decoder ε α} {enc : α → List UInt8} :
    ∀ xs : List α, (∀ x ∈ xs, Decodes d (enc x) x) →
      Decodes (d.times xs.length) (xs.flatMap enc) ⟨xs, rfl⟩
  | [], _ => Decodes.pure _
  | x :: xs, h => by
    rw [List.flatMap_cons]
    have hx : Decodes d (enc x) x := h x (by simp)
    have hxs := times xs fun y hy => h y (List.mem_cons_of_mem x hy)
    exact hx.bind (hxs.bind_pure (Decodes.pure _))

theorem times_of_length {d : Decoder ε α} {enc : α → List UInt8} {n : Nat} (xs : List α)
    (hn : xs.length = n) (h : ∀ x ∈ xs, Decodes d (enc x) x) :
    Decodes (d.times n) (xs.flatMap enc) ⟨xs, hn⟩ := by
  subst hn
  exact times xs h

end Decodes

namespace DecodesAll

theorem of_bind {d : Decoder ε α} {f : α → Decoder ε β} {bs cs : List UInt8} {a : α} {b : β}
    (hd : Decodes d bs a) (hf : DecodesAll (f a) cs b) : DecodesAll (d >>= f) (bs ++ cs) b := by
  rw [DecodesAll, bind_ok (hd cs none)]
  exact hf

theorem of_bind_nil {d : Decoder ε α} {f : α → Decoder ε β} {cs : List UInt8} {a : α} {b : β}
    (hd : Decodes d [] a) (hf : DecodesAll (f a) cs b) : DecodesAll (d >>= f) cs b :=
  of_bind hd hf

/-- A step that reads to the end, before steps that read nothing. -/
theorem bind_pure {d : Decoder ε α} {f : α → Decoder ε β} {bs : List UInt8} {a : α} {b : β}
    (hd : DecodesAll d bs a) (hf : DecodesAll (f a) [] b) : DecodesAll (d >>= f) bs b := by
  rw [DecodesAll, bind_ok hd]
  exact hf

end DecodesAll

/-! ## Fixed-width decoders -/

/-- `d` succeeds on every source of `n` bytes or more, of which it takes `n`, and
on no shorter one. -/
structure Exact (d : Decoder ε α) (n : Nat) : Prop where
  ok : ∀ r : Reader, n ≤ r.bytes.length → ∃ a, d r = .ok (a, ⟨r.bytes.drop n, r.fault⟩)
  short : ∀ r : Reader, r.bytes.length < n → ∃ e, d r = .error e

namespace Exact

theorem pure (a : α) : Exact (Pure.pure a : Decoder ε α) 0 where
  ok r _ := ⟨a, by simp⟩
  short _ h := absurd h (Nat.not_lt_zero _)

theorem bind {d : Decoder ε α} {f : α → Decoder ε β} {n m : Nat} (hd : Exact d n)
    (hf : ∀ a, Exact (f a) m) : Exact (d >>= f) (n + m) where
  ok r h := by
    obtain ⟨a, ha⟩ := hd.ok r (by omega)
    obtain ⟨b, hb⟩ := (hf a).ok ⟨r.bytes.drop n, r.fault⟩ (by simp; omega)
    refine ⟨b, ?_⟩
    rw [bind_ok ha, hb]
    simp [List.drop_drop]
  short r h := by
    by_cases hn : n ≤ r.bytes.length
    · obtain ⟨a, ha⟩ := hd.ok r hn
      obtain ⟨e, he⟩ := (hf a).short ⟨r.bytes.drop n, r.fault⟩ (by simp; omega)
      exact ⟨e, by rw [bind_ok ha, he]⟩
    · obtain ⟨e, he⟩ := hd.short r (by omega)
      exact ⟨e, bind_error he⟩

theorem bind_pure {d : Decoder ε α} {f : α → β} {n : Nat} (hd : Exact d n) :
    Exact (d >>= fun a => Pure.pure (f a)) n :=
  hd.bind fun a => Exact.pure (f a)

theorem mapError {d : Decoder ε α} {n : Nat} (f : ε → ε') (hd : Exact d n) :
    Exact (Decoder.mapError f d) n where
  ok r h := by
    obtain ⟨a, ha⟩ := hd.ok r h
    exact ⟨a, mapError_ok ha⟩
  short r h := by
    obtain ⟨e, he⟩ := hd.short r h
    exact ⟨f e, mapError_error he⟩

theorem readExact (n : Nat) : Exact (Decoder.readExact n) n where
  ok r h := ⟨r.bytes.take n, by simp [Decoder.readExact, h]⟩
  short r h := ⟨r.pastEnd, by simp [Decoder.readExact, Nat.not_le.mpr h]⟩

theorem times {d : Decoder ε α} {n : Nat} (hd : Exact d n) : ∀ k, Exact (d.times k) (k * n)
  | 0 => by
    rw [Nat.zero_mul]
    exact Exact.pure _
  | k + 1 => by
    rw [Nat.succ_mul, Nat.add_comm (k * n) n]
    exact hd.bind fun _ => (times hd k).bind_pure

end Exact

end Foundation
