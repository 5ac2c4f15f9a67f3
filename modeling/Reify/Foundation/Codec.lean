import Reify.Foundation.Decoder

/-!
# Codecs

An encoder and a decoder that undoes it, as one value.  Records, arrays and
length-prefixed sequences are put together from the codecs of their parts, so
that both directions visit the parts in the same order and the law is inherited.

## Main definitions

* `leBytes`, `ofLeBytes`: little-endian numerals.
* `Codec`: encoder, decoder and law.
* `Codec.word`, `Codec.pair`, `Codec.iso`, `Codec.refine`, `Codec.sigma`,
  `Codec.array`, `Codec.counted`: the formers.
* `Vec`: a sequence whose length is a machine word.
* `Codec.slab`, `Codec.readSlab`: a run of values whose length is kept elsewhere.
-/

namespace Foundation

open Decoder

variable {ε ε' α β γ : Type}

/-! ## Little-endian numerals -/

/-- The lowest `w` base-256 digits of `n`, the lowest first. -/
def leBytes : Nat → Nat → List UInt8
  | 0, _ => []
  | w + 1, n => UInt8.ofNat n :: leBytes w (n / 256)

/-- The number whose base-256 digits these are, the lowest first. -/
def ofLeBytes : List UInt8 → Nat
  | [] => 0
  | b :: bs => b.toNat + 256 * ofLeBytes bs

@[simp] theorem length_leBytes (w n : Nat) : (leBytes w n).length = w := by
  induction w generalizing n with
  | zero => rfl
  | succ w ih => simp [leBytes, ih]

theorem ofLeBytes_leBytes (w n : Nat) : ofLeBytes (leBytes w n) = n % 256 ^ w := by
  induction w generalizing n with
  | zero => simp [leBytes, ofLeBytes, Nat.mod_one]
  | succ w ih =>
    have hdigit : (UInt8.ofNat n).toNat = n % 256 := by simp
    rw [leBytes, ofLeBytes, ih, hdigit, Nat.pow_succ', Nat.mod_mul]

/-- Blocks of one length can be told apart when they stand one after another. -/
theorem map_eq_of_flatMap_eq {f : α → List β} {w : Nat} (hw : 0 < w)
    (hlen : ∀ a, (f a).length = w) {xs ys : List α} (h : xs.flatMap f = ys.flatMap f) :
    xs.map f = ys.map f := by
  induction xs generalizing ys with
  | nil =>
    cases ys with
    | nil => rfl
    | cons y ys =>
      have hempty := congrArg List.length h
      simp only [List.flatMap_nil, List.flatMap_cons, List.length_nil, List.length_append,
        hlen] at hempty
      omega
  | cons x xs ih =>
    cases ys with
    | nil =>
      have hempty := congrArg List.length h
      simp only [List.flatMap_nil, List.flatMap_cons, List.length_nil, List.length_append,
        hlen] at hempty
      omega
    | cons y ys =>
      rw [List.flatMap_cons, List.flatMap_cons] at h
      obtain ⟨hhead, htail⟩ := List.append_inj h (by rw [hlen, hlen])
      rw [List.map_cons, List.map_cons, hhead, ih htail]

theorem length_eq_of_flatMap_eq {f : α → List β} {w : Nat} (hw : 0 < w)
    (hlen : ∀ a, (f a).length = w) {xs ys : List α} (h : xs.flatMap f = ys.flatMap f) :
    xs.length = ys.length := by
  have hmap := congrArg List.length (map_eq_of_flatMap_eq hw hlen h)
  rwa [List.length_map, List.length_map] at hmap

/-- Where equal images under one map have equal images under another, so do sequences. -/
theorem map_eq_of_map_eq {f : α → β} {g : α → γ} {xs ys : List α}
    (hfg : ∀ x ∈ xs, ∀ y ∈ ys, f x = f y → g x = g y) (h : xs.map f = ys.map f) :
    xs.map g = ys.map g := by
  induction xs generalizing ys with
  | nil =>
    cases ys with
    | nil => rfl
    | cons y ys => simp at h
  | cons x xs ih =>
    cases ys with
    | nil => simp at h
    | cons y ys =>
      rw [List.map_cons, List.map_cons, List.cons.injEq] at h
      have hhead := hfg x List.mem_cons_self y List.mem_cons_self h.1
      have htail := ih (fun x' hx' y' hy' =>
        hfg x' (List.mem_cons_of_mem x hx') y' (List.mem_cons_of_mem y hy')) h.2
      rw [List.map_cons, List.map_cons, hhead, htail]

/-- The same for the blocks of two encodings, the first of one length. -/
theorem flatMap_eq_of_flatMap_eq {f : α → List β} {g : α → List γ} {w : Nat} (hw : 0 < w)
    (hlen : ∀ a, (f a).length = w) {xs ys : List α}
    (hfg : ∀ x ∈ xs, ∀ y ∈ ys, f x = f y → g x = g y) (h : xs.flatMap f = ys.flatMap f) :
    xs.flatMap g = ys.flatMap g := by
  rw [List.flatMap_def, List.flatMap_def, map_eq_of_map_eq hfg (map_eq_of_flatMap_eq hw hlen h)]

/-- Sequences of pairs, both parts under one map. -/
theorem flatMap_pair_eq_of_eq {f : α → β} {g : α → γ} {xs ys : List (α × α)}
    (hfg : ∀ v ∈ xs.flatMap fun e => [e.1, e.2], ∀ w ∈ ys.flatMap fun e => [e.1, e.2],
      f v = f w → g v = g w)
    (h : (xs.flatMap fun e => [f e.1, f e.2]) = ys.flatMap fun e => [f e.1, f e.2]) :
    (xs.flatMap fun e => [g e.1, g e.2]) = ys.flatMap fun e => [g e.1, g e.2] := by
  have hmap {δ : Type} (k : α → δ) (es : List (α × α)) :
      (es.flatMap fun e => [k e.1, k e.2]) = (es.flatMap fun e => [e.1, e.2]).map k := by
    rw [List.map_flatMap]
    rfl
  rw [hmap f, hmap f] at h
  rw [hmap g, hmap g]
  exact map_eq_of_map_eq hfg h

/-- Rows, with everything in them under one map. -/
theorem map_rows_eq_of_eq {f : α → β} {g : α → γ} {xs ys : List (List α)}
    (hfg : ∀ v ∈ xs.flatten, ∀ w ∈ ys.flatten, f v = f w → g v = g w)
    (h : xs.map (List.map f) = ys.map (List.map f)) :
    xs.map (List.map g) = ys.map (List.map g) := by
  refine map_eq_of_map_eq (fun row hrow row' hrow' hrows => ?_) h
  refine map_eq_of_map_eq (fun v hv w hw => hfg v ?_ w ?_) hrows
  · exact List.mem_flatten.mpr ⟨row, hrow, hv⟩
  · exact List.mem_flatten.mpr ⟨row', hrow', hw⟩

/-- A numeral of `w` bytes. -/
def readLe (w : Nat) : Decoder IoErrorKind Nat := do
  let bs ← readExact w
  pure (ofLeBytes bs)

theorem decodes_readLe {w n : Nat} (h : n < 256 ^ w) : Decodes (readLe w) (leBytes w n) n := by
  have hread : Decodes (readExact w) (leBytes w n) (leBytes w n) :=
    Decodes.readExact (length_leBytes w n)
  have hval : ofLeBytes (leBytes w n) = n := by
    rw [ofLeBytes_leBytes, Nat.mod_eq_of_lt h]
  refine hread.bind_pure ?_
  rw [hval]
  exact Decodes.pure n

theorem exact_readLe (w : Nat) : Exact (readLe w) w := (Exact.readExact w).bind_pure

/-! ## Codecs -/

/-- An encoding with its decoder.  An encoding has at least one byte; the law is
about the encodings that fit in memory, since a longer one may hold a sequence
whose length no longer fits the word that records it. -/
structure Codec (ε α : Type) where
  enc : α → List UInt8
  dec : Decoder ε α
  enc_ne_nil : ∀ a, enc a ≠ []
  dec_enc : ∀ a, (enc a).length < 2 ^ 64 → Decodes dec (enc a) a

namespace Codec

theorem enc_pos (c : Codec ε α) (a : α) : 0 < (c.enc a).length :=
  List.length_pos_of_ne_nil (c.enc_ne_nil a)

/-- Numerals of a fixed width. -/
def word (w : Nat) (hw : 0 < w) (pack : Nat → α) (unpack : α → Nat)
    (hlt : ∀ a, unpack a < 256 ^ w) (hinv : ∀ a, pack (unpack a) = a) : Codec IoErrorKind α where
  enc a := leBytes w (unpack a)
  dec := do
    let n ← readLe w
    pure (pack n)
  enc_ne_nil a := List.ne_nil_of_length_pos (by simpa using hw)
  dec_enc a _ := by
    refine (decodes_readLe (hlt a)).bind_pure ?_
    rw [hinv]
    exact Decodes.pure a

theorem exact_word {w : Nat} {hw : 0 < w} {pack : Nat → α} {unpack : α → Nat}
    {hlt : ∀ a, unpack a < 256 ^ w} {hinv : ∀ a, pack (unpack a) = a} :
    Exact (word w hw pack unpack hlt hinv).dec w :=
  (exact_readLe w).bind_pure

/-- Rewraps the decoder's errors. -/
def mapError (f : ε → ε') (c : Codec ε α) : Codec ε' α where
  enc := c.enc
  dec := Decoder.mapError f c.dec
  enc_ne_nil := c.enc_ne_nil
  dec_enc a h := (c.dec_enc a h).mapError f

/-- One value after the other. -/
def pair (c : Codec ε α) (d : Codec ε β) : Codec ε (α × β) where
  enc p := c.enc p.1 ++ d.enc p.2
  dec := do
    let a ← c.dec
    let b ← d.dec
    pure (a, b)
  enc_ne_nil p := List.append_ne_nil_of_left_ne_nil (c.enc_ne_nil p.1) _
  dec_enc p h := by
    rw [List.length_append] at h
    refine (c.dec_enc p.1 (by omega)).bind ?_
    exact (d.dec_enc p.2 (by omega)).bind_pure (Decodes.pure p)

theorem exact_pair {c : Codec ε α} {d : Codec ε β} {n m : Nat} (hc : Exact c.dec n)
    (hd : Exact d.dec m) : Exact (c.pair d).dec (n + m) :=
  hc.bind fun _ => hd.bind_pure

/-- The same bytes, read as another type. -/
def iso (c : Codec ε α) (pack : α → β) (unpack : β → α) (hinv : ∀ b, pack (unpack b) = b) :
    Codec ε β where
  enc b := c.enc (unpack b)
  dec := do
    let a ← c.dec
    pure (pack a)
  enc_ne_nil b := c.enc_ne_nil _
  dec_enc b h := by
    refine (c.dec_enc (unpack b) h).bind_pure ?_
    rw [hinv]
    exact Decodes.pure b

theorem exact_iso {c : Codec ε α} {pack : α → β} {unpack : β → α}
    {hinv : ∀ b, pack (unpack b) = b} {n : Nat} (hc : Exact c.dec n) :
    Exact (c.iso pack unpack hinv).dec n :=
  hc.bind_pure

/-- The values with a property, checked after they are read. -/
def refine (c : Codec ε α) (p : α → Prop) [DecidablePred p] (e : ε) : Codec ε {a // p a} where
  enc a := c.enc a.val
  dec := do
    let a ← c.dec
    if h : p a then pure ⟨a, h⟩ else fail e
  enc_ne_nil a := c.enc_ne_nil a.val
  dec_enc a h := by
    refine (c.dec_enc a.val h).bind_pure ?_
    rw [dif_pos a.property]
    exact Decodes.pure a

/-- A tag, and a value of the type the tag selects. -/
def sigma {τ : γ → Type} (tag : Codec ε γ) (body : (t : γ) → Codec ε (τ t)) :
    Codec ε ((t : γ) × τ t) where
  enc x := tag.enc x.1 ++ (body x.1).enc x.2
  dec := do
    let t ← tag.dec
    let a ← (body t).dec
    pure ⟨t, a⟩
  enc_ne_nil x := List.append_ne_nil_of_left_ne_nil (tag.enc_ne_nil x.1) _
  dec_enc x h := by
    rw [List.length_append] at h
    refine (tag.dec_enc x.1 (by omega)).bind ?_
    exact ((body x.1).dec_enc x.2 (by omega)).bind_pure (Decodes.pure x)

theorem length_enc_le_flatMap (c : Codec ε α) {xs : List α} {x : α} (hx : x ∈ xs) :
    (c.enc x).length ≤ (xs.flatMap c.enc).length := by
  rw [List.flatMap_def]
  exact (List.sublist_flatten_of_mem (List.mem_map_of_mem hx)).length_le

/-- Every element takes a byte or more. -/
theorem length_le_flatMap (c : Codec ε α) (xs : List α) :
    xs.length ≤ (xs.flatMap c.enc).length := by
  induction xs with
  | nil => simp
  | cons x xs ih =>
    have hx := c.enc_pos x
    rw [List.flatMap_cons, List.length_append, List.length_cons]
    omega

theorem decodes_times (c : Codec ε α) {n : Nat} (xs : List α) (hn : xs.length = n)
    (h : (xs.flatMap c.enc).length < 2 ^ 64) :
    Decodes (c.dec.times n) (xs.flatMap c.enc) ⟨xs, hn⟩ :=
  Decodes.times_of_length xs hn fun x hx =>
    c.dec_enc x ((c.length_enc_le_flatMap hx).trans_lt h)

/-- `n + 1` values in a row. -/
def array (n : Nat) (c : Codec ε α) : Codec ε {xs : List α // xs.length = n + 1} where
  enc xs := xs.val.flatMap c.enc
  dec := c.dec.times (n + 1)
  enc_ne_nil xs := by
    have hlen := c.length_le_flatMap xs.val
    have hpos := xs.property
    exact List.ne_nil_of_length_pos (by omega)
  dec_enc xs h := c.decodes_times xs.val xs.property h

theorem exact_array {c : Codec ε α} {m : Nat} (n : Nat) (hc : Exact c.dec m) :
    Exact (array n c).dec ((n + 1) * m) :=
  hc.times (n + 1)

/-- A sequence behind its length. -/
def counted (len : Codec ε UInt64) (c : Codec ε α) : Codec ε (List α) where
  enc xs := len.enc (UInt64.ofNat xs.length) ++ xs.flatMap c.enc
  dec := do
    let n ← len.dec
    let xs ← c.dec.times n.toNat
    pure xs.val
  enc_ne_nil xs := List.append_ne_nil_of_left_ne_nil (len.enc_ne_nil _) _
  dec_enc xs h := by
    rw [List.length_append] at h
    have hlen := c.length_le_flatMap xs
    have hn : (UInt64.ofNat xs.length).toNat = xs.length := UInt64.toNat_ofNat_of_lt' (by
      show xs.length < 2 ^ 64
      omega)
    refine (len.dec_enc _ (by omega)).bind ?_
    exact (c.decodes_times xs hn.symm (by omega)).bind_pure (Decodes.pure xs)

end Codec

/-! ## Slabs -/

/-- A sequence in memory: its length is a machine word. -/
structure Vec (α : Type) where
  toList : List α
  length_lt : toList.length < 2 ^ 64

namespace Vec

@[ext] theorem ext {v w : Vec α} (h : v.toList = w.toList) : v = w := by
  cases v
  cases w
  cases h
  rfl

instance [DecidableEq α] : DecidableEq (Vec α) := fun v w =>
  decidable_of_iff (v.toList = w.toList) ⟨Vec.ext, fun h => h ▸ rfl⟩

/-- `len() as u64`. -/
def len (v : Vec α) : UInt64 := UInt64.ofNat v.toList.length

@[simp] theorem toNat_len (v : Vec α) : v.len.toNat = v.toList.length :=
  UInt64.toNat_ofNat_of_lt' v.length_lt

theorem length_nil_lt : ([] : List α).length < 2 ^ 64 := by simp

def empty : Vec α := ⟨[], length_nil_lt⟩

end Vec

namespace Codec

/-- The values of a slab, one after the other. -/
def slab (c : Codec ε α) (v : Vec α) : List UInt8 := v.toList.flatMap c.enc

/-- A slab of `n` values. -/
def readSlab (c : Codec ε α) (n : UInt64) : Decoder ε (Vec α) := do
  let xs ← c.dec.times n.toNat
  pure ⟨xs.val, by rw [xs.property]; exact n.toNat_lt⟩

/-- Values of a fixed width are read back from a slab of any length. -/
theorem decodes_readSlab {c : Codec ε α} {w : Nat} (hw : w < 2 ^ 64)
    (hlen : ∀ a, (c.enc a).length = w) (v : Vec α) :
    Decodes (c.readSlab v.len) (c.slab v) v := by
  have htimes : Decodes (c.dec.times v.len.toNat) (c.slab v) ⟨v.toList, (Vec.toNat_len v).symm⟩ := by
    refine Decodes.times_of_length v.toList _ fun x _ => c.dec_enc x ?_
    rw [hlen]
    exact hw
  exact htimes.bind_pure (Decodes.pure v)

/-- A slab that is read has the length that was asked for. -/
theorem len_of_readSlab {c : Codec ε α} {n : UInt64} {r r' : Reader} {v : Vec α}
    (h : c.readSlab n r = .ok (v, r')) : v.len = n := by
  obtain ⟨xs, r'', -, hpure⟩ := bind_eq_ok_iff.mp h
  cases hpure
  apply UInt64.toNat_inj.mp
  rw [Vec.toNat_len]
  exact xs.property

theorem length_slab {c : Codec ε α} {w : Nat} (hlen : ∀ a, (c.enc a).length = w) (v : Vec α) :
    (c.slab v).length = w * v.toList.length := by
  rw [slab, List.length_flatMap]
  simp [hlen, Nat.mul_comm]

end Codec

end Foundation
