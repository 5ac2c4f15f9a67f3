import Reify.Ir.Value

/-!
# A symbolic value model

A collision-free hash of terms, a small value type and a concrete `Debug`
rendering.  They instantiate the parameters of the engine where a statement is
evaluated on a concrete input.

## Main definitions

* `HashTerm`: hashes as the terms that build them.
* `SimpleValue`: undefined, booleans and integers.
* `symbolicDebug`: a prefix-free rendering of ids.
-/

namespace Reify

/-- A hash kept as the term that computes it. -/
inductive HashTerm where
  | bytes (data : List UInt8)
  | pair (left right : HashTerm)
  | zero
deriving DecidableEq, Repr

instance : ContentHashing HashTerm where
  of := .bytes
  combine := .pair
  zero := .zero

/-- Undefined, a boolean or an integer. -/
inductive SimpleValue where
  | undef
  | bool (b : Bool)
  | int (n : Int)
deriving DecidableEq, Repr

namespace SimpleValue

/-- The integer in a pair of bytes strings: its sign, then a run of its length. -/
def contentHash : SimpleValue → HashTerm
  | undef => .bytes [0]
  | bool b => .bytes [1, if b then 1 else 0]
  | int (.ofNat n) => .pair (.bytes [2]) (.bytes (List.replicate n 0))
  | int (.negSucc n) => .pair (.bytes [3]) (.bytes (List.replicate n 0))

theorem contentHash_injective : Function.Injective contentHash := by
  intro v w h
  cases v with
  | undef => rcases w with _ | b | (n | n) <;> simp [contentHash] at h ⊢
  | bool b => rcases w with _ | b' | (n | n) <;> cases b <;> simp_all [contentHash]
  | int i =>
    rcases i with n | n <;> rcases w with _ | b | (m | m) <;>
      simp [contentHash, List.replicate_inj] at h ⊢ <;> omega

end SimpleValue

instance : ValueModel SimpleValue HashTerm where
  undef := .undef
  isUndef v := decide (v = .undef)
  isUndef_iff v := by simp
  asBool
    | .bool b => some b
    | _ => none
  contentHash := SimpleValue.contentHash

/-! ## Rendering -/

/-- A text with every character announced and an end mark. -/
def framed (s : List Char) : List Char := s.flatMap (fun c => ['+', c]) ++ ['.']

theorem framed_append_inj {s s' t t' : List Char} (h : framed s ++ t = framed s' ++ t') :
    s = s' ∧ t = t' := by
  induction s generalizing s' with
  | nil =>
    cases s' with
    | nil => simpa [framed] using h
    | cons c s' => simp [framed] at h
  | cons c s ih =>
    cases s' with
    | nil => simp [framed] at h
    | cons c' s' =>
      simp only [framed, List.flatMap_cons, List.cons_append, List.nil_append,
        List.cons.injEq, true_and] at h
      obtain ⟨rfl, hrest⟩ := h
      have htail : framed s ++ t = framed s' ++ t' := by simpa [framed] using hrest
      obtain ⟨rfl, rfl⟩ := ih htail
      exact ⟨rfl, rfl⟩

theorem framed_injective : Function.Injective framed := by
  intro s s' h
  have happ : framed s ++ [] = framed s' ++ [] := by rw [h]
  exact (framed_append_inj happ).1

/-- A value cell as two framed texts. -/
def framedCell (c : ValueCellId) : List Char := framed c.entity.toList ++ framed c.member.toList

/-- A node as its kind, its entity and its member or index. -/
def framedNode : NodeId → List Char
  | .value c => 'v' :: framedCell c
  | .constraint c => 'c' :: (framed c.entity.toList ++ framed (Nat.toDigits 10 c.index.toNat))
  | .realization r => 'r' :: (framed r.entity.toList ++ framed (Nat.toDigits 10 r.index.toNat))
  | .resolution s => 's' :: (framed s.entity.toList ++ framed (Nat.toDigits 10 s.index.toNat))
  | .compute c => 'x' :: (framed c.entity.toList ++ framed (Nat.toDigits 10 c.index.toNat))

theorem framedCell_injective : Function.Injective framedCell := by
  intro c c' h
  obtain ⟨hentity, hrest⟩ := framed_append_inj h
  have hmember := framed_injective hrest
  cases c
  cases c'
  simp_all [String.toList_inj]

/-- An entity and an index are read back from their frames. -/
theorem framed_index_inj {e e' : String} {i i' : UInt32}
    (h : framed e.toList ++ framed (Nat.toDigits 10 i.toNat) =
      framed e'.toList ++ framed (Nat.toDigits 10 i'.toNat)) : e = e' ∧ i = i' := by
  obtain ⟨hentity, hrest⟩ := framed_append_inj h
  refine ⟨String.toList_inj.mp hentity, UInt32.toNat_inj.mp ?_⟩
  have hval := congrArg (Nat.ofDigitChars 10 · 0) (framed_injective hrest)
  simpa using hval

theorem framedNode_injective : Function.Injective framedNode := by
  intro n n' h
  cases n with
  | value c =>
    cases n' <;> simp [framedNode] at h
    rw [framedCell_injective h]
  | constraint c =>
    cases n' <;> simp [framedNode] at h
    rw [NodeId.constraint.injEq, ConstraintNodeId.mk.injEq]
    exact framed_index_inj h
  | realization c =>
    cases n' <;> simp [framedNode] at h
    rw [NodeId.realization.injEq, RealizationNodeId.mk.injEq]
    exact framed_index_inj h
  | resolution c =>
    cases n' <;> simp [framedNode] at h
    rw [NodeId.resolution.injEq, ResolutionNodeId.mk.injEq]
    exact framed_index_inj h
  | compute c =>
    cases n' <;> simp [framedNode] at h
    rw [NodeId.compute.injEq, ComputeNodeId.mk.injEq]
    exact framed_index_inj h

/-- The framed texts as a `Debug` rendering. -/
@[reducible] def symbolicDebug : DebugRepr where
  cell c := String.ofList (framedCell c)
  node n := String.ofList (framedNode n)
  cell_injective _ _ h := framedCell_injective (String.ofList_injective h)
  node_injective _ _ h := framedNode_injective (String.ofList_injective h)

end Reify
