import Reify.Core.Ty
import Reify.Foundation.HashMap

/-!
# Type-argument inference

A generic call unifies each declared parameter type with the type of its argument.  The
walk descends while the two types have one constructor and shape, and binds the type
parameters it meets.  A bare type parameter on the argument's side is an erased type: it
gives way to a concrete one.

## Main definitions

* `unify`, `unifyAll`, `substituteTypeParams`.
* `Ty.positions`: the pairs at which the descent through two types stops.

## Main results

* `unify_eq_forM_positions`: unification is a loop over the positions.
* `unifyAll_spec`: what the order of the arguments can change, and what a successful
  inference says about every argument.
-/

namespace Reify

open Foundation

/-- The bindings of type and dimension parameters. -/
abbrev TypeSubst := HashMap String Ty

/-- A type parameter bound to two types. -/
structure TypeArgConflict where
  param : String
  existing : Ty
  incoming : Ty
deriving DecidableEq

/-- A computation that updates the bindings and may end in a conflict. -/
abbrev UnifyM := ExceptT TypeArgConflict (StateM TypeSubst)

/-! ## The walk -/

namespace Ty

/-- Whether the type is a bare type parameter: an erased type. -/
def isErased : Ty → Bool
  | typeParam _ => true
  | _ => false

end Ty

/-- The type-parameter arm of `unify`. -/
def bindTypeParam (p : String) (arg : Ty) : UnifyM Unit := do
  let subst ← get
  match subst.get p with
  | none => set (subst.insert p arg)
  | some existing =>
    if existing = arg then pure ()
    -- An erased binding yields to a concrete type, and a concrete one absorbs an erased type.
    else if existing.isErased && !arg.isErased then set (subst.insert p arg)
    else if !existing.isErased && arg.isErased then pure ()
    else throw ⟨p, existing, arg⟩

/-- The dimension-parameter arm of `unify`, at a scalar. -/
def bindScalarParam (p : String) (arg : Ty) : UnifyM Unit := do
  let subst ← get
  match subst.get p with
  | none => set (subst.insert p arg)
  | some existing =>
    if existing = arg then pure ()
    else throw ⟨p, existing, arg⟩

mutual

/-- `unify`. -/
def unify : Ty → Ty → UnifyM Unit
  | .typeParam p, arg => bindTypeParam p arg
  | .list d, .list a | .set d, .set a | .keyed d, .keyed a | .option d, .option a
  | .complex d, .complex a | .range d, .range a => unify d a
  | .map dk dv, .map ak av => do
    unify dk ak
    unify dv av
  | .field dd dc, .field ad ac => do
    unify dd ad
    unify dc ac
  | .function dp dr, .function ap ar =>
    if dp.length = ap.length then do
      unifyList dp ap
      unify dr ar
    else pure ()
  | .point dn dq, .point an aq | .vector dn dq, .vector an aq =>
    if dn = an then unify dq aq else pure ()
  | .tensor dr dn dq, .tensor ar an aq | .matrix dr dn dq, .matrix ar an aq =>
    if dr = ar ∧ dn = an then unify dq aq else pure ()
  | .union da, .union aa => if da.length = aa.length then unifyList da aa else pure ()
  | .applied dn da, .applied an aa =>
    if dn = an ∧ da.length = aa.length then unifyList da aa else pure ()
  | .projection db dm, .projection ab am => if dm = am then unify db ab else pure ()
  | .scalarParam p, .scalar d => bindScalarParam p (.scalar d)
  -- A structural mismatch, or a leaf: nothing is bound.
  | _, _ => pure ()

/-- The loop of `unify` over the children of two types. -/
def unifyList : List Ty → List Ty → UnifyM Unit
  | d :: ds, a :: as => do
    unify d a
    unifyList ds as
  | _, _ => pure ()

end

/-- The call site's loop over the declared types and their arguments. -/
def unifyAll (pairs : List (Ty × Ty)) : Except TypeArgConflict Unit × TypeSubst :=
  (pairs.forM fun q => unify q.1 q.2).run.run ∅

mutual

/-- `substitute_type_params`. -/
def substituteTypeParams (subst : TypeSubst) : Ty → Ty
  | .typeParam name => (subst.get name).getD (.typeParam name)
  | .scalarParam name => (subst.get name).getD (.scalarParam name)
  | .list inner => .list (substituteTypeParams subst inner)
  | .set inner => .set (substituteTypeParams subst inner)
  | .keyed inner => .keyed (substituteTypeParams subst inner)
  | .option inner => .option (substituteTypeParams subst inner)
  | .complex inner => .complex (substituteTypeParams subst inner)
  | .range inner => .range (substituteTypeParams subst inner)
  | .map key val => .map (substituteTypeParams subst key) (substituteTypeParams subst val)
  | .field domain codomain =>
    .field (substituteTypeParams subst domain) (substituteTypeParams subst codomain)
  | .function params returnType =>
    .function (substituteAll subst params) (substituteTypeParams subst returnType)
  | .point n quantity => .point n (substituteTypeParams subst quantity)
  | .vector n quantity => .vector n (substituteTypeParams subst quantity)
  | .tensor rank n quantity => .tensor rank n (substituteTypeParams subst quantity)
  | .matrix m n quantity => .matrix m n (substituteTypeParams subst quantity)
  | .union arms => .union (substituteAll subst arms)
  | .applied name args => .applied name (substituteAll subst args)
  | .projection base member => .projection (substituteTypeParams subst base) member
  | ty => ty

/-- `substitute_type_params` on each type of a list. -/
def substituteAll (subst : TypeSubst) : List Ty → List Ty
  | [] => []
  | ty :: tys => substituteTypeParams subst ty :: substituteAll subst tys

end

@[simp] theorem length_substituteAll (subst : TypeSubst) (tys : List Ty) :
    (substituteAll subst tys).length = tys.length := by
  induction tys with
  | nil => rfl
  | cons ty tys ih => simp [substituteAll, ih]

/-! ## Positions -/

namespace Ty

mutual

/-- The pairs at which the simultaneous descent through two types stops. -/
def positions : Ty → Ty → List (Ty × Ty)
  | list d, list a | set d, set a | keyed d, keyed a | option d, option a
  | complex d, complex a | range d, range a => positions d a
  | map dk dv, map ak av => positions dk ak ++ positions dv av
  | field dd dc, field ad ac => positions dd ad ++ positions dc ac
  | function dp dr, function ap ar =>
    if dp.length = ap.length then positionsList dp ap ++ positions dr ar
    else [(function dp dr, function ap ar)]
  | point dn dq, point an aq =>
    if dn = an then positions dq aq else [(point dn dq, point an aq)]
  | vector dn dq, vector an aq =>
    if dn = an then positions dq aq else [(vector dn dq, vector an aq)]
  | tensor dr dn dq, tensor ar an aq =>
    if dr = ar ∧ dn = an then positions dq aq else [(tensor dr dn dq, tensor ar an aq)]
  | matrix dr dn dq, matrix ar an aq =>
    if dr = ar ∧ dn = an then positions dq aq else [(matrix dr dn dq, matrix ar an aq)]
  | union da, union aa =>
    if da.length = aa.length then positionsList da aa else [(union da, union aa)]
  | applied dn da, applied an aa =>
    if dn = an ∧ da.length = aa.length then positionsList da aa
    else [(applied dn da, applied an aa)]
  | projection db dm, projection ab am =>
    if dm = am then positions db ab else [(projection db dm, projection ab am)]
  | d, a => [(d, a)]

/-- The positions of the children of two types. -/
def positionsList : List Ty → List Ty → List (Ty × Ty)
  | d :: ds, a :: as => positions d a ++ positionsList ds as
  | _, _ => []

end

/-- The parameter that `unify` binds at a position, and the type it meets there. -/
def target : Ty → Ty → Option (String × Ty)
  | typeParam p, a => some (p, a)
  | scalarParam p, scalar d => some (p, scalar d)
  | _, _ => none

theorem target_eq_some {d a : Ty} {p : String} {t : Ty} (h : d.target a = some (p, t)) :
    (d = typeParam p ∧ t = a) ∨ ∃ x, d = scalarParam p ∧ a = scalar x ∧ t = a := by
  rw [target.eq_def] at h
  split at h
  · cases h
    exact .inl ⟨rfl, rfl⟩
  · cases h
    exact .inr ⟨_, rfl, rfl, rfl⟩
  · cases h

/-- Two types agree at a position: they are equal, or one of them is erased. -/
def AgreeAt (s a : Ty) : Prop := s = a ∨ s.isErased = true ∨ a.isErased = true

mutual

theorem positions_self (t : Ty) : ∀ q ∈ positions t t, q.1 = q.2 := by
  cases t <;> simp only [positions, if_true, and_self, List.mem_singleton, List.mem_append, forall_eq]
  case list | set | keyed | option | complex | range | point | vector | tensor | matrix
      | projection => exact positions_self _
  case map k v =>
    rintro q (hq | hq)
    · exact positions_self k q hq
    · exact positions_self v q hq
  case field d c =>
    rintro q (hq | hq)
    · exact positions_self d q hq
    · exact positions_self c q hq
  case function ps r =>
    rintro q (hq | hq)
    · exact positionsList_self ps q hq
    · exact positions_self r q hq
  case union ts => exact positionsList_self ts
  case applied _ ts => exact positionsList_self ts
termination_by structural t

theorem positionsList_self (ts : List Ty) : ∀ q ∈ positionsList ts ts, q.1 = q.2 := by
  cases ts with
  | nil => simp [positionsList]
  | cons t ts =>
    rw [positionsList]
    intro q hq
    rcases List.mem_append.mp hq with hq | hq
    · exact positions_self t q hq
    · exact positionsList_self ts q hq
termination_by structural ts

end

theorem positions_substitute_of_stop {subst : TypeSubst} {d a : Ty}
    (h : positions d a = [(d, a)]) :
    positions (substituteTypeParams subst d) a =
      (positions d a).flatMap fun q => positions (substituteTypeParams subst q.1) q.2 := by
  rw [h, List.flatMap_singleton]

/-- The descent through a substituted type goes on from the positions of the declared
one. -/
theorem positions_substitute (subst : TypeSubst) : ∀ d a : Ty,
    positions (substituteTypeParams subst d) a =
      (positions d a).flatMap fun q => positions (substituteTypeParams subst q.1) q.2 := by
  apply positions.induct
    (fun d a => positions (substituteTypeParams subst d) a =
      (positions d a).flatMap fun q => positions (substituteTypeParams subst q.1) q.2)
    (fun ds as => positionsList (substituteAll subst ds) as =
      (positionsList ds as).flatMap fun q => positions (substituteTypeParams subst q.1) q.2)
  case case25 =>
    intros
    apply positions_substitute_of_stop
    rw [positions] <;> assumption
  case case27 =>
    intro ds as h
    rcases ds with - | ⟨d, ds⟩
    · simp [substituteAll, positionsList]
    · rcases as with - | ⟨a, as⟩
      · simp [substituteAll, positionsList]
      · exact (h d ds a as rfl rfl).elim
  all_goals intros
  all_goals first
    | (rename_i h
       exact positions_substitute_of_stop (by rw [positions, if_neg h]))
    | simp_all [substituteTypeParams, substituteAll, positions, positionsList, List.flatMap_append]

end Ty

/-- What `unify` does at one position. -/
def unifyLeaf (q : Ty × Ty) : UnifyM Unit :=
  match q.1, q.2 with
  | .typeParam p, arg => bindTypeParam p arg
  | .scalarParam p, .scalar d => bindScalarParam p (.scalar d)
  | _, _ => pure ()

theorem forM_append (f : Ty × Ty → UnifyM Unit) (xs ys : List (Ty × Ty)) :
    (xs ++ ys).forM f = (do
      xs.forM f
      ys.forM f) := by
  induction xs with
  | nil => simp
  | cons x xs ih =>
    show (do f x; (xs ++ ys).forM f) = (do (do f x; xs.forM f); ys.forM f)
    rw [ih]
    simp only [bind_assoc]

/-- Unification is a loop over the positions. -/
theorem unify_eq_forM_positions : ∀ d a : Ty, unify d a = (Ty.positions d a).forM unifyLeaf := by
  apply Ty.positions.induct (fun d a => unify d a = (Ty.positions d a).forM unifyLeaf)
    (fun ds as => unifyList ds as = (Ty.positionsList ds as).forM unifyLeaf)
  case case25 =>
    -- The descent stops here, so no recursive arm of the walk applies.
    intro d a
    intros
    rw [Ty.positions] <;> try assumption
    show _ = (do unifyLeaf (d, a); pure ())
    rw [bind_pure_unit, unify.eq_def, unifyLeaf]
    split <;> first | rfl | grind
  all_goals intros
  all_goals first
    | (rename_i h; rw [unify, Ty.positions, if_neg h, if_neg h]; rfl)
    | simp_all [unify, unifyList, Ty.positions, Ty.positionsList, forM_append]

/-! ## The run -/

/-- The loop over positions, run from some bindings. -/
def runLeaves (qs : List (Ty × Ty)) (subst : TypeSubst) :
    Except TypeArgConflict Unit × TypeSubst :=
  (qs.forM unifyLeaf).run.run subst

theorem runLeaves_cons (q : Ty × Ty) (qs : List (Ty × Ty)) (subst : TypeSubst) :
    runLeaves (q :: qs) subst =
      match (unifyLeaf q).run.run subst with
      | (.ok _, next) => runLeaves qs next
      | (.error c, next) => (.error c, next) := by
  show ((unifyLeaf q >>= fun _ => qs.forM unifyLeaf).run).run subst = _
  rcases h : (unifyLeaf q).run.run subst with ⟨c | _, next⟩
  · simp only [ExceptT.run_bind, StateT.run_bind]
    rw [h]
    rfl
  · simp only [ExceptT.run_bind, StateT.run_bind]
    rw [h]
    rfl

theorem unifyAll_eq_runLeaves (pairs : List (Ty × Ty)) :
    unifyAll pairs = runLeaves (pairs.flatMap fun q => q.1.positions q.2) ∅ := by
  have hloop : (pairs.forM fun q => unify q.1 q.2) =
      (pairs.flatMap fun q => q.1.positions q.2).forM unifyLeaf := by
    induction pairs with
    | nil => rfl
    | cons q pairs ih =>
      show (do unify q.1 q.2; pairs.forM fun q => unify q.1 q.2) = _
      rw [ih, unify_eq_forM_positions, ← forM_append, List.flatMap_cons]
  rw [unifyAll, hloop, runLeaves]

/-- The positions bind a parameter to a type. -/
def Meets (qs : List (Ty × Ty)) (p : String) (t : Ty) : Prop :=
  ∃ q ∈ qs, q.1.target q.2 = some (p, t)

/-- A type stays bound against another: the two are equal, or the other one is erased and
gives way. -/
def Prevails (t u : Ty) : Prop := u = t ∨ (u.isErased = true ∧ t.isErased = false)

theorem Prevails.antisymm {t u : Ty} (htu : Prevails t u) (hut : Prevails u t) : t = u := by
  rcases htu with rfl | ⟨hu, ht⟩
  · rfl
  · rcases hut with rfl | ⟨ht', -⟩
    · rfl
    · rw [ht] at ht'
      cases ht'

theorem Prevails.trans {t u v : Ty} (htu : Prevails t u) (huv : Prevails u v) :
    Prevails t v := by
  rcases htu with rfl | ⟨hu, ht⟩
  · exact huv
  · rcases huv with rfl | ⟨-, hu'⟩
    · exact .inr ⟨hu, ht⟩
    · rw [hu] at hu'
      cases hu'

/-- The bindings after some positions: each parameter has the type that prevails over all
those it met. -/
structure Inferred (qs : List (Ty × Ty)) (subst : TypeSubst) : Prop where
  unbound : ∀ p, subst.get p = none → ∀ t, ¬ Meets qs p t
  bound : ∀ p t, subst.get p = some t → Meets qs p t ∧ ∀ u, Meets qs p u → Prevails t u

/-- A conflict over some positions: two of the types that a parameter met, both erased or
both not, or else met at a dimension parameter. -/
structure Clash (qs : List (Ty × Ty)) (c : TypeArgConflict) : Prop where
  existing : Meets qs c.param c.existing
  incoming : Meets qs c.param c.incoming
  ne : c.existing ≠ c.incoming
  unordered : c.existing.isErased = c.incoming.isErased ∨
    ∃ d, c.incoming = .scalar d ∧ (.scalarParam c.param, c.incoming) ∈ qs

/-- What a run over some positions ends in. -/
def UnifyOutcome (qs : List (Ty × Ty)) : Except TypeArgConflict Unit × TypeSubst → Prop
  | (.ok _, subst) => Inferred qs subst
  | (.error c, _) => Clash qs c

theorem meets_concat_iff {qs : List (Ty × Ty)} {q : Ty × Ty} {p : String} {t : Ty} :
    Meets (qs ++ [q]) p t ↔ Meets qs p t ∨ q.1.target q.2 = some (p, t) := by
  simp [Meets, or_and_right, exists_or]

theorem settled_nil : Inferred [] ∅ where
  unbound _ _ _ := by simp [Meets]
  bound p t h := by simp at h

namespace Inferred

variable {qs : List (Ty × Ty)} {q : Ty × Ty} {subst : TypeSubst}

/-- The bindings stay where they prevail over what the position brings. -/
theorem keep (h : Inferred qs subst)
    (hq : ∀ p t, q.1.target q.2 = some (p, t) → ∃ e, subst.get p = some e ∧ Prevails e t) :
    Inferred (qs ++ [q]) subst where
  unbound p hp t ht := by
    rcases meets_concat_iff.mp ht with ht | ht
    · exact h.unbound p hp t ht
    · obtain ⟨e, he, -⟩ := hq p t ht
      rw [hp] at he
      cases he
  bound p t hp := by
    obtain ⟨hmet, hall⟩ := h.bound p t hp
    refine ⟨meets_concat_iff.mpr (.inl hmet), fun u hu => ?_⟩
    rcases meets_concat_iff.mp hu with hu | hu
    · exact hall u hu
    · obtain ⟨e, he, hprev⟩ := hq p u hu
      rw [hp] at he
      cases he
      exact hprev

/-- A new type is bound where it prevails over all those before it. -/
theorem bind (h : Inferred qs subst) {p : String} {t : Ty} (hq : q.1.target q.2 = some (p, t))
    (hall : ∀ u, Meets qs p u → Prevails t u) : Inferred (qs ++ [q]) (subst.insert p t) where
  unbound p' hp' u hu := by
    rw [HashMap.get_insert] at hp'
    split_ifs at hp' with hpp
    rcases meets_concat_iff.mp hu with hu | hu
    · exact h.unbound p' hp' u hu
    · rw [hq] at hu
      cases hu
      exact hpp rfl
  bound p' t' hp' := by
    rw [HashMap.get_insert] at hp'
    split_ifs at hp' with hpp
    · -- The parameter just bound.
      cases hp'
      subst hpp
      refine ⟨meets_concat_iff.mpr (.inr hq), fun u hu => ?_⟩
      rcases meets_concat_iff.mp hu with hu | hu
      · exact hall u hu
      · rw [hq] at hu
        cases hu
        exact .inl rfl
    · obtain ⟨hmet, hold⟩ := h.bound p' t' hp'
      refine ⟨meets_concat_iff.mpr (.inl hmet), fun u hu => ?_⟩
      rcases meets_concat_iff.mp hu with hu | hu
      · exact hold u hu
      · rw [hq] at hu
        cases hu
        exact absurd rfl hpp

/-- The type-parameter arm. -/
theorem bindTypeParam (h : Inferred qs subst) {p : String} {t : Ty}
    (hq : q.1.target q.2 = some (p, t)) :
    UnifyOutcome (qs ++ [q]) ((Reify.bindTypeParam p t).run.run subst) := by
  have hmet : Meets (qs ++ [q]) p t := meets_concat_iff.mpr (.inr hq)
  show UnifyOutcome (qs ++ [q]) ((match subst.get p with
    | none => set (subst.insert p t)
    | some existing =>
      if existing = t then pure ()
      else if existing.isErased && !t.isErased then set (subst.insert p t)
      else if !existing.isErased && t.isErased then pure ()
      else throw ⟨p, existing, t⟩ : UnifyM Unit).run.run subst)
  rcases hp : subst.get p with - | e
  · exact h.bind hq fun u hu => (h.unbound p hp u hu).elim
  · obtain ⟨hemet, hall⟩ := h.bound p e hp
    have hkeep (hprev : Prevails e t) : Inferred (qs ++ [q]) subst := by
      apply h.keep
      intro p' t' hq'
      rw [hq] at hq'
      cases hq'
      exact ⟨e, hp, hprev⟩
    dsimp only
    split_ifs with heq hup hab
    · exact hkeep (.inl heq.symm)
    · -- The erased binding yields.
      obtain ⟨he, ht⟩ := Bool.and_eq_true_iff.mp hup
      rw [Bool.not_eq_true'] at ht
      exact h.bind hq fun u hu => Prevails.trans (.inr ⟨he, ht⟩) (hall u hu)
    · -- The concrete binding absorbs.
      obtain ⟨he, ht⟩ := Bool.and_eq_true_iff.mp hab
      rw [Bool.not_eq_true'] at he
      exact hkeep (.inr ⟨ht, he⟩)
    · refine ⟨meets_concat_iff.mpr (.inl hemet), hmet, heq, .inl ?_⟩
      show e.isErased = t.isErased
      cases he : e.isErased <;> cases ht : t.isErased <;> simp_all

/-- The dimension-parameter arm. -/
theorem bindScalarParam (h : Inferred qs subst) {p : String} {d : DimensionVector}
    (hq : q = (.scalarParam p, .scalar d)) :
    UnifyOutcome (qs ++ [q]) ((Reify.bindScalarParam p (.scalar d)).run.run subst) := by
  have htarget : q.1.target q.2 = some (p, .scalar d) := by rw [hq]; rfl
  have hmet : Meets (qs ++ [q]) p (.scalar d) := meets_concat_iff.mpr (.inr htarget)
  show UnifyOutcome (qs ++ [q]) ((match subst.get p with
    | none => set (subst.insert p (.scalar d))
    | some existing =>
      if existing = .scalar d then pure ()
      else throw ⟨p, existing, .scalar d⟩ : UnifyM Unit).run.run subst)
  rcases hp : subst.get p with - | e
  · exact h.bind htarget fun u hu => (h.unbound p hp u hu).elim
  · obtain ⟨hemet, -⟩ := h.bound p e hp
    dsimp only
    split_ifs with heq
    · apply h.keep
      intro p' t' hq'
      rw [htarget] at hq'
      cases hq'
      exact ⟨e, hp, .inl heq.symm⟩
    · exact ⟨meets_concat_iff.mpr (.inl hemet), hmet, heq,
        .inr ⟨d, rfl, List.mem_append_right _ (List.mem_singleton.mpr hq.symm)⟩⟩

/-- One position. -/
theorem step (h : Inferred qs subst) (q : Ty × Ty) :
    UnifyOutcome (qs ++ [q]) ((unifyLeaf q).run.run subst) := by
  obtain ⟨d, a⟩ := q
  rw [unifyLeaf.eq_def]
  dsimp only
  split
  · exact h.bindTypeParam rfl
  · exact h.bindScalarParam rfl
  · rename_i hnt hns
    -- Nothing is bound here.
    apply h.keep
    intro p t ht
    rcases Ty.target_eq_some ht with ⟨hd, -⟩ | ⟨x, hd, ha, -⟩
    · exact (hnt p hd).elim
    · exact (hns p x hd ha).elim

end Inferred

theorem Clash.mono {qs rs : List (Ty × Ty)} {c : TypeArgConflict} (h : Clash qs c)
    (hsub : ∀ q ∈ qs, q ∈ rs) : Clash rs c where
  existing := by
    obtain ⟨q, hq, ht⟩ := h.existing
    exact ⟨q, hsub q hq, ht⟩
  incoming := by
    obtain ⟨q, hq, ht⟩ := h.incoming
    exact ⟨q, hsub q hq, ht⟩
  ne := h.ne
  unordered := by
    rcases h.unordered with h | ⟨d, hd, hmem⟩
    · exact .inl h
    · exact .inr ⟨d, hd, hsub _ hmem⟩

/-- A whole run. -/
theorem Inferred.run {done : List (Ty × Ty)} {subst : TypeSubst} (h : Inferred done subst)
    (qs : List (Ty × Ty)) : UnifyOutcome (done ++ qs) (runLeaves qs subst) := by
  induction qs generalizing done subst with
  | nil =>
    rw [List.append_nil]
    exact h
  | cons q qs ih =>
    rw [runLeaves_cons]
    have hstep := h.step q
    rcases hout : (unifyLeaf q).run.run subst with ⟨c | _, next⟩
    · rw [hout] at hstep
      apply Clash.mono (hstep : Clash (done ++ [q]) c)
      intro r hr
      rw [List.mem_append, List.mem_singleton] at hr
      rcases hr with hr | rfl
      · exact List.mem_append_left _ hr
      · exact List.mem_append_right _ List.mem_cons_self
    · rw [hout] at hstep
      have hrest := ih (hstep : Inferred (done ++ [q]) next)
      rwa [List.append_assoc, List.singleton_append] at hrest

/-- The run of a whole call. -/
theorem outcome_unifyAll (pairs : List (Ty × Ty)) :
    UnifyOutcome (pairs.flatMap fun q => q.1.positions q.2) (unifyAll pairs) := by
  rw [unifyAll_eq_runLeaves]
  exact settled_nil.run _

theorem Inferred.get_eq {qs qs' : List (Ty × Ty)} {subst subst' : TypeSubst}
    (h : Inferred qs subst) (h' : Inferred qs' subst')
    (hmeets : ∀ p t, Meets qs p t ↔ Meets qs' p t) (p : String) :
    subst'.get p = subst.get p := by
  rcases hp : subst.get p with - | t <;> rcases hp' : subst'.get p with - | t'
  · rfl
  · exact (h.unbound p hp t' ((hmeets p t').mpr (h'.bound p t' hp').1)).elim
  · exact (h'.unbound p hp' t ((hmeets p t).mp (h.bound p t hp).1)).elim
  · -- Each of the two types prevails over the other.
    obtain ⟨hmet, hall⟩ := h.bound p t hp
    obtain ⟨hmet', hall'⟩ := h'.bound p t' hp'
    have htt := hall t' ((hmeets p t').mpr hmet')
    rw [htt.antisymm (hall' t ((hmeets p t).mp hmet))]

/-- A conflict that another order avoids is about an erased type. -/
theorem Clash.erased {qs qs' : List (Ty × Ty)} {subst : TypeSubst} {c : TypeArgConflict}
    (h : Inferred qs subst) (hc : Clash qs' c) (hmeets : ∀ p t, Meets qs' p t → Meets qs p t) :
    c.existing.isErased = true ∧
      (c.incoming.isErased = true ∨ ∃ d, c.incoming = .scalar d ∧
        (.scalarParam c.param, c.incoming) ∈ qs') ∧
      ∃ t, subst.get c.param = some t ∧ t.isErased = false := by
  have hemet := hmeets _ _ hc.existing
  have himet := hmeets _ _ hc.incoming
  rcases hp : subst.get c.param with - | t
  · exact (h.unbound c.param hp _ hemet).elim
  · obtain ⟨-, hall⟩ := h.bound c.param t hp
    have hne := hc.ne
    rcases hall _ hemet with he | ⟨he, ht⟩
    · -- The existing type is the one that prevails, so the incoming one is absorbed.
      rcases hall _ himet with hi | ⟨hi, ht⟩
      · exact (hne (he.trans hi.symm)).elim
      · rcases hc.unordered with hsame | ⟨d, hd, -⟩
        · rw [he, ht, hi] at hsame
          cases hsame
        · rw [hd] at hi
          cases hi
    · refine ⟨he, ?_, t, rfl, ht⟩
      rcases hc.unordered with hsame | hdim
      · exact .inl (hsame ▸ he)
      · exact .inr hdim

theorem substituteTypeParams_of_target {subst : TypeSubst} {q : Ty × Ty} {p : String} {t s : Ty}
    (hq : q.1.target q.2 = some (p, t)) (hp : subst.get p = some s) :
    substituteTypeParams subst q.1 = s ∧ q.2 = t := by
  rcases Ty.target_eq_some hq with ⟨hd, ht⟩ | ⟨x, hd, -, ht⟩
  · exact ⟨by rw [hd, substituteTypeParams, hp, Option.getD_some], ht.symm⟩
  · exact ⟨by rw [hd, substituteTypeParams, hp, Option.getD_some], ht.symm⟩

/-- Where a parameter is bound, its type agrees with the argument. -/
theorem Inferred.agreeAt {qs : List (Ty × Ty)} {subst : TypeSubst} (h : Inferred qs subst)
    {q : Ty × Ty} (hq : q ∈ qs) {p : String} {t : Ty} (htarget : q.1.target q.2 = some (p, t)) :
    ∀ r ∈ (substituteTypeParams subst q.1).positions q.2, r.1.AgreeAt r.2 := by
  have hmet : Meets qs p t := ⟨q, hq, htarget⟩
  rcases hp : subst.get p with - | s
  · exact (h.unbound p hp t hmet).elim
  · obtain ⟨hs, ht⟩ := substituteTypeParams_of_target htarget hp
    rw [hs, ht]
    rcases (h.bound p s hp).2 t hmet with rfl | ⟨ht', -⟩
    · intro r hr
      exact .inl (Ty.positions_self _ r hr)
    · -- The argument is a bare type parameter, so the descent stops at once.
      obtain ⟨name, rfl⟩ : ∃ name, t = .typeParam name := by
        cases t <;> simp [Ty.isErased] at ht'
        exact ⟨_, rfl⟩
      have hstop : s.positions (.typeParam name) = [(s, .typeParam name)] := by
        cases s <;> rfl
      intro r hr
      rw [hstop, List.mem_singleton] at hr
      rw [hr]
      exact .inr (.inr rfl)

/-- **Inference up to the order of the arguments.**  Two orders that succeed bind every
parameter alike.  An order that fails where another one succeeds meets an erased type while
an erased type is bound, or a dimension parameter does, and the other order has a concrete
one by then.  After a success the substituted declared type agrees with the argument at
every position, those apart where nothing is bound, and no parameter met two concrete
types. -/
theorem unifyAll_spec :
    (∀ (pairs pairs' : List (Ty × Ty)) (subst : TypeSubst), pairs.Perm pairs' →
      unifyAll pairs = (.ok (), subst) →
      (∃ subst', unifyAll pairs' = (.ok (), subst') ∧ ∀ p, subst'.get p = subst.get p) ∨
      ∃ c subst' t, unifyAll pairs' = (.error c, subst') ∧ c.existing.isErased = true ∧
        (c.incoming.isErased = true ∨ ∃ d, c.incoming = .scalar d ∧
          ∃ pair ∈ pairs', (.scalarParam c.param, c.incoming) ∈ pair.1.positions pair.2) ∧
        subst.get c.param = some t ∧ t.isErased = false) ∧
    (∀ (pairs : List (Ty × Ty)) (subst : TypeSubst), unifyAll pairs = (.ok (), subst) →
      ∀ pair ∈ pairs, ∀ r ∈ (substituteTypeParams subst pair.1).positions pair.2,
        r.1.AgreeAt r.2 ∨ ∃ q ∈ pair.1.positions pair.2, q.1.target q.2 = none ∧
          r ∈ (substituteTypeParams subst q.1).positions q.2) ∧
    (∀ (pairs : List (Ty × Ty)) (subst : TypeSubst), unifyAll pairs = (.ok (), subst) →
      ∀ pair ∈ pairs, ∀ q ∈ pair.1.positions pair.2,
        ∀ pair' ∈ pairs, ∀ q' ∈ pair'.1.positions pair'.2, ∀ p t u,
        q.1.target q.2 = some (p, t) → q'.1.target q'.2 = some (p, u) →
        t.isErased = false → u.isErased = false → t = u) := by
  refine ⟨?_, ?_, ?_⟩
  · intro pairs pairs' subst hperm hok
    have hsettled := outcome_unifyAll pairs
    rw [hok] at hsettled
    have hmeets : ∀ p t, Meets (pairs.flatMap fun q => q.1.positions q.2) p t ↔
        Meets (pairs'.flatMap fun q => q.1.positions q.2) p t := by
      intro p t
      simp only [Meets, (hperm.flatMap_right _).mem_iff]
    have hother := outcome_unifyAll pairs'
    rcases hout : unifyAll pairs' with ⟨c | _, subst'⟩
    · rw [hout] at hother
      obtain ⟨he, hi, t, ht, hconc⟩ :=
        Clash.erased hsettled hother fun p t => (hmeets p t).mpr
      refine .inr ⟨c, subst', t, rfl, he, ?_, ht, hconc⟩
      rcases hi with hi | ⟨d, hd, hmem⟩
      · exact .inl hi
      · exact .inr ⟨d, hd, List.mem_flatMap.mp hmem⟩
    · rw [hout] at hother
      exact .inl ⟨subst', rfl, Inferred.get_eq hsettled hother hmeets⟩
  · intro pairs subst hok pair hpair r hr
    have hsettled := outcome_unifyAll pairs
    rw [hok] at hsettled
    rw [Ty.positions_substitute] at hr
    obtain ⟨q, hq, hr⟩ := List.mem_flatMap.mp hr
    rcases htarget : q.1.target q.2 with - | ⟨p, t⟩
    · exact .inr ⟨q, hq, htarget, hr⟩
    · exact .inl (Inferred.agreeAt hsettled (List.mem_flatMap.mpr ⟨pair, hpair, hq⟩)
        htarget r hr)
  · intro pairs subst hok pair hpair q hq pair' hpair' q' hq' p t u ht hu htc huc
    have hsettled := outcome_unifyAll pairs
    rw [hok] at hsettled
    have htmet : Meets (pairs.flatMap fun q => q.1.positions q.2) p t :=
      ⟨q, List.mem_flatMap.mpr ⟨pair, hpair, hq⟩, ht⟩
    have humet : Meets (pairs.flatMap fun q => q.1.positions q.2) p u :=
      ⟨q', List.mem_flatMap.mpr ⟨pair', hpair', hq'⟩, hu⟩
    rcases hp : subst.get p with - | s
    · exact (hsettled.unbound p hp t htmet).elim
    · -- Neither type is erased, so each is the one bound.
      have hbound := (hsettled.bound p s hp).2
      rcases hbound t htmet with rfl | ⟨hte, -⟩
      · rcases hbound u humet with rfl | ⟨hue, -⟩
        · rfl
        · rw [huc] at hue
          cases hue
      · rw [htc] at hte
        cases hte

/-- Three occurrences of one parameter: an erased type, `Int`, another erased type.  With
`Int` in the middle the call is inferred, and with `Int` last it conflicts.  A declared list
against a number is no conflict either, and nothing makes the two agree. -/
theorem unifyAll_erasedFirst :
    [(Ty.typeParam "T", Ty.typeParam "A"), (.typeParam "T", .int), (.typeParam "T", .typeParam "B")].Perm
      [(.typeParam "T", .typeParam "A"), (.typeParam "T", .typeParam "B"), (.typeParam "T", .int)] ∧
    (unifyAll [(.typeParam "T", .typeParam "A"), (.typeParam "T", .int),
      (.typeParam "T", .typeParam "B")]).1 = .ok () ∧
    (unifyAll [(.typeParam "T", .typeParam "A"), (.typeParam "T", .typeParam "B"),
      (.typeParam "T", .int)]).1 = .error ⟨"T", .typeParam "A", .typeParam "B"⟩ ∧
    unifyAll [(.list (.typeParam "T"), .int)] = (.ok (), ∅) ∧
    ∃ r ∈ (substituteTypeParams ∅ (.list (.typeParam "T"))).positions .int,
      ¬ r.1.AgreeAt r.2 := by
  refine ⟨.cons _ (.swap _ _ _), rfl, rfl, rfl, (.list (.typeParam "T"), .int), ?_, ?_⟩
  · exact List.mem_singleton.mpr rfl
  · simp [Ty.AgreeAt, Ty.isErased]

theorem unifyAll_spec_swapped :
    ((∃ subst', unifyAll [(.list (.typeParam "T"), .list .int), (.typeParam "T", .typeParam "A")] =
        (.ok (), subst') ∧ ∀ p, subst'.get p = (HashMap.insert ∅ "T" Ty.int).get p) ∨
      ∃ c subst' t, unifyAll [(.list (.typeParam "T"), .list .int), (.typeParam "T", .typeParam "A")] =
          (.error c, subst') ∧ c.existing.isErased = true ∧
        (c.incoming.isErased = true ∨ ∃ d, c.incoming = .scalar d ∧
          ∃ pair ∈ [(Ty.list (.typeParam "T"), Ty.list .int), (.typeParam "T", .typeParam "A")],
            (.scalarParam c.param, c.incoming) ∈ pair.1.positions pair.2) ∧
        (HashMap.insert ∅ "T" Ty.int).get c.param = some t ∧ t.isErased = false) ∧
    (∀ r ∈ (substituteTypeParams (HashMap.insert ∅ "T" .int) (.list (.typeParam "T"))).positions
        (.list .int),
      r.1.AgreeAt r.2 ∨ ∃ q ∈ (Ty.list (.typeParam "T")).positions (.list .int),
        q.1.target q.2 = none ∧
          r ∈ (substituteTypeParams (HashMap.insert ∅ "T" .int) q.1).positions q.2) ∧
    DimensionVector.basis 0 = .basis 0 :=
  ⟨unifyAll_spec.1 [(.typeParam "T", .typeParam "A"), (.list (.typeParam "T"), .list .int)] _ _
      (.swap _ _ _) rfl,
    unifyAll_spec.2.1 [(.typeParam "T", .typeParam "A"), (.list (.typeParam "T"), .list .int)] _
      rfl (.list (.typeParam "T"), .list .int) (.tail _ (.head _)),
    Ty.scalar.inj (unifyAll_spec.2.2
      [(.list (.scalarParam "Q"), .list (.scalar (.basis 0))), (.scalarParam "Q", .scalar (.basis 0))]
      _ rfl _ (.head _) (.scalarParam "Q", .scalar (.basis 0)) (.head _) _ (.tail _ (.head _))
      (.scalarParam "Q", .scalar (.basis 0)) (.head _) "Q" _ _ rfl rfl rfl rfl)⟩

end Reify
