import MiniLisp.Proofs.Eval.Moments
import MiniLisp.Proofs.Store.Growth
import MiniLisp.Proofs.Value.Equality
import MiniLisp.Proofs.Value.Every

/-!
# The record of closures

The closures that have been made can be put on record in the order of their making, each at the
place of its serial number. Evaluation goes on with the record: whatever it ends with, and at every
moment that it comes to, there is a longer record with all closures that are bound in some scope,
stand in the body of another, or are carried by the result. So one serial number is that of one
closure, and values on record are the same tree only if they are equal.
-/
namespace MiniLisp

/-- A closure is found in the record under its serial number. -/
def Value.IsRecorded (made : List Value) : Value → Prop
  | .closure serial parameters body scope =>
    made[serial]? = some (.closure serial parameters body scope)
  | _ => True

/-- Every closure that stands in the value is recorded. -/
def Value.OnRecord (made : List Value) (v : Value) : Prop := v.Every (IsRecorded made)

/-- A value that cannot be applied is shown by its fault. -/
def Fault.carried : Fault → List Value
  | .notCallable v => [v]
  | _ => []

theorem Fault.IsBare.carried_eq {fault : Fault} (bare : fault.IsBare) : fault.carried = [] := by
  cases fault with
  | notCallable v => exact absurd rfl (bare v)
  | _ => rfl

/-- The values that come out of a run with the result. -/
def Eval.carried {α : Type} (values : α → List Value) : Except Fault α → List Value
  | .ok a => values a
  | .error fault => fault.carried

namespace Value

variable {made later : List Value} {v : Value} {items : List Value}

theorem IsRecorded.mono (longer : made <+: later) (recorded : v.IsRecorded made) :
    v.IsRecorded later := by
  cases v with
  | closure serial =>
    obtain ⟨rest, rfl⟩ := longer
    have old : serial < made.length := (List.getElem?_eq_some_iff.mp recorded).1
    exact (List.getElem?_append_left old).trans recorded
  | _ => trivial

namespace OnRecord

theorem mono (longer : made <+: later) (recorded : v.OnRecord made) : v.OnRecord later :=
  Every.mono recorded fun _ => IsRecorded.mono longer

theorem all_mono (longer : made <+: later) (recorded : ∀ v ∈ items, v.OnRecord made) :
    ∀ v ∈ items, v.OnRecord later :=
  fun v member => (recorded v member).mono longer

theorem item (recorded : (list items).OnRecord made) (member : v ∈ items) : v.OnRecord made :=
  Every.item recorded member

theorem tail (recorded : (list (v :: items)).OnRecord made) : ∀ w ∈ items, w.OnRecord made :=
  fun _ member => recorded.item (List.mem_cons_of_mem v member)

theorem getLastD (recorded : ∀ v ∈ items, v.OnRecord made) :
    (items.getLastD .nil).OnRecord made := by
  cases items with
  | nil => exact .of_isBare Primitive.isBare_nil
  | cons first rest =>
    rw [List.getLastD_cons, ← List.getLast_eq_getLastD (List.cons_ne_nil first rest)]
    exact recorded _ (List.getLast_mem _)

end OnRecord

end Value

/-- The record is that of all the closures made so far, and it covers all that can come up in the
world. -/
structure World.Records (world : World) (made : List Value) : Prop where
  count : made.length = world.closuresMade
  bodies : ∀ serial parameters body scope,
    .closure serial parameters body scope ∈ made → body.OnRecord made
  bound : ∀ id, ∀ pair ∈ world.store.bindings id, pair.2.OnRecord made

/-- In the world the record has become longer, and the values are on it. -/
def World.GoesOn (made : List Value) (after : World) (vs : List Value) : Prop :=
  ∃ later, made <+: later ∧ after.Records later ∧ ∀ v ∈ vs, v.OnRecord later

namespace World

variable {world after : World} {made : List Value} {v : Value} {vs ws : List Value}

namespace GoesOn

theorem here (records : world.Records made) (recorded : ∀ v ∈ vs, v.OnRecord made) :
    world.GoesOn made vs :=
  ⟨made, List.prefix_rfl, records, recorded⟩

theorem one (records : world.Records made) (recorded : v.OnRecord made) :
    world.GoesOn made [v] :=
  here records (List.forall_mem_singleton.mpr recorded)

theorem none (records : world.Records made) : world.GoesOn made [] :=
  here records (List.forall_mem_nil _)

theorem bind (first : world.GoesOn made vs)
    (next : ∀ later, made <+: later → world.Records later → (∀ v ∈ vs, v.OnRecord later) →
      after.GoesOn later ws) : after.GoesOn made ws := by
  obtain ⟨later, longer, records, recorded⟩ := first
  obtain ⟨last, further, records, recorded⟩ := next later longer records recorded
  exact ⟨last, longer.trans further, records, recorded⟩

end GoesOn

namespace Records

variable (records : world.Records made)

include records

theorem define (name : String) (recorded : v.OnRecord made) (id : ScopeId) :
    (world.define name v id).Records made where
  count := records.count
  bodies := records.bodies
  bound other pair member := by
    rcases Store.mem_bindings_define member with old | ⟨_, rfl⟩
    · exact records.bound other pair old
    · exact recorded

theorem add {scope : Scope} (recorded : ∀ pair ∈ scope.bindings, pair.2.OnRecord made) :
    Records { world with store := world.store.add scope } made where
  count := records.count
  bodies := records.bodies
  bound id pair member := by
    rcases Store.mem_bindings_add member with old | ⟨_, new⟩
    · exact records.bound id pair old
    · exact recorded pair new

theorem enter {arguments : List Value} (recorded : ∀ v ∈ arguments, v.OnRecord made)
    (parameters : List String) (parent : ScopeId) :
    (world.enter parameters arguments parent).Records made :=
  records.add fun pair member => recorded pair.2 (Store.mem_ofLists member).2

/-- The new closure is written at the end of the record, which is the place of its number. -/
theorem withClosure {parameters : List String} {body : Value} {scope : ScopeId}
    (recorded : body.OnRecord made) :
    world.withClosure.GoesOn made [.closure world.closuresMade parameters body scope] := by
  have longer := List.prefix_append made [.closure world.closuresMade parameters body scope]
  refine ⟨_, longer, ⟨by simp [records.count, World.withClosure], ?_, ?_⟩, ?_⟩
  · intro serial parameters body scope member
    rcases List.mem_append.mp member with old | new
    · exact (records.bodies _ _ _ _ old).mono longer
    · cases List.mem_singleton.mp new
      exact recorded.mono longer
  · exact fun id pair member => (records.bound id pair member).mono longer
  · refine List.forall_mem_singleton.mpr (.of_given ?_ nofun)
    simp [Value.IsRecorded, ← records.count]

/-- What a closure is called for is its body, which is on the record as the closure is. -/
theorem body {serial : Nat} {parameters : List String} {body : Value} {scope : ScopeId}
    (recorded : (Value.closure serial parameters body scope).OnRecord made) :
    body.OnRecord made :=
  have found : made[serial]? = some _ := recorded _ (.refl _) trivial
  records.bodies _ _ _ _ (List.mem_of_getElem? found)

end Records

end World

/-! ### Evaluation -/

mutual

theorem Evaluates.goesOn {world after : World} {scope : ScopeId} {v : Value}
    {result : Except Fault Value} {made : List Value}
    (derived : Evaluates world scope v result after) (records : world.Records made)
    (recorded : v.OnRecord made) :
    after.GoesOn made (Eval.carried ([·]) result) := by
  match derived with
  -- The record stays as it is.
  | .symbol _ bound => exact .one records (records.bound _ _ (Store.mem_of_get? bound))
  | .literal _ => exact .one records recorded
  | .quote _ => exact .one records (recorded.item (by simp))
  | .quoteList _ _ => exact .one records (.list recorded.tail)
  | .unknown _ | .conditionalCount _ _ | .writeCount _ _ _ | .writeTarget _ _ _
  | .lambdaCount _ _ | .lambdaList _ _ | .lambdaSymbol _ _ _ => exact .none records
  -- What is evaluated goes on with it, and what is evaluated next goes on from there.
  | .consequent _ _ tested _ chosen =>
    refine (tested.goesOn records (recorded.item (by simp))).bind fun _ longer records _ => ?_
    exact chosen.goesOn records ((recorded.item (by simp)).mono longer)
  | .alternative _ tested _ chosen =>
    refine (tested.goesOn records (recorded.item (by simp))).bind fun _ longer records _ => ?_
    exact chosen.goesOn records ((recorded.item (by simp)).mono longer)
  | .noAlternative _ tested _ =>
    refine (tested.goesOn records (recorded.item (by simp))).bind fun _ _ records _ => ?_
    exact .one records (.of_isBare Primitive.isBare_nil)
  | .define _ evaluated =>
    refine (evaluated.goesOn records (recorded.item (by simp))).bind fun _ _ records value => ?_
    exact .here (records.define _ (List.forall_mem_singleton.mp value) _) value
  | .assign _ evaluated _ =>
    refine (evaluated.goesOn records (recorded.item (by simp))).bind fun _ _ records value => ?_
    exact .here (records.define _ (List.forall_mem_singleton.mp value) _) value
  | .assignUnknown _ evaluated _ =>
    refine (evaluated.goesOn records (recorded.item (by simp))).bind fun _ _ records _ => ?_
    exact .none records
  | .testFault _ _ tested => exact tested.goesOn records (recorded.item (by simp))
  | .writeFault _ _ evaluated => exact evaluated.goesOn records (recorded.item (by simp))
  | .lambda _ => exact records.withClosure (recorded.item (by simp))
  | .sequence _ evaluated =>
    refine (evaluated.goesOn records recorded.tail).bind fun _ _ records values => ?_
    exact .one records (.getLastD values)
  | .sequenceFault _ evaluated => exact evaluated.goesOn records recorded.tail
  | .call _ first evaluated applied =>
    refine (first.goesOn records (recorded.item (by simp))).bind fun _ longer records head => ?_
    refine (evaluated.goesOn records (Value.OnRecord.all_mono longer recorded.tail)).bind
      fun _ longer records arguments => ?_
    exact applied.goesOn records ((List.forall_mem_singleton.mp head).mono longer) arguments
  | .headFault _ first => exact first.goesOn records (recorded.item (by simp))
  | .operandFault _ first evaluated =>
    refine (first.goesOn records (recorded.item (by simp))).bind fun _ longer records _ => ?_
    exact evaluated.goesOn records (Value.OnRecord.all_mono longer recorded.tail)

theorem EvaluatesAll.goesOn {world after : World} {scope : ScopeId} {vs : List Value}
    {result : Except Fault (List Value)} {made : List Value}
    (derived : EvaluatesAll world scope vs result after) (records : world.Records made)
    (recorded : ∀ v ∈ vs, v.OnRecord made) :
    after.GoesOn made (Eval.carried id result) := by
  match derived with
  | .nil => exact .none records
  | .cons first others =>
    obtain ⟨head, rest⟩ := List.forall_mem_cons.mp recorded
    refine (first.goesOn records head).bind fun _ longer records value => ?_
    refine (others.goesOn records (Value.OnRecord.all_mono longer rest)).bind
      fun _ longer records values => .here records ?_
    exact List.forall_mem_cons.mpr ⟨(List.forall_mem_singleton.mp value).mono longer, values⟩
  | .fault first => exact first.goesOn records (List.forall_mem_cons.mp recorded).1
  | .later first others =>
    obtain ⟨head, rest⟩ := List.forall_mem_cons.mp recorded
    refine (first.goesOn records head).bind fun _ longer records _ => ?_
    exact others.goesOn records (Value.OnRecord.all_mono longer rest)

theorem Applies.goesOn {world after : World} {procedure : Value} {arguments : List Value}
    {result : Except Fault Value} {made : List Value}
    (derived : Applies world procedure arguments result after) (records : world.Records made)
    (recorded : procedure.OnRecord made) (given : ∀ v ∈ arguments, v.OnRecord made) :
    after.GoesOn made (Eval.carried ([·]) result) := by
  match derived with
  | @Applies.primitive _ p _ _ =>
    refine .here ⟨records.count, records.bodies, records.bound⟩ ?_
    cases answer : p.result arguments with
    | ok v => exact List.forall_mem_singleton.mpr (.answer given answer)
    | error fault =>
      rw [Eval.carried, (Primitive.isBare_of_error answer).carried_eq]
      exact List.forall_mem_nil _
  | .primitiveCount _ | .closureCount _ => exact .none records
  -- The text of the body need not be on the record by itself: the closure is.
  | .closure _ entered => exact entered.goesOn (records.enter given _ _) (records.body recorded)
  | .notCallable _ => exact .one records recorded

end

namespace Eval

variable {depth : Nat} {world after : World} {scope : ScopeId} {made : List Value}

theorem eval_goesOn {v : Value} {result : Except Fault Value} (records : world.Records made)
    (recorded : v.OnRecord made) (ends : (eval depth v scope).EndsWith world result after) :
    after.GoesOn made (carried ([·]) result) :=
  (eval_sound depth _ _ _ _ _ ends).goesOn records recorded

theorem operandsWith_goesOn {vs : List Value} {result : Except Fault (List Value)}
    (records : world.Records made) (recorded : ∀ v ∈ vs, v.OnRecord made)
    (ends : (operandsWith (eval depth) scope vs).EndsWith world result after) :
    after.GoesOn made (carried id result) :=
  (operandsWith_sound (eval_sound depth) ends).goesOn records recorded

/-- The record goes on at a position, where the part that is to be evaluated is on it. -/
theorem Position.goesOn {outer inner : Moment} (position : Position (eval depth) outer inner)
    (records : outer.world.Records made) (recorded : outer.expression.OnRecord made) :
    inner.world.GoesOn made [inner.expression] := by
  cases position with
  | operator _ => exact .one records (recorded.item (by simp))
  | test _ _ => exact .one records (recorded.item (by simp))
  | written _ _ => exact .one records (recorded.item (by simp))
  | @operand _ _ _ _ _ _ _ before _ _ _ first earlier =>
    have front : ∀ v ∈ before, v.OnRecord made := fun v member => recorded.item (by simp [member])
    refine (eval_goesOn records (recorded.item (by simp)) first).bind fun _ longer records _ => ?_
    refine (operandsWith_goesOn records (Value.OnRecord.all_mono longer front) earlier).bind
      fun _ further records _ => ?_
    exact .one records ((recorded.item (by simp)).mono (longer.trans further))
  | consequent _ _ tested _ =>
    refine (eval_goesOn records (recorded.item (by simp)) tested).bind fun _ longer records _ => ?_
    exact .one records ((recorded.item (by simp)).mono longer)
  | alternative _ tested _ =>
    refine (eval_goesOn records (recorded.item (by simp)) tested).bind fun _ longer records _ => ?_
    exact .one records ((recorded.item (by simp)).mono longer)
  | @item _ _ _ _ _ _ before _ _ earlier =>
    have front : ∀ v ∈ before, v.OnRecord made := fun v member => recorded.item (by simp [member])
    obtain ⟨_, _, evaluated⟩ := sequenceWith_ok.mp earlier
    refine (operandsWith_goesOn records front evaluated).bind fun _ longer records _ => ?_
    exact .one records ((recorded.item (by simp)).mono longer)
  | body _ first evaluated _ =>
    refine (eval_goesOn records (recorded.item (by simp)) first).bind
      fun _ longer records head => ?_
    refine (operandsWith_goesOn records (Value.OnRecord.all_mono longer recorded.tail)
      evaluated).bind fun _ further records arguments => ?_
    have procedure := (List.forall_mem_singleton.mp head).mono further
    exact .one (records.enter arguments _ _) (records.body procedure)

end Eval

/-- The record goes on at every moment that an evaluation reaches. -/
theorem Moment.reaches_goesOn {outer inner : Moment} {made : List Value}
    (context : Relation.ReflTransGen Moment.Reaches outer inner)
    (records : outer.world.Records made) (recorded : outer.expression.OnRecord made) :
    inner.world.GoesOn made [inner.expression] := by
  induction context with
  | refl => exact .one records recorded
  | tail _ position ih =>
    obtain ⟨depth, position⟩ := position
    exact ih.bind fun _ _ records recorded =>
      position.goesOn records (List.forall_mem_singleton.mp recorded)

/-! ### Numbers of closures -/

/-- No step takes back that a closure was made. -/
def closureCount : Invariant where
  holds _ := True
  value _ _ := True
  code _ _ _ := True
  fault _ _ := True
  seen _ := True
  later world after := world.closuresMade ≤ after.closuresMade
  later_refl _ := Nat.le_refl _
  later_trans := Nat.le_trans
  value_later _ _ := trivial
  code_later _ _ := trivial
  seen_of_code _ := trivial
  bound _ _ _ _ := trivial
  value_nil _ := trivial
  literal _ _ := trivial
  quoted _ _ := trivial
  item _ _ _ := trivial
  closes _ _ _ := ⟨trivial, Nat.le_succ _, trivial⟩
  defines _ _ _ _ := ⟨trivial, Nat.le_refl _⟩
  assigns _ _ _ _ := ⟨trivial, Nat.le_refl _⟩
  enters _ _ _ _ := ⟨trivial, Nat.le_refl _, trivial⟩
  calls _ _ _ _ := ⟨trivial, Nat.le_refl _⟩
  answers _ _ _ := trivial
  fails _ _ _ := trivial
  uncallable _ := trivial
  plain _ := trivial

/-! ### Values on one record -/

/-- Of the closures on a record each has a number of its own, so that those with one number are
one closure. -/
theorem Value.Same.eq_of_onRecord {a b : Value} {made : List Value} (same : a.Same b)
    (left : a.OnRecord made) (right : b.OnRecord made) : a = b := by
  induction same with
  | list length _ ih =>
    refine congrArg Value.list (List.ext_getElem length fun i old old' => ?_)
    exact ih i _ _ (List.getElem?_eq_getElem old) (List.getElem?_eq_getElem old')
      (left.item (List.getElem_mem old)) (right.item (List.getElem_mem old'))
  | closure serial =>
    have first : made[serial]? = some _ := left _ (.refl _) trivial
    have second : made[serial]? = some _ := right _ (.refl _) trivial
    exact Option.some.inj (first.symm.trans second)
  | _ => rfl

end MiniLisp
