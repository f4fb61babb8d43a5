import MiniLisp.Eval.Depth

/-!
# How runs end

What a run does to the world, apart from its trace, is said by the result and the world that it
ends with. A composed run ends with the fault of its first part, or its first part gives a value
and the run ends as what follows does. For each of the elementary runs there is one way to end.
-/
namespace MiniLisp.Run

variable {α β : Type} {world after : World}

/-- The run, started in the world, ends with the result in the other world. -/
def EndsWith (run : Run α) (world : World) (result : Except Fault α) (after : World) : Prop :=
  ∃ trace, run world = some ⟨result, after, trace⟩

/-- A run ends in one way only. -/
theorem EndsWith.unique {run : Run α} {result result' : Except Fault α} {after' : World}
    (ends : run.EndsWith world result after) (ends' : run.EndsWith world result' after') :
    result = result' ∧ after = after' := by
  obtain ⟨trace, done⟩ := ends
  obtain ⟨trace', done'⟩ := ends'
  rw [done] at done'
  cases done'
  exact ⟨rfl, rfl⟩

/-- What lies further up ends in the same way. -/
theorem Below.endsWith {first second : Run α} {result : Except Fault α}
    (below : Run.Below first second) (ends : first.EndsWith world result after) :
    second.EndsWith world result after := by
  obtain ⟨trace, done⟩ := ends
  exact ⟨trace, below _ _ done⟩

theorem eq_none_of_not_endsWith {run : Run α}
    (never : ∀ result after, ¬ run.EndsWith world result after) : run world = none := by
  cases done : run world with
  | none => rfl
  | some report => exact absurd ⟨report.trace, done⟩ (never report.result report.world)

/-- A run that can only end in one way does end in it. -/
theorem endsWith_of_some {run : Run α} {end_ : Except Fault α} {last : World} {trace : Trace}
    (done : run world = some ⟨end_, last, trace⟩) {result : Except Fault α} :
    run.EndsWith world result after ↔ result = end_ ∧ after = last := by
  constructor
  · exact fun ends => ends.unique ⟨trace, done⟩
  · rintro ⟨rfl, rfl⟩
    exact ⟨trace, done⟩

@[simp] theorem endsWith_pure {a : α} {result : Except Fault α} :
    (Pure.pure a : Run α).EndsWith world result after ↔ result = .ok a ∧ after = world :=
  endsWith_of_some rfl

@[simp] theorem endsWith_fail {fault : Fault} {result : Except Fault α} :
    (fail fault : Run α).EndsWith world result after ↔ result = .error fault ∧ after = world :=
  endsWith_of_some rfl

@[simp] theorem not_endsWith_cutShort {result : Except Fault α} :
    ¬ (cutShort : Run α).EndsWith world result after := by
  rintro ⟨trace, done⟩
  cases done

@[simp] theorem endsWith_ofExcept {given result : Except Fault α} :
    (ofExcept given).EndsWith world result after ↔ result = given ∧ after = world := by
  cases given <;> exact endsWith_of_some rfl

@[simp] theorem endsWith_emit {event : Event} {result : Except Fault Unit} :
    (emit event).EndsWith world result after ↔ result = .ok () ∧ after = world :=
  endsWith_of_some rfl

@[simp] theorem endsWith_world {result : Except Fault World} :
    Run.world.EndsWith world result after ↔ result = .ok world ∧ after = world :=
  endsWith_of_some rfl

@[simp] theorem endsWith_write {text : String} {result : Except Fault Unit} :
    (write text).EndsWith world result after ↔
      result = .ok () ∧ after = { world with output := world.output ++ text } :=
  endsWith_of_some rfl

@[simp] theorem endsWith_define {name : String} {v : Value} {scope : ScopeId}
    {result : Except Fault Unit} :
    (define name v scope).EndsWith world result after ↔
      result = .ok () ∧ after = { world with store := world.store.define name v scope } :=
  endsWith_of_some rfl

@[simp] theorem endsWith_addScope {scope : Scope} {result : Except Fault ScopeId} :
    (addScope scope).EndsWith world result after ↔
      result = .ok world.store.size ∧ after = { world with store := world.store.add scope } :=
  endsWith_of_some rfl

@[simp] theorem endsWith_close {parameters : List String} {body : Value} {scope : ScopeId}
    {result : Except Fault Value} :
    (close parameters body scope).EndsWith world result after ↔
      result = .ok (.closure world.closuresMade parameters body scope) ∧
        after = { world with closuresMade := world.closuresMade + 1 } :=
  endsWith_of_some rfl

theorem endsWith_fetch {name : String} {scope : ScopeId} {result : Except Fault Value} :
    (fetch name scope).EndsWith world result after ↔
      after = world ∧ ((∃ v, world.store.get? name scope = some v ∧ result = .ok v) ∨
        world.store.get? name scope = none ∧ result = .error (.unknownSymbol name)) := by
  cases found : world.store.get? name scope with
  | some v =>
    have done : fetch name scope world = some ⟨.ok v, world, .empty⟩ := by simp [fetch, found]
    rw [endsWith_of_some done]
    simp [and_comm]
  | none =>
    have done : fetch name scope world = some ⟨.error (.unknownSymbol name), world, .empty⟩ := by
      simp [fetch, found]
    rw [endsWith_of_some done]
    simp [and_comm]

theorem endsWith_assign {name : String} {v : Value} {scope : ScopeId}
    {result : Except Fault Unit} :
    (assign name v scope).EndsWith world result after ↔
      (∃ owner, world.store.owner? name scope = some owner ∧ result = .ok () ∧
        after = { world with store := world.store.define name v owner }) ∨
      world.store.owner? name scope = none ∧ result = .error (.unknownSymbol name) ∧
        after = world := by
  cases found : world.store.owner? name scope with
  | some owner =>
    have done : assign name v scope world = some
        ⟨.ok (), { world with store := world.store.define name v owner }, .empty⟩ := by
      simp [assign, found, define]
    rw [endsWith_of_some done]
    simp
  | none =>
    have done : assign name v scope world =
        some ⟨.error (.unknownSymbol name), world, .empty⟩ := by
      simp [assign, found, fail]
    rw [endsWith_of_some done]
    simp

theorem endsWith_extend {parameters : List String} {arguments : List Value} {parent : ScopeId}
    {result : Except Fault ScopeId} :
    (extend parameters arguments parent).EndsWith world result after ↔
      (arguments.length = parameters.length ∧ result = .ok world.store.size ∧
        after = { world with
          store := world.store.add ⟨some parent, Bindings.ofLists parameters arguments⟩ }) ∨
      arguments.length ≠ parameters.length ∧ after = world ∧
        result = .error (.argumentCount "lambda" (.exactly parameters.length)
          arguments.length) := by
  unfold extend
  simp only [Arity.accepts_exactly]
  split
  next equal => simp [equal]
  next different => simp [different, and_comm]

theorem endsWith_attempt {run : Run α} {result : Except Fault (Except Fault α)} :
    (attempt run).EndsWith world result after ↔
      ∃ inner, result = .ok inner ∧ run.EndsWith world inner after := by
  cases done : run world with
  | none => simp [EndsWith, attempt, done]
  | some report =>
    have whole : attempt run world = some ⟨.ok report.result, report.world, report.trace⟩ := by
      simp [attempt, done]
    simp only [endsWith_of_some whole, endsWith_of_some done]
    constructor
    · rintro ⟨rfl, rfl⟩
      exact ⟨report.result, rfl, rfl, rfl⟩
    · rintro ⟨_, rfl, rfl, rfl⟩
      exact ⟨rfl, rfl⟩

/-- A composed run ends with the fault of its first part, or as what follows does. -/
theorem endsWith_bind {first : Run α} {next : α → Run β} {result : Except Fault β} :
    (first >>= next).EndsWith world result after ↔
      (∃ fault, result = .error fault ∧ first.EndsWith world (.error fault) after) ∨
      ∃ a between, first.EndsWith world (.ok a) between ∧
        (next a).EndsWith between result after := by
  -- By what the first part has done: it was cut short, it ended with a fault, or it gave a value.
  cases done : first world with
  | none =>
    have cut : (first >>= next) world = none := by
      change Run.bind first next world = none
      simp [Run.bind, done]
    simp [EndsWith, cut, done]
  | some report =>
    obtain ⟨end_, between, earlier⟩ := report
    cases end_ with
    | error fault =>
      have whole : (first >>= next) world = some ⟨.error fault, between, earlier⟩ := by
        change Run.bind first next world = _
        simp [Run.bind, done]
      rw [endsWith_of_some whole]
      simp only [endsWith_of_some done, reduceCtorEq, false_and, exists_false, or_false,
        Except.error.injEq]
      constructor
      · rintro ⟨rfl, rfl⟩
        exact ⟨fault, rfl, rfl, rfl⟩
      · rintro ⟨_, rfl, rfl, rfl⟩
        exact ⟨rfl, rfl⟩
    | ok a =>
      have whole : (first >>= next) world =
          (next a between).map fun report => { report with trace := .both earlier report.trace } := by
        change Run.bind first next world = _
        simp only [Run.bind, done]
        cases next a between <;> rfl
      have same : (first >>= next).EndsWith world result after ↔
          (next a).EndsWith between result after := by
        unfold EndsWith
        rw [whole]
        cases rest : next a between with
        | none => simp
        | some report => cases report; simp
      rw [same]
      constructor
      · exact fun rest => .inr ⟨a, between, ⟨_, done⟩, rest⟩
      · -- The first part has ended with a value, so it has ended neither with a fault nor with
        -- another value.
        rintro (⟨fault, _, ends⟩ | ⟨_, _, ends, rest⟩)
        · obtain ⟨none, _⟩ := ends.unique ⟨_, done⟩
          cases none
        · obtain ⟨equal, rfl⟩ := ends.unique ⟨_, done⟩
          cases equal
          exact rest

/-- What follows a value decides how the whole ends. -/
theorem EndsWith.andThen {first : Run α} {next : α → Run β} {a : α} {between : World}
    {result : Except Fault β} (ends : first.EndsWith world (.ok a) between)
    (rest : (next a).EndsWith between result after) :
    (first >>= next).EndsWith world result after :=
  endsWith_bind.mpr (.inr ⟨a, between, ends, rest⟩)

/-- After a value the whole ends as what follows it does, and in no other way. -/
theorem EndsWith.bind_iff {first : Run α} {next : α → Run β} {a : α} {between : World}
    {result : Except Fault β} (ends : first.EndsWith world (.ok a) between) :
    (first >>= next).EndsWith world result after ↔ (next a).EndsWith between result after := by
  refine ⟨fun whole => ?_, ends.andThen⟩
  rcases endsWith_bind.mp whole with ⟨fault, _, failed⟩ | ⟨b, other, done, rest⟩
  · cases (ends.unique failed).1
  · obtain ⟨same, rfl⟩ := ends.unique done
    cases same
    exact rest

/-- What was to follow a fault is not done. -/
theorem EndsWith.stops {first : Run α} {next : α → Run β} {fault : Fault}
    (failed : first.EndsWith world (.error fault) after) :
    (first >>= next).EndsWith world (.error fault) after :=
  endsWith_bind.mpr (.inl ⟨fault, rfl, failed⟩)

theorem endsWith_bind_ok {first : Run α} {next : α → Run β} {b : β} :
    (first >>= next).EndsWith world (.ok b) after ↔
      ∃ a between, first.EndsWith world (.ok a) between ∧
        (next a).EndsWith between (.ok b) after := by
  simp [endsWith_bind]

theorem endsWith_bind_error {first : Run α} {next : α → Run β} {fault : Fault} :
    (first >>= next).EndsWith world (.error fault) after ↔
      first.EndsWith world (.error fault) after ∨
      ∃ a between, first.EndsWith world (.ok a) between ∧
        (next a).EndsWith between (.error fault) after := by
  simp [endsWith_bind]

theorem endsWith_ofExcept_ok {a : α} {next : α → Run β} {result : Except Fault β} :
    (ofExcept (.ok a) >>= next).EndsWith world result after ↔
      (next a).EndsWith world result after := by
  simp [endsWith_bind, and_assoc]

theorem endsWith_ofExcept_error {fault : Fault} {next : α → Run β} {result : Except Fault β} :
    (ofExcept (.error fault) >>= next).EndsWith world result after ↔
      result = .error fault ∧ after = world :=
  endsWith_of_some rfl

/-- What was to follow is not done if there is no value to go on with. -/
theorem endsWith_of_eq_error {given : Except Fault α} {fault : Fault} {next : α → Run β}
    (failed : given = .error fault) :
    (ofExcept given >>= next).EndsWith world (.error fault) world := by
  rw [failed]
  exact endsWith_ofExcept_error.mpr ⟨rfl, rfl⟩

end MiniLisp.Run
