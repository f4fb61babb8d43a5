import MiniLisp.Proofs.Eval.Layer

/-!
# Invariants of evaluation

An invariant says which worlds may be met, which values may occur in a world, and what may be
evaluated in which scope of it. What it has to satisfy is about single steps: binding a name,
making a closure, entering a call, calling a primitive. The main theorem carries it through the
whole of evaluation: if a value may be evaluated, then whatever the run ends with, the world may be
met, the result may occur, and everything that was evaluated on the way may be evaluated.
-/
namespace MiniLisp

namespace Trace

theorem toListBefore_eq (trace : Trace) (events : List Event) :
    trace.toListBefore events = trace.toList ++ events := by
  induction trace generalizing events with
  | empty => rfl
  | single event => rfl
  | both earlier later first second =>
    unfold toList
    simp only [toListBefore, first, second, List.append_assoc, List.append_nil]

theorem toList_both (earlier later : Trace) :
    (Trace.both earlier later).toList = earlier.toList ++ later.toList :=
  toListBefore_eq earlier later.toList

theorem mem_both {event : Event} {earlier later : Trace} :
    event ∈ (Trace.both earlier later).toList ↔
      event ∈ earlier.toList ∨ event ∈ later.toList := by
  rw [toList_both, List.mem_append]

end Trace

/-- A fault that evaluation raises of its own accord and that carries no value. -/
def Fault.IsPlain (fault : Fault) : Prop :=
  (∀ v, fault ≠ .notCallable v) ∧ (∀ code, fault ≠ .exit code) ∧ ∀ p, fault ≠ .noCase p

theorem Eval.target_isPlain {keyword : Keyword} {operands : List Value} {fault : Fault}
    (failed : Eval.target keyword operands = .error fault) : fault.IsPlain := by
  rcases target_cases operands with ⟨name, expression, rfl⟩ |
    ⟨wrong, expression, rfl, other⟩ | count
  · cases failed
  · cases (target_of_not_symbol keyword expression other).symm.trans failed
    simp [Fault.IsPlain]
  · cases (target_of_length keyword count).symm.trans failed
    simp [Fault.IsPlain]

theorem Eval.closureParts_isPlain {operands : List Value} {fault : Fault}
    (failed : Eval.closureParts operands = .error fault) : fault.IsPlain := by
  rcases closureParts_cases operands with ⟨names, body, rfl⟩ |
    ⟨_, body, rfl, _, member, other⟩ | ⟨_, body, rfl, other⟩ | count
  · cases (closureParts_symbols names body).symm.trans failed
  · cases (closureParts_of_not_symbol body member other).symm.trans failed
    simp [Fault.IsPlain]
  · cases (closureParts_of_not_list body other).symm.trans failed
    simp [Fault.IsPlain]
  · cases (closureParts_of_length count).symm.trans failed
    simp [Fault.IsPlain]

/-- The head of the list spells the keyword for closures. -/
def Value.OpensLambda (items : List Value) : Prop :=
  ∃ word operands, items = .symbol word :: operands ∧ Keyword.ofName? word = some .lambda

/-- A property of worlds, values and code that every single step keeps. -/
structure Invariant where
  -- What may be met, what may occur in it, what may be evaluated in which of its scopes, which
  -- faults may be raised, what may be recorded as evaluated, and how worlds follow one another.
  holds : World → Prop
  value : World → Value → Prop
  code : World → ScopeId → Value → Prop
  fault : World → Fault → Prop
  seen : Value → Prop
  later : World → World → Prop
  -- What may occur or be evaluated still may later on.
  later_refl (world : World) : later world world
  later_trans {world between after : World} (first : later world between)
    (second : later between after) : later world after
  value_later {world after : World} {v : Value} (change : later world after)
    (good : value world v) : value after v
  code_later {world after : World} {scope : ScopeId} {v : Value} (change : later world after)
    (good : code world scope v) : code after scope v
  seen_of_code {world : World} {scope : ScopeId} {v : Value} (good : code world scope v) : seen v
  -- What the owner of a name binds it to may occur.
  bound {world : World} {scope owner : ScopeId} {name : String} {form v : Value}
    (met : holds world) (good : code world scope form)
    (owned : world.store.Owner name scope owner)
    (found : (world.store.bindings owner).get? name = some v) : value world v
  value_nil (world : World) : value world .nil
  literal {world : World} {scope : ScopeId} {v : Value} (good : code world scope v)
    (is : v.IsLiteral) : value world v
  quoted {world : World} {scope : ScopeId} {word : String} {operands : List Value}
    (good : code world scope (.list (.symbol word :: operands)))
    (spelled : Keyword.ofName? word = some .quote) : value world (Eval.quoted operands)
  -- The items of a list may be evaluated where the list may, except for those of a closure.
  item {world : World} {scope : ScopeId} {items : List Value} {item : Value}
    (good : code world scope (.list items)) (other : ¬ Value.OpensLambda items)
    (member : item ∈ items) : code world scope item
  -- The steps that change the world.
  closes {world : World} {scope : ScopeId} {word : String} {parameters : List String}
    {body : Value} (met : holds world)
    (good : code world scope (.list [.symbol word, .list (parameters.map .symbol), body]))
    (spelled : Keyword.ofName? word = some .lambda) :
    holds world.withClosure ∧ later world world.withClosure ∧
      value world.withClosure (.closure world.closuresMade parameters body scope)
  defines {world : World} {scope : ScopeId} {form v : Value} (name : String) (met : holds world)
    (good : code world scope form) (result : value world v) :
    holds (world.define name v scope) ∧ later world (world.define name v scope)
  assigns {world : World} {scope owner : ScopeId} {name : String} {form v : Value}
    (met : holds world) (good : code world scope form) (result : value world v)
    (owned : world.store.Owner name scope owner) :
    holds (world.define name v owner) ∧ later world (world.define name v owner)
  enters {world : World} {serial : Nat} {parameters : List String} {body : Value}
    {captured : ScopeId} {arguments : List Value} (met : holds world)
    (procedure : value world (.closure serial parameters body captured))
    (given : ∀ v ∈ arguments, value world v) (count : arguments.length = parameters.length) :
    holds (world.enter parameters arguments captured) ∧
      later world (world.enter parameters arguments captured) ∧
      code (world.enter parameters arguments captured) world.nextScope body
  calls {world : World} {p : Primitive} {arguments : List Value} (met : holds world)
    (procedure : value world (.primitive p)) (given : ∀ v ∈ arguments, value world v)
    (accepted : p.arity.accepts arguments.length = true) :
    holds (world.display (p.displayed arguments)) ∧
      later world (world.display (p.displayed arguments))
  -- What primitives make of values that may occur.
  answers {world : World} {p : Primitive} {arguments : List Value} {v : Value}
    (procedure : value world (.primitive p)) (given : ∀ v ∈ arguments, value world v)
    (answer : p.result arguments = .ok v) : value world v
  fails {world : World} {p : Primitive} {arguments : List Value} {f : Fault}
    (procedure : value world (.primitive p)) (given : ∀ v ∈ arguments, value world v)
    (answer : p.result arguments = .error f) : fault world f
  uncallable {world : World} {v : Value} (result : value world v) : fault world (.notCallable v)
  plain {world : World} {f : Fault} (is : f.IsPlain) : fault world f

namespace Invariant

variable {α β : Type} {I : Invariant} {world : World}

theorem values_later {after : World} {vs : List Value} (change : I.later world after)
    (given : ∀ v ∈ vs, I.value world v) : ∀ v ∈ vs, I.value after v := by
  intro v member
  exact I.value_later change (given v member)

theorem codes_later {after : World} {scope : ScopeId} {vs : List Value}
    (change : I.later world after) (good : ∀ v ∈ vs, I.code world scope v) :
    ∀ v ∈ vs, I.code after scope v := by
  intro v member
  exact I.code_later change (good v member)

/-- What a run that began in a world with the invariant leaves behind. -/
structure Kept (I : Invariant) (good : World → α → Prop) (world : World) (report : Report α) :
    Prop where
  holds : I.holds report.world
  later : I.later world report.world
  value : ∀ a, report.result = .ok a → good report.world a
  fault : ∀ f, report.result = .error f → I.fault report.world f
  seen : ∀ v, .evaluating v ∈ report.trace.toList → I.seen v

/-- However the run ends, it keeps the invariant, and its value is good. -/
def Keeps (I : Invariant) (run : Run α) (good : World → α → Prop) (world : World) : Prop :=
  I.holds world → ∀ report, run world = some report → I.Kept good world report

namespace Keeps

theorem of_ok {run : Run α} {good : World → α → Prop} {a : α} {after : World}
    (done : run world = some ⟨.ok a, after, .empty⟩)
    (kept : I.holds world → I.holds after ∧ I.later world after ∧ good after a) :
    I.Keeps run good world := by
  intro met report ends
  rw [done] at ends
  cases ends
  obtain ⟨holds, later, result⟩ := kept met
  refine ⟨holds, later, ?_, ?_, ?_⟩
  · intro b equal
    cases equal
    exact result
  · intro f impossible
    cases impossible
  · intro v impossible
    cases impossible

theorem pure {good : World → α → Prop} {a : α} (result : good world a) :
    I.Keeps (Pure.pure a) good world :=
  .of_ok rfl fun met => ⟨met, I.later_refl world, result⟩

theorem fail {good : World → α → Prop} {f : Fault} (raised : I.fault world f) :
    I.Keeps (Run.fail f) good world := by
  intro met report ends
  cases ends
  refine ⟨met, I.later_refl world, ?_, ?_, ?_⟩
  · intro a impossible
    cases impossible
  · intro g equal
    cases equal
    exact raised
  · intro v impossible
    cases impossible

theorem emit {event : Event} (recorded : ∀ v, event = .evaluating v → I.seen v) :
    I.Keeps (Run.emit event) (fun _ _ => True) world := by
  intro met report ends
  cases ends
  refine ⟨met, I.later_refl world, fun _ _ => trivial, ?_, ?_⟩
  · intro f impossible
    cases impossible
  · intro v member
    exact recorded v (List.mem_singleton.mp member).symm

theorem look : I.Keeps Run.world (fun _ _ => True) world :=
  .of_ok rfl fun met => ⟨met, I.later_refl world, trivial⟩

theorem bind {first : Run α} {next : α → Run β} {middle : World → α → Prop}
    {good : World → β → Prop} (kept : I.Keeps first middle world)
    (continued : ∀ a between, I.later world between → middle between a →
      I.Keeps (next a) good between) : I.Keeps (first >>= next) good world := by
  intro met report ends
  change Run.bind first next world = some report at ends
  unfold Run.bind at ends
  split at ends
  next => cases ends
  next f after trace done =>
    cases ends
    have kept := kept met _ done
    refine ⟨kept.holds, kept.later, ?_, ?_, kept.seen⟩
    · intro a impossible
      cases impossible
    · intro g equal
      cases equal
      exact kept.fault f rfl
  next a between earlier done =>
    -- What the second part keeps is kept since the world between, and the traces are joined.
    have kept := kept met _ done
    split at ends
    next => cases ends
    next result after trace rest =>
      cases ends
      have finish := continued a between kept.later (kept.value a rfl) kept.holds _ rest
      refine ⟨finish.holds, I.later_trans kept.later finish.later, finish.value, finish.fault, ?_⟩
      intro v member
      rcases Trace.mem_both.mp member with member | member
      · exact kept.seen v member
      · exact finish.seen v member

/-- Of runs for the items of a list every value is good at the end. -/
theorem mapM {f : α → Run β} (good : World → β → Prop)
    (good_later : ∀ {before after b}, I.later before after → good before b → good after b)
    {as : List α} (kept : ∀ a ∈ as, ∀ between, I.later world between → I.Keeps (f a) good between) :
    I.Keeps (as.mapM f) (fun after bs => ∀ b ∈ bs, good after b) world := by
  -- The loop collects, in reverse, what it has already computed.
  suffices loop : ∀ bs, (∀ b ∈ bs, good world b) →
      I.Keeps (List.mapM.loop f as bs) (fun after bs => ∀ b ∈ bs, good after b) world from
    loop [] (by simp)
  induction as generalizing world with
  | nil => exact fun bs collected => .pure fun b member => collected b (List.mem_reverse.mp member)
  | cons a rest ih =>
    intro bs collected
    refine (kept a (by simp) world (I.later_refl world)).bind fun b between change result => ?_
    refine ih (fun a member after later => ?_) (b :: bs) fun c member => ?_
    · exact kept a (List.mem_cons_of_mem _ member) after (I.later_trans change later)
    · rcases List.mem_cons.mp member with rfl | member
      · exact result
      · exact good_later change (collected c member)

/-- The fault that an attempt has caught may be raised again. -/
theorem attempt {run : Run α} {good : World → α → Prop} (kept : I.Keeps run good world) :
    I.Keeps (Run.attempt run) (fun after result =>
      (∀ a, result = .ok a → good after a) ∧ ∀ f, result = .error f → I.fault after f) world := by
  intro met report ends
  unfold Run.attempt at ends
  split at ends
  next => cases ends
  next result after trace done =>
    cases ends
    have kept := kept met _ done
    refine ⟨kept.holds, kept.later, ?_, ?_, kept.seen⟩
    · intro caught equal
      cases equal
      exact ⟨kept.value, kept.fault⟩
    · intro f impossible
      cases impossible

/-- A part that is computed without the world. -/
theorem ofExcept {given : Except Fault α} {next : α → Run β} {good : World → β → Prop}
    (raised : ∀ f, given = .error f → I.fault world f)
    (continued : ∀ a, given = .ok a → I.Keeps (next a) good world) :
    I.Keeps (Run.ofExcept given >>= next) good world := by
  cases given with
  | error f => exact .fail (raised f rfl)
  | ok a =>
    have here : I.Keeps (Run.ofExcept (.ok a)) (fun between b => between = world ∧ b = a) world :=
      .pure ⟨rfl, rfl⟩
    refine here.bind ?_
    rintro _ _ _ ⟨rfl, rfl⟩
    exact continued _ rfl

theorem fetch {name : String} {scope : ScopeId} {form : Value}
    (good : I.code world scope form) : I.Keeps (Run.fetch name scope) I.value world := by
  intro met
  cases found : world.store.get? name scope with
  | some v =>
    obtain ⟨owner, owned, bound⟩ := Store.get?_eq_some_iff.mp found
    have done : Run.fetch name scope world = some ⟨.ok v, world, .empty⟩ := by
      simp [Run.fetch, found]
    exact of_ok done (fun met => ⟨met, I.later_refl world, I.bound met good owned bound⟩) met
  | none =>
    intro report ends
    have done : Run.fetch name scope world = Run.fail (.unknownSymbol name) world := by
      simp [Run.fetch, found, Run.fail]
    exact fail (I.plain (by simp [Fault.IsPlain])) met report (done ▸ ends)

end Keeps

/-! ### One layer of evaluation -/

/-- Evaluating what may be evaluated keeps the invariant, and the value may occur. -/
def Preserved (I : Invariant) (f : Evaluator) : Prop :=
  ∀ v scope world, I.code world scope v → I.Keeps (f v scope) I.value world

section

variable {f : Evaluator} (preserved : I.Preserved f) {scope : ScopeId}

include preserved

theorem operandsWith_keeps {operands : List Value}
    (good : ∀ v ∈ operands, I.code world scope v) :
    I.Keeps (Eval.operandsWith f scope operands) (fun after vs => ∀ v ∈ vs, I.value after v)
      world := by
  induction operands generalizing world with
  | nil => exact .pure (by simp)
  | cons operand rest ih =>
    refine (preserved operand scope world (good operand (by simp))).bind ?_
    intro v between change first
    -- The world has changed under the operands that are still to come.
    have others : ∀ w ∈ rest, I.code between scope w :=
      codes_later change fun w member => good w (List.mem_cons_of_mem _ member)
    refine (ih others).bind ?_
    intro vs after change evaluated
    refine .pure ?_
    intro w member
    rcases List.mem_cons.mp member with rfl | member
    · exact I.value_later change first
    · exact evaluated w member

theorem sequenceWith_keeps {items : List Value} {last : Value}
    (good : ∀ v ∈ items, I.code world scope v) (result : I.value world last) :
    I.Keeps (Eval.sequenceWith f scope last items) I.value world := by
  induction items generalizing world last with
  | nil => exact .pure result
  | cons item rest ih =>
    refine (preserved item scope world (good item (by simp))).bind ?_
    intro v between change first
    have others : ∀ w ∈ rest, I.code between scope w :=
      codes_later change fun w member => good w (List.mem_cons_of_mem _ member)
    exact ih others first

omit preserved in
theorem callPrimitive_keeps {p : Primitive} {arguments : List Value}
    (procedure : I.value world (.primitive p)) (given : ∀ v ∈ arguments, I.value world v) :
    I.Keeps (Eval.callPrimitive p arguments) I.value world := by
  unfold Eval.callPrimitive
  split
  next accepted =>
    refine Keeps.bind (.emit (by simp)) fun _ between change _ => ?_
    have procedure := I.value_later change procedure
    have given := values_later change given
    have shown : I.Keeps (Run.write (p.displayed arguments)) (fun _ _ => True) between :=
      .of_ok rfl fun met =>
        have ⟨holds, later⟩ := I.calls met procedure given accepted
        ⟨holds, later, trivial⟩
    refine shown.bind fun _ after change _ => ?_
    have procedure := I.value_later change procedure
    have given := values_later change given
    split
    next v answer =>
      refine Keeps.bind (.emit (by simp)) fun _ last change _ => .pure ?_
      exact I.value_later change (I.answers procedure given answer)
    next f answer =>
      refine Keeps.bind (.emit (by simp)) fun _ last change _ => .fail ?_
      exact I.fails (I.value_later change procedure) (values_later change given) answer
  next => exact .fail (I.plain (by simp [Fault.IsPlain]))

omit preserved in
/-- In the scope that a call makes, the body may be evaluated. -/
theorem extend_keeps {serial : Nat} {parameters : List String} {body : Value}
    {captured : ScopeId} {arguments : List Value}
    (procedure : I.value world (.closure serial parameters body captured))
    (given : ∀ v ∈ arguments, I.value world v) :
    I.Keeps (Run.extend parameters arguments captured)
      (fun after inner => I.code after inner body) world := by
  unfold Run.extend
  simp only [Arity.accepts_exactly]
  split
  next equal => exact .of_ok rfl fun met => I.enters met procedure given equal
  next => exact .fail (I.plain (by simp [Fault.IsPlain]))

omit preserved in
theorem announce_keeps (inner : ScopeId) :
    I.Keeps (Eval.announce inner) (fun _ _ => True) world :=
  Keeps.look.bind fun _ _ _ _ => .emit (by simp)

theorem applyWith_keeps {procedure : Value} {arguments : List Value}
    (result : I.value world procedure) (given : ∀ v ∈ arguments, I.value world v) :
    I.Keeps (Eval.applyWith f procedure arguments) I.value world := by
  cases procedure with
  | primitive p => exact callPrimitive_keeps result given
  | closure serial parameters body captured =>
    refine Keeps.bind (.emit (by simp)) fun _ between change _ => ?_
    have result := I.value_later change result
    have given := values_later change given
    refine (extend_keeps result given).bind fun inner entered _ good => ?_
    exact (announce_keeps inner).bind fun _ last change _ =>
      preserved body inner last (I.code_later change good)
  | _ => exact .fail (I.uncallable result)

theorem conditionalWith_keeps {operands : List Value}
    (good : ∀ v ∈ operands, I.code world scope v) :
    I.Keeps (Eval.conditionalWith f scope operands) I.value world := by
  match operands, good with
  | [test, consequent], good =>
    refine (preserved test scope world (good test (by simp))).bind fun v between change _ => ?_
    split
    · exact preserved consequent scope between (I.code_later change (good consequent (by simp)))
    · exact .pure (I.value_nil between)
  | [test, consequent, alternative], good =>
    refine (preserved test scope world (good test (by simp))).bind fun v between change _ => ?_
    split
    · exact preserved consequent scope between (I.code_later change (good consequent (by simp)))
    · exact preserved alternative scope between (I.code_later change (good alternative (by simp)))
  | [], _ | [_], _ | _ :: _ :: _ :: _ :: _, _ => exact .fail (I.plain (by simp [Fault.IsPlain]))

omit preserved in
theorem assign_keeps {form v : Value} {name : String} (good : I.code world scope form)
    (result : I.value world v) :
    I.Keeps (Run.assign name v scope) (fun _ _ => True) world := by
  intro met
  cases found : world.store.owner? name scope with
  | some owner =>
    obtain ⟨holds, later⟩ := I.assigns met good result (Store.owner?_eq_some_iff.mp found)
    have done : Run.assign name v scope world =
        some ⟨.ok (), world.define name v owner, .empty⟩ := by
      simp [Run.assign, found, Run.define, World.define]
    exact Keeps.of_ok done (fun _ => ⟨holds, later, trivial⟩) met
  | none =>
    intro report ends
    have done : Run.assign name v scope world = Run.fail (.unknownSymbol name) world := by
      simp [Run.assign, found]
    exact Keeps.fail (I.plain (by simp [Fault.IsPlain])) met report (done ▸ ends)

omit preserved in
theorem close_keeps {word : String} {operands : List Value}
    (good : I.code world scope (.list (.symbol word :: operands)))
    (spelled : Keyword.ofName? word = some .lambda) :
    I.Keeps (Eval.close scope operands) I.value world := by
  refine .ofExcept (fun g failed => I.plain (Eval.closureParts_isPlain failed)) ?_
  rintro ⟨parameters, body⟩ found
  obtain rfl := Eval.closureParts_eq_ok found
  exact .of_ok rfl fun met => I.closes met good spelled

theorem defineWith_keeps {form : Value} {operands : List Value} (good : I.code world scope form)
    (items : ∀ v ∈ operands, I.code world scope v) :
    I.Keeps (Eval.defineWith f scope operands) I.value world := by
  refine .ofExcept (fun g failed => I.plain (Eval.target_isPlain failed)) ?_
  rintro ⟨name, expression⟩ found
  obtain rfl := Eval.target_eq_ok found
  refine (preserved expression scope world (items expression (by simp))).bind ?_
  intro v between change result
  have written : I.Keeps (Run.define name v scope) (fun _ _ => True) between :=
    .of_ok rfl fun met =>
      have ⟨holds, later⟩ := I.defines name met (I.code_later change good) result
      ⟨holds, later, trivial⟩
  refine written.bind fun _ after change _ => ?_
  refine Keeps.bind (.emit (by simp)) fun _ last recorded _ => ?_
  exact .pure (I.value_later recorded (I.value_later change result))

theorem assignWith_keeps {form : Value} {operands : List Value} (good : I.code world scope form)
    (items : ∀ v ∈ operands, I.code world scope v) :
    I.Keeps (Eval.assignWith f scope operands) I.value world := by
  refine .ofExcept (fun g failed => I.plain (Eval.target_isPlain failed)) ?_
  rintro ⟨name, expression⟩ found
  obtain rfl := Eval.target_eq_ok found
  refine (preserved expression scope world (items expression (by simp))).bind ?_
  intro v between change result
  refine (assign_keeps (I.code_later change good) result).bind fun _ after change _ =>
    Keeps.bind (.emit (by simp)) fun _ last recorded _ => ?_
  exact .pure (I.value_later recorded (I.value_later change result))

omit preserved in
/-- All forms but closures are made of parts that are evaluated where the form is. -/
theorem operands_code {word : String} {keyword : Keyword} {operands : List Value}
    (good : I.code world scope (.list (.symbol word :: operands)))
    (spelled : Keyword.ofName? word = some keyword) (other : keyword ≠ .lambda) :
    ∀ v ∈ operands, I.code world scope v := by
  intro v member
  refine I.item good ?_ (List.mem_cons_of_mem _ member)
  rintro ⟨_, _, equal, lambda⟩
  cases equal
  exact other (Option.some.inj (spelled.symm.trans lambda))

omit preserved in
/-- A call opens no closure, so head and operands may be evaluated where it stands. -/
theorem call_code {head : Value} {operands : List Value}
    (good : I.code world scope (.list (head :: operands))) (operator : head.IsOperator) :
    ∀ v ∈ head :: operands, I.code world scope v := by
  intro v member
  refine I.item good ?_ member
  rintro ⟨word, _, equal, spelled⟩
  cases equal
  cases (operator word rfl).symm.trans spelled

theorem formWith_keeps {word : String} {keyword : Keyword} {operands : List Value}
    (good : I.code world scope (.list (.symbol word :: operands)))
    (spelled : Keyword.ofName? word = some keyword) :
    I.Keeps (Eval.formWith f keyword operands scope) I.value world := by
  have items : keyword ≠ .lambda → ∀ v ∈ operands, I.code world scope v :=
    operands_code good spelled
  cases keyword with
  | quote => exact .pure (I.quoted good spelled)
  | conditional => exact conditionalWith_keeps preserved (items (by decide))
  | assign => exact assignWith_keeps preserved good (items (by decide))
  | define => exact defineWith_keeps preserved good (items (by decide))
  | lambda => exact close_keeps good spelled
  | begin => exact sequenceWith_keeps preserved (items (by decide)) (I.value_nil world)

/-- One more layer of evaluation keeps the invariant if the evaluation of the parts does. -/
theorem evalWith_keeps : I.Preserved (Eval.evalWith f) := by
  intro v scope world good
  have recorded : I.Keeps (Run.emit (.evaluating v)) (fun _ _ => True) world :=
    .emit fun w equal => by
      cases equal
      exact I.seen_of_code good
  refine recorded.bind fun _ between change _ => ?_
  have good := I.code_later change good
  split
  next name => exact .fetch good
  next head operands _ =>
    split
    next keyword found =>
      obtain ⟨word, rfl, spelled⟩ := Eval.keyword?_eq_some found
      exact formWith_keeps preserved good spelled
    next none =>
      have items := call_code good (Eval.isOperator_iff.mpr none)
      refine (preserved head scope between (items head (by simp))).bind ?_
      intro procedure before change result
      have rest : ∀ v ∈ operands, I.code before scope v :=
        codes_later change fun v member => items v (List.mem_cons_of_mem _ member)
      refine (operandsWith_keeps preserved rest).bind fun arguments after change given => ?_
      exact applyWith_keeps preserved (I.value_later change result) given
  next symbol list => exact .pure (I.literal good ⟨symbol, list⟩)

end

/-- An invariant of the steps is an invariant of evaluation. -/
theorem eval_keeps (I : Invariant) (depth : Nat) : I.Preserved (eval depth) := by
  induction depth with
  | zero =>
    intro v scope world good met report ends
    cases ends
  | succ depth ih => exact evalWith_keeps ih

end Invariant

end MiniLisp
