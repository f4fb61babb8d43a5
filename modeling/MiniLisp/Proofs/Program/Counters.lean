import Mathlib.Logic.Function.Basic
import MiniLisp.Proofs.Eval.Calls
import MiniLisp.Proofs.Session.Lines

/-!
# Counters

A counter is a procedure that increases a number each time it is called and answers with it. The
number is bound in a scope that only this counter remembers, a child of the global scope, made by
the call that made the counter. A table says of every counter which scope this is and how far it has
counted. Making a counter adds an entry and calling one changes its entry alone, so calls of
different counters may be mixed in any way.
-/
namespace MiniLisp

/-- Expressions evaluated in the global scope one after another, each with every depth that is great
enough, and their values. -/
inductive Session.Performs : World → List Value → List Value → World → Prop where
  | nil {world : World} : Performs world [] [] world
  | cons {world between after : World} {expression v : Value} {rest vs : List Value}
    (ends : ∃ enough, ∀ depth ≥ enough,
      (eval depth expression globalScope).EndsWith world (.ok v) between)
    (others : Performs between rest vs after) :
    Performs world (expression :: rest) (v :: vs) after

namespace Counter

open Session

/-- The line that defines the maker of counters. -/
def line : String :=
  "(define make-counter (lambda (n) (lambda () (begin (set! n (+ n 1)) n))))"

/-- What a counter does when it is called. -/
def body : Value :=
  .list [.symbol "begin",
    .list [.symbol "set!", .symbol "n", .list [.symbol "+", .symbol "n", .integer 1]],
    .symbol "n"]

def makerBody : Value := .list [.symbol "lambda", .list [], body]

/-- The tree of the line. -/
def definition : Value :=
  .list [.symbol "define", .symbol "make-counter",
    .list [.symbol "lambda", .list [.symbol "n"], makerBody]]

/-- The procedure that the line makes in a fresh world. -/
def maker : Value := .closure 0 ["n"] makerBody globalScope

/-- The world that the line leaves. -/
def defined : World := World.fresh.withClosure.define "make-counter" maker globalScope

/-- The definition of a counter that begins at a number. -/
def making (name : String) (start : Int64) : Value :=
  .list [.symbol "define", .symbol name, .list [.symbol "make-counter", .integer start]]

def calling (name : String) : Value := .list [.symbol name]

theorem evaluateLine_definition {depth : Nat} (enough : depth ≥ 2) :
    (evaluateLine depth globalScope line).EndsWith World.fresh (.ok maker) defined := by
  have read : Form.read line = .ok (definition, 0) := rfl
  have ends : (eval 2 definition globalScope).EndsWith World.fresh (.ok maker) defined :=
    ⟨_, rfl⟩
  exact evaluateLine_ends read (eval_deeper enough ends)

/-! ### One counter -/

/-- The scope is a child of the global scope, binds the number of a counter and does not hide the
primitive that the counter calls. -/
structure Owns (world : World) (place : ScopeId) (number : Int64) : Prop where
  up : world.store.Parent place globalScope
  number : (world.store.bindings place).get? "n" = some (.integer number)
  plain : (world.store.bindings place).get? "+" = none

/-- The world that a call of a counter leaves. -/
def advanced (world : World) (place : ScopeId) (number : Int64) : World :=
  (world.enter [] [] place).define "n" (.integer (number + 1)) place

section

variable {world : World} {place : ScopeId} {number : Int64}

theorem Owns.lt_size (owns : Owns world place number) : place < world.store.size :=
  Store.lt_size_of_bound owns.number

theorem Owns.ne_global (owns : Owns world place number) : globalScope ≠ place :=
  Nat.ne_of_lt (Store.parent_iff.mp owns.up).1

theorem bindings_advanced_of_ne {id : ScopeId} (old : id < world.store.size) (other : id ≠ place) :
    (advanced world place number).store.bindings id = world.store.bindings id :=
  (Store.bindings_define_of_ne other _ _).trans (world.bindings_enter_of_lt _ _ old)

theorem parent_advanced {id parent : ScopeId} (up : world.store.Parent id parent) :
    (advanced world place number).store.Parent id parent :=
  World.parent_define_of_parent (world.parent_enter_of_parent _ _ up)

theorem sum_one (n : Int64) :
    Primitive.sum.result [.integer n, .integer 1] = .ok (.integer (n + 1)) := by
  change Except.ok (Value.integer (0 + n + 1)) = _
  rw [Int64.zero_add]

theorem Owns.get?_advanced (owns : Owns world place number) (name : String) :
    ((advanced world place number).store.bindings place).get? name =
      if name = "n" then some (.integer (number + 1))
      else (world.store.bindings place).get? name := by
  have old := owns.lt_size
  have inside : place < (world.enter [] [] place).store.size :=
    Nat.lt_of_lt_of_le old (by simp [World.enter])
  rw [advanced, World.define, Store.get?_bindings_define, world.bindings_enter_of_lt _ _ old]
  simp [inside]

/-- The scope of a call binds nothing itself. -/
theorem get?_enter_nil (world : World) (place : ScopeId) (name : String) :
    ((world.enter [] [] place).store.bindings world.nextScope).get? name = none := by
  rw [world.bindings_enter]
  rfl

/-- The number is found one scope further out, and the primitive two. -/
theorem Owns.adds (owns : Owns world place number)
    (sum : (world.store.bindings globalScope).get? "+" = some (.primitive .sum)) :
    Evaluates (world.enter [] [] place) world.nextScope
      (.list [.symbol "+", .symbol "n", .integer 1]) (.ok (.integer (number + 1)))
      (world.enter [] [] place) := by
  let inner := world.enter [] [] place
  have nothing := get?_enter_nil world place
  have up : inner.store.Parent world.nextScope place := world.parent_enter _ _ owns.lt_size
  have further : inner.store.Parent place globalScope := world.parent_enter_of_parent _ _ owns.up
  have bound : inner.store.bindings place = world.store.bindings place :=
    world.bindings_enter_of_lt _ _ owns.lt_size
  have global : (inner.store.bindings globalScope).get? "+" = some (.primitive .sum) := by
    rwa [world.bindings_enter_of_lt _ _ (Store.lt_size_of_bound sum)]
  have plus : Evaluates inner world.nextScope (.symbol "+") (.ok (.primitive .sum)) inner :=
    .symbol (.outside (nothing "+") up (.outside (bound ▸ owns.plain) further (.here global)))
      global
  have counted : Evaluates inner world.nextScope (.symbol "n") (.ok (.integer number)) inner :=
    .of_outside (nothing "n") up (bound ▸ owns.number)
  have one : Evaluates inner world.nextScope (.integer 1) (.ok (.integer 1)) inner :=
    .literal (by simp [Value.IsLiteral])
  have addition := Evaluates.of_primitive rfl plus (.cons counted (.cons one .nil)) rfl (by decide)
  rwa [sum_one] at addition

/-- The call writes to the scope of the counter, since that is where the number is found, and reads
what has been written. -/
theorem Owns.applies (owns : Owns world place number)
    (sum : (world.store.bindings globalScope).get? "+" = some (.primitive .sum)) (serial : Nat) :
    Applies world (.closure serial [] body place) [] (.ok (.integer (number + 1)))
      (advanced world place number) := by
  let inner := world.enter [] [] place
  have nothing := get?_enter_nil world place "n"
  have up : inner.store.Parent world.nextScope place := world.parent_enter _ _ owns.lt_size
  have bound : inner.store.bindings place = world.store.bindings place :=
    world.bindings_enter_of_lt _ _ owns.lt_size
  have owner : inner.store.Owner "n" world.nextScope place :=
    .outside nothing up (.here (bound ▸ owns.number))
  have written : Evaluates (advanced world place number) world.nextScope (.symbol "n")
      (.ok (.integer (number + 1))) (advanced world place number) := by
    have same : (advanced world place number).store.bindings world.nextScope =
        inner.store.bindings world.nextScope :=
      Store.bindings_define_of_ne (Nat.ne_of_gt owns.lt_size) _ _
    exact .of_outside (same ▸ nothing) (World.parent_define_of_parent up)
      ((owns.get?_advanced "n").trans (if_pos rfl))
  exact .closure rfl
    (.sequence rfl (.cons (.assign rfl (owns.adds sum) owner) (.cons written .nil)))

end

/-! ### Many counters -/

/-- The scope and the number of each counter, by name. -/
abbrev Table := String → Option (ScopeId × Int64)

/-- The counters of the table, each with a scope of its own, and what they and their maker call are
bound in the global scope. -/
structure Holds (table : Table) (world : World) : Prop where
  sum : (world.store.bindings globalScope).get? "+" = some (.primitive .sum)
  source : (world.store.bindings globalScope).get? "make-counter" = some maker
  free {name : String} {entry : ScopeId × Int64} (known : table name = some entry) :
    Keyword.ofName? name = none
  bound {name : String} {place : ScopeId} {number : Int64}
    (known : table name = some (place, number)) : ∃ serial,
      (world.store.bindings globalScope).get? name = some (.closure serial [] body place)
  owns {name : String} {place : ScopeId} {number : Int64}
    (known : table name = some (place, number)) : Owns world place number
  apart {name other : String} {place : ScopeId} {number count : Int64}
    (known : table name = some (place, number)) (also : table other = some (place, count)) :
    name = other

/-- A name that can be given to a counter. -/
def IsFree (name : String) : Prop :=
  Keyword.ofName? name = none ∧ name ≠ "+" ∧ name ≠ "make-counter"

theorem holds_defined : Holds (fun _ => none) defined :=
  ⟨rfl, rfl, nofun, nofun, nofun, nofun⟩

/-- The world that the definition of a counter leaves. -/
def extended (world : World) (name : String) (start : Int64) : World :=
  (world.enter ["n"] [.integer start] globalScope).withClosure.define name
    (.closure world.closuresMade [] body world.nextScope) globalScope

section

variable {table : Table} {world : World} {name : String} {place : ScopeId} {number : Int64}

theorem Owns.of_bindings_eq {after : World} (owns : Owns world place number)
    (same : after.store.bindings place = world.store.bindings place)
    (up : after.store.Parent place globalScope) : Owns after place number :=
  ⟨up, same ▸ owns.number, same ▸ owns.plain⟩

theorem update_eq_some {other : String} {elsewhere : ScopeId} {count : Int64}
    (known : Function.update table name (some (place, number)) other = some (elsewhere, count)) :
    (other = name ∧ elsewhere = place ∧ count = number) ∨
      (other ≠ name ∧ table other = some (elsewhere, count)) := by
  by_cases same : other = name
  · subst same
    rw [Function.update_self] at known
    cases known
    exact .inl ⟨rfl, rfl, rfl⟩
  · rw [Function.update_of_ne same] at known
    exact .inr ⟨same, known⟩

/-- One counter is made or called. The others are bound as they were, and their scopes, which are
not the scope of this counter, have been left alone. -/
theorem Holds.update {after : World} (holds : Holds table world)
    (free : Keyword.ofName? name = none)
    (sum : (after.store.bindings globalScope).get? "+" = some (.primitive .sum))
    (source : (after.store.bindings globalScope).get? "make-counter" = some maker)
    (bound : ∃ serial,
      (after.store.bindings globalScope).get? name = some (.closure serial [] body place))
    (kept : ∀ other ≠ name, (after.store.bindings globalScope).get? other =
      (world.store.bindings globalScope).get? other)
    (owns : Owns after place number)
    (others : ∀ {other elsewhere count}, other ≠ name → table other = some (elsewhere, count) →
      elsewhere ≠ place ∧ Owns after elsewhere count) :
    Holds (Function.update table name (some (place, number))) after := by
  refine ⟨sum, source, ?_, ?_, ?_, ?_⟩
  · intro other ⟨_, _⟩ known
    rcases update_eq_some known with ⟨rfl, -, -⟩ | ⟨-, known⟩
    · exact free
    · exact holds.free known
  · intro other _ _ known
    rcases update_eq_some known with ⟨rfl, rfl, -⟩ | ⟨different, known⟩
    · exact bound
    · rw [kept other different]
      exact holds.bound known
  · intro other _ _ known
    rcases update_eq_some known with ⟨-, rfl, rfl⟩ | ⟨different, known⟩
    · exact owns
    · exact (others different known).2
  · -- Both names are this counter, or one of them is, or both are others.
    intro first second _ _ _ known also
    rcases update_eq_some known with ⟨one, rfl, -⟩ | ⟨different, known⟩ <;>
      rcases update_eq_some also with ⟨two, same, -⟩ | ⟨apart, also⟩
    · rw [one, two]
    · exact absurd rfl (others apart also).1
    · exact absurd same (others different known).1
    · exact holds.apart known also

theorem get?_extended (there : globalScope < world.store.size) (name asked : String)
    (start : Int64) :
    ((extended world name start).store.bindings globalScope).get? asked =
      if asked = name then some (.closure world.closuresMade [] body world.nextScope)
      else (world.store.bindings globalScope).get? asked := by
  have inside : globalScope < (world.enter ["n"] [.integer start] globalScope).store.size :=
    Nat.lt_of_lt_of_le there (by simp [World.enter])
  rw [extended, World.define, Store.get?_bindings_define, World.withClosure,
    world.bindings_enter_of_lt _ _ there]
  simp [inside]

/-- A counter begins in a new scope. -/
theorem Holds.extend (holds : Holds table world) (free : IsFree name) (start : Int64) :
    Holds (Function.update table name (some (world.nextScope, start)))
      (extended world name start) := by
  have there := Store.lt_size_of_bound holds.sum
  obtain ⟨plain, notSum, notMaker⟩ := free
  have global (asked : String) := get?_extended there name asked start
  have bindings {id : ScopeId} (inner : id ≠ globalScope) :
      (extended world name start).store.bindings id =
        (world.enter ["n"] [.integer start] globalScope).store.bindings id :=
    Store.bindings_define_of_ne inner _ _
  have owns : Owns (extended world name start) world.nextScope start := by
    have own : (extended world name start).store.bindings world.nextScope =
        Bindings.ofLists ["n"] [.integer start] :=
      (bindings (Nat.ne_of_gt there)).trans (world.bindings_enter _ _ _)
    have up := world.parent_enter ["n"] [.integer start] there
    exact ⟨World.parent_define_of_parent up, by rw [own]; rfl, by rw [own]; rfl⟩
  refine holds.update plain ?_ ?_ ⟨_, (global name).trans (if_pos rfl)⟩
    (fun other different => (global other).trans (if_neg different)) owns ?_
  · rw [global, if_neg notSum.symm, holds.sum]
  · rw [global, if_neg notMaker.symm, holds.source]
  · intro other elsewhere count _ known
    have owned := holds.owns known
    have same := (bindings owned.ne_global.symm).trans
      (world.bindings_enter_of_lt _ _ owned.lt_size)
    have up : (extended world name start).store.Parent elsewhere globalScope :=
      World.parent_define_of_parent (world.parent_enter_of_parent _ _ owned.up)
    exact ⟨Nat.ne_of_lt owned.lt_size, owned.of_bindings_eq same up⟩

theorem Holds.make (holds : Holds table world) (name : String) (start : Int64) :
    Evaluates world globalScope (making name start)
      (.ok (.closure world.closuresMade [] body world.nextScope))
      (extended world name start) := by
  have closed : Applies world maker [.integer start]
      (.ok (.closure world.closuresMade [] body world.nextScope))
      (world.enter ["n"] [.integer start] globalScope).withClosure :=
    .closure rfl (@Evaluates.lambda _ _ _ [] _ rfl)
  have argument : Evaluates world globalScope (.integer start) (.ok (.integer start)) world :=
    .literal (by simp [Value.IsLiteral])
  exact .define rfl (.call (Eval.isOperator_iff.mpr rfl) (.of_bound holds.source)
    (.cons argument .nil) closed)

/-- A counter goes on in its scope. -/
theorem Holds.advance (holds : Holds table world) (known : table name = some (place, number)) :
    Holds (Function.update table name (some (place, number + 1)))
      (advanced world place number) := by
  have owns := holds.owns known
  have global : (advanced world place number).store.bindings globalScope =
      world.store.bindings globalScope :=
    bindings_advanced_of_ne (Store.lt_size_of_bound holds.sum) owns.ne_global
  have next : Owns (advanced world place number) place (number + 1) :=
    ⟨parent_advanced owns.up, (owns.get?_advanced "n").trans (if_pos rfl),
      ((owns.get?_advanced "+").trans (if_neg (by decide))).trans owns.plain⟩
  refine holds.update (holds.free known) (global ▸ holds.sum) (global ▸ holds.source)
    (global ▸ holds.bound known) (fun other _ => by rw [global]) next ?_
  intro other elsewhere count different also
  have apart : elsewhere ≠ place := by
    rintro rfl
    exact different (holds.apart also known)
  have owned := holds.owns also
  exact ⟨apart, owned.of_bindings_eq (bindings_advanced_of_ne owned.lt_size apart)
    (parent_advanced owned.up)⟩

theorem Holds.call (holds : Holds table world) (known : table name = some (place, number)) :
    Evaluates world globalScope (calling name) (.ok (.integer (number + 1)))
      (advanced world place number) := by
  obtain ⟨serial, bound⟩ := holds.bound known
  exact .call (Eval.isOperator_iff.mpr (holds.free known)) (.of_bound bound) .nil
    ((holds.owns known).applies holds.sum serial)

end

/-! ### Runs -/

/-- Counters that are made one after another begin with their numbers, and those that have been made
before are as they were. -/
theorem Holds.makes {table : Table} {world : World} (holds : Holds table world)
    (counters : List (String × Int64)) (distinct : (counters.map Prod.fst).Nodup)
    (free : ∀ counter ∈ counters, IsFree counter.1) :
    ∃ made ready later,
      Performs world (counters.map fun counter => making counter.1 counter.2) made ready ∧
      Holds later ready ∧
      (∀ name ∉ counters.map Prod.fst, later name = table name) ∧
      ∀ counter ∈ counters, ∃ place, later counter.1 = some (place, counter.2) := by
  induction counters generalizing table world with
  | nil => exact ⟨[], world, table, .nil, holds, fun _ _ => rfl, nofun⟩
  | cons counter rest ih =>
    obtain ⟨name, start⟩ := counter
    obtain ⟨fresh, distinct⟩ := List.nodup_cons.mp distinct
    obtain ⟨first, free⟩ := List.forall_mem_cons.mp free
    obtain ⟨made, ready, later, performs, holding, kept, begun⟩ :=
      ih (holds.extend first start) distinct free
    refine ⟨_, ready, later, .cons (holds.make name start).exists_enough performs, holding, ?_, ?_⟩
    · intro other outside
      rw [kept other (List.not_mem_of_not_mem_cons outside),
        Function.update_of_ne (List.ne_of_not_mem_cons outside)]
    · intro counter member
      rcases List.mem_cons.mp member with rfl | member
      · exact ⟨world.nextScope, (kept name fresh).trans (Function.update_self ..)⟩
      · exact begun counter member

theorem add_ofNat_succ (number : Int64) (n : Nat) :
    number + Int64.ofNat (n + 1) = number + 1 + Int64.ofNat n := by
  rw [Nat.add_comm, Int64.ofNat_add, ← Int64.add_assoc]
  rfl

/-- The value of each call depends on the calls of the same counter up to there and on no others. -/
theorem Holds.calls {table : Table} {world : World} (holds : Holds table world)
    (calls : List String) (known : ∀ name ∈ calls, (table name).isSome) :
    ∃ results after, Performs world (calls.map calling) results after ∧
      results.length = calls.length ∧
      (∀ (position : Nat) (name : String) (place : ScopeId) (number : Int64),
        calls[position]? = some name → table name = some (place, number) →
        results[position]? =
          some (.integer (number + Int64.ofNat ((calls.take (position + 1)).count name)))) ∧
      after.store.bindings globalScope = world.store.bindings globalScope := by
  induction calls generalizing table world with
  | nil => exact ⟨[], world, .nil, rfl, nofun, rfl⟩
  | cons first rest ih =>
    obtain ⟨present, known⟩ := List.forall_mem_cons.mp known
    obtain ⟨⟨place, number⟩, entry⟩ := Option.isSome_iff_exists.mp present
    have still : ∀ name ∈ rest,
        (Function.update table first (some (place, number + 1)) name).isSome := by
      intro name member
      by_cases same : name = first
      · rw [same, Function.update_self, Option.isSome_some]
      · rw [Function.update_of_ne same]
        exact known name member
    obtain ⟨results, after, performs, length, counts, global⟩ := ih (holds.advance entry) still
    have owns := holds.owns entry
    refine ⟨_ :: results, after, .cons (holds.call entry).exists_enough performs,
      congrArg (· + 1) length, ?_, global.trans
        (bindings_advanced_of_ne (Store.lt_size_of_bound holds.sum) owns.ne_global)⟩
    intro position name elsewhere count asked also
    cases position with
    | zero =>
      -- The first call is itself the only one up to there.
      cases asked
      cases entry.symm.trans also
      simp
    | succ position =>
      rw [List.take_succ_cons]
      by_cases same : name = first
      · -- The counter has gone on by one before its other calls.
        subst same
        cases entry.symm.trans also
        have counted := counts position name place (number + 1) asked (Function.update_self ..)
        rw [List.count_cons_self, add_ofNat_succ]
        exact counted
      · have other := (Function.update_of_ne same (some (place, number + 1)) table).trans also
        rw [List.count_cons_of_ne (Ne.symm same)]
        exact counts position name elsewhere count asked other

end Counter

open Session Counter

/-- The line that defines `make-counter` makes a procedure in a fresh world. With it any number of
counters can be defined, under distinct names and beginning with any integers, and then be called
any number of times in any order. All of this comes to an end. A call of a counter answers with the
integer that the counter began with, increased by the number of calls of this counter up to there
and reduced to 64 bits, whatever other counters are called in between. The calls leave all bindings
of the global scope as they were. -/
theorem counters_count_their_calls (counters : List (String × Int64))
    (distinct : (counters.map Prod.fst).Nodup) (free : ∀ counter ∈ counters, IsFree counter.1) :
    (∀ depth ≥ 2,
      (evaluateLine depth globalScope line).EndsWith World.fresh (.ok maker) defined) ∧
    ∃ made ready,
      Performs defined (counters.map fun counter => making counter.1 counter.2) made ready ∧
      ∀ calls : List String, (∀ name ∈ calls, name ∈ counters.map Prod.fst) →
        ∃ results after, Performs ready (calls.map calling) results after ∧
          results.length = calls.length ∧
          (∀ (position : Nat) (name : String) (start : Int64),
            calls[position]? = some name → (name, start) ∈ counters →
            results[position]? = some (.integer
              (Int64.ofInt (start.toInt + (calls.take (position + 1)).count name)))) ∧
          after.store.bindings globalScope = ready.store.bindings globalScope := by
  refine ⟨fun depth enough => evaluateLine_definition enough, ?_⟩
  obtain ⟨made, ready, table, performs, holds, -, begun⟩ :=
    holds_defined.makes counters distinct free
  refine ⟨made, ready, performs, fun calls known => ?_⟩
  have defined : ∀ name ∈ calls, (table name).isSome := by
    intro name member
    obtain ⟨counter, listed, rfl⟩ := List.mem_map.mp (known name member)
    obtain ⟨place, entry⟩ := begun counter listed
    rw [entry, Option.isSome_some]
  obtain ⟨results, after, performs, length, counts, global⟩ := holds.calls calls defined
  refine ⟨results, after, performs, length, ?_, global⟩
  intro position name start asked listed
  obtain ⟨place, entry⟩ := begun (name, start) listed
  rw [Int64.ofInt_add, Int64.ofInt_toInt, Int64.ofInt_eq_ofNat]
  exact counts position name place start asked entry

/-- Two calls of one counter with a call of another one between them, which goes on from the
greatest integer to the least. -/
theorem counters_count_their_calls_mixed :
    let counters : List (String × Int64) := [("c", 10), ("d", Int64.maxValue)]
    (counters.map Prod.fst).Nodup ∧ (∀ counter ∈ counters, IsFree counter.1) ∧
      ∃ made ready results after,
        Performs defined (counters.map fun counter => making counter.1 counter.2) made ready ∧
        Performs ready (["c", "d", "c"].map calling) results after ∧
        results = [.integer 11, .integer Int64.minValue, .integer 12] := by
  intro counters
  have distinct : (counters.map Prod.fst).Nodup := by decide
  have free : ∀ counter ∈ counters, IsFree counter.1 :=
    List.forall_mem_cons.mpr ⟨⟨rfl, by decide, by decide⟩,
      List.forall_mem_singleton.mpr ⟨rfl, by decide, by decide⟩⟩
  obtain ⟨-, made, ready, performs, calls⟩ := counters_count_their_calls counters distinct free
  obtain ⟨results, after, called, length, counts, -⟩ := calls ["c", "d", "c"] (by decide)
  refine ⟨distinct, free, made, ready, results, after, performs, called, ?_⟩
  have first : results[0]? = some (.integer 11) := counts 0 "c" 10 rfl (by simp [counters])
  have second : results[1]? = some (.integer Int64.minValue) :=
    counts 1 "d" Int64.maxValue rfl (by simp [counters])
  have third : results[2]? = some (.integer 12) := counts 2 "c" 10 rfl (by simp [counters])
  match results, length with
  | [_, _, _], _ =>
    cases first
    cases second
    cases third
    rfl

end MiniLisp
