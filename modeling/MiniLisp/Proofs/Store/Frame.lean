import MiniLisp.Proofs.Eval.Rules
import MiniLisp.Proofs.Run.Ends
import MiniLisp.Proofs.Store.WellFormed

/-!
# Frames of calls

The frame of a call is a new child of a scope. Parameters and arguments are gone through together
from the left, each argument overwriting what its parameter was bound to, so that of equal
parameters the last one counts and the frame binds each name once. What a frame does not bind is
found as from its parent, and no scope that was there before notices that a frame has been made.
-/
namespace MiniLisp

namespace Bindings

/-- The bindings after some more, each in place of an earlier one of its name. -/
def insertAll (bindings : Bindings) (pairs : List (String × Value)) : Bindings :=
  pairs.foldl (fun bindings pair => bindings.insert pair.1 pair.2) bindings

theorem ofLists_eq (names : List String) (vs : List Value) :
    ofLists names vs = insertAll [] (names.zip vs) := rfl

theorem get?_insertAll_of_not_mem {pairs : List (String × Value)} {name : String}
    (other : name ∉ pairs.map Prod.fst) (bindings : Bindings) :
    (bindings.insertAll pairs).get? name = bindings.get? name := by
  induction pairs generalizing bindings with
  | nil => rfl
  | cons pair rest ih =>
    simp only [List.map_cons, List.mem_cons, not_or] at other
    calc (insertAll (bindings.insert pair.1 pair.2) rest).get? name
        = (bindings.insert pair.1 pair.2).get? name := ih other.2 _
      _ = bindings.get? name := by rw [get?_insert, if_neg other.1]

/-- The value at the last place of a name is the one that stays. -/
theorem get?_insertAll_last {names : List String} {vs : List Value}
    (equal : vs.length = names.length) {name : String} {i : Nat} (here : names[i]? = some name)
    (last : ∀ j, i < j → names[j]? ≠ some name) (bindings : Bindings) :
    (bindings.insertAll (names.zip vs)).get? name = vs[i]? := by
  -- By induction on the names, for whatever was bound before them.
  induction names generalizing vs i bindings with
  | nil => simp at here
  | cons first rest ih =>
    cases vs with
    | nil => simp at equal
    | cons v others =>
      have shorter : others.length = rest.length := by simpa using equal
      cases i with
      | zero =>
        -- The name does not come again, so what is bound first is not overwritten.
        obtain rfl : first = name := by simpa using here
        have never : first ∉ (rest.zip others).map Prod.fst := by
          rw [List.map_fst_zip (by omega)]
          intro member
          obtain ⟨j, found⟩ := List.mem_iff_getElem?.mp member
          exact last (j + 1) (by omega) (by simpa using found)
        have kept := get?_insertAll_of_not_mem never (bindings.insert first v)
        simpa [insertAll, get?_insert] using kept
      | succ i =>
        have later : ∀ j, i < j → rest[j]? ≠ some name := fun j less =>
          by simpa using last (j + 1) (by omega)
        simpa [insertAll] using
          ih shorter (by simpa using here) later (bindings.insert first v)

theorem mem_names_insertAll {pairs : List (String × Value)} {name : String}
    (bindings : Bindings) :
    name ∈ (bindings.insertAll pairs).names ↔
      name ∈ bindings.names ∨ name ∈ pairs.map Prod.fst := by
  induction pairs generalizing bindings with
  | nil => simp [insertAll]
  | cons pair rest ih =>
    have inserted : name ∈ (bindings.insert pair.1 pair.2).names ↔
        name ∈ bindings.names ∨ name = pair.1 := by
      rw [names_insert]
      split
      next bound =>
        refine ⟨.inl, fun either => either.elim id fun same => ?_⟩
        rw [same]
        exact bound
      next => simp
    calc name ∈ (insertAll (bindings.insert pair.1 pair.2) rest).names
        ↔ name ∈ (bindings.insert pair.1 pair.2).names ∨ name ∈ rest.map Prod.fst := ih _
      _ ↔ name ∈ bindings.names ∨ name ∈ (pair :: rest).map Prod.fst := by
        rw [inserted, List.map_cons, List.mem_cons, or_assoc]

theorem mem_names_ofLists {names : List String} {vs : List Value}
    (equal : vs.length = names.length) {name : String} :
    name ∈ (ofLists names vs).names ↔ name ∈ names := by
  rw [ofLists_eq, mem_names_insertAll, List.map_fst_zip (by omega)]
  simp [Bindings.names]

/-- There are as many bindings as different names. -/
theorem length_ofLists {names : List String} {vs : List Value}
    (equal : vs.length = names.length) : (ofLists names vs).length = names.toFinset.card := by
  have same : (ofLists names vs).names.toFinset = names.toFinset := by
    ext name
    simp only [List.mem_toFinset, mem_names_ofLists equal]
  rw [← same, List.toFinset_card_of_nodup (nodup_names_ofLists names vs), Bindings.names,
    List.length_map]

theorem mem_names_iff {bindings : Bindings} {name : String} :
    name ∈ bindings.names ↔ ∃ v, bindings.get? name = some v := by
  induction bindings with
  | nil => simp [names, get?]
  | cons first rest ih =>
    obtain ⟨other, w⟩ := first
    by_cases same : name = other
    · simp [names, get?, same]
    · simpa [names, get?, same] using ih

end Bindings

namespace Store

variable {store : Store} {parent : ScopeId}

/-- Reads from older scopes find what they found before. -/
theorem get?_add_of_lt {id : ScopeId} (old : id < store.size) (scope : Scope) (name : String) :
    (store.add scope).get? name id = store.get? name id := by
  induction id using Nat.strongRecOn with
  | ind id ih =>
    have grows : Grows (fun _ _ => True) store (store.add scope) := .add store scope
    rw [get?, get?.eq_def store, bindings_add_of_lt old, parent?_congr (grows.parent id old)]
    split
    · rfl
    · split
      next above older _ => exact ih above older (Nat.lt_trans older old)
      next => rfl

/-- A name is found in the frame itself or as from its parent. -/
theorem get?_addChild (there : parent < store.size) (bindings : Bindings) (name : String) :
    (store.add ⟨some parent, bindings⟩).get? name store.size =
      (bindings.get? name).or (store.get? name parent) := by
  have up : (store.add ⟨some parent, bindings⟩).Parent store.size parent :=
    parent_iff.mpr ⟨there, by simp [scope?_add]⟩
  obtain ⟨older, up⟩ := up
  rw [get?, bindings_add, if_pos rfl, up]
  cases bindings.get? name with
  | some v => rfl
  | none => exact get?_add_of_lt there _ name

end Store

/-- What a call's frame is. It is made if there are as many arguments as parameters, and otherwise
the call is refused with both numbers and nothing has changed. The frame is a new scope, one deeper
than its parent. From it a parameter has the argument at the last place where the parameter stands,
and any other name is found as from the parent. The frame binds the parameters, each once, so there
are as many bindings as different parameters. Every read from an older scope finds what it found
before. -/
theorem extend_makes_frame {world : World} {parent : ScopeId} (there : parent < world.store.size)
    (parameters : List String) (arguments : List Value) :
    let extended := Run.extend parameters arguments parent
    ((∃ child after, extended.EndsWith world (.ok child) after) ↔
      arguments.length = parameters.length) ∧
    (∀ fault after, extended.EndsWith world (.error fault) after ↔
      arguments.length ≠ parameters.length ∧ after = world ∧
        fault = .argumentCount "lambda" (.exactly parameters.length) arguments.length) ∧
    ∀ child after, extended.EndsWith world (.ok child) after →
      (∀ old < world.store.size, old ≠ child) ∧
      (∀ (name : String) (i : Nat), parameters[i]? = some name →
        (∀ j, i < j → parameters[j]? ≠ some name) →
          after.store.get? name child = arguments[i]?) ∧
      (∀ name ∉ parameters, after.store.get? name child = world.store.get? name parent) ∧
      (∀ name, after.store.Binds child name ↔ name ∈ parameters) ∧
      (after.store.bindings child).names.Nodup ∧
      (after.store.bindings child).length = parameters.toFinset.card ∧
      after.store.depth child = world.store.depth parent + 1 ∧
      ∀ old < world.store.size, ∀ name,
        after.store.get? name old = world.store.get? name old := by
  intro extended
  refine ⟨?_, ?_, ?_⟩
  · simp [extended, Run.endsWith_extend]
  · intro fault after
    simp [extended, Run.endsWith_extend]
  · intro child after made
    obtain ⟨equal, rfl, rfl⟩ : arguments.length = parameters.length ∧ child = world.store.size ∧
        after = world.enter parameters arguments parent := by
      simpa [extended, Run.endsWith_extend, World.enter] using made
    have frame : (world.enter parameters arguments parent).store.bindings world.store.size =
        Bindings.ofLists parameters arguments := by simp [World.enter, Store.bindings_add]
    refine ⟨fun old less => Nat.ne_of_lt less, ?_, ?_, ?_, ?_, ?_, ?_, ?_⟩
    · intro name i here last
      -- There is an argument at that place, so the parent is not asked.
      obtain ⟨v, given⟩ : ∃ v, arguments[i]? = some v := by
        have below : i < parameters.length := (List.getElem?_eq_some_iff.mp here).1
        exact ⟨_, List.getElem?_eq_getElem (by omega)⟩
      have bound : (Bindings.ofLists parameters arguments).get? name = arguments[i]? :=
        Bindings.get?_insertAll_last equal here last []
      rw [World.enter, Store.get?_addChild there, bound, given, Option.some_or]
    · intro name other
      rw [World.enter, Store.get?_addChild there, Store.get?_ofLists_of_not_mem other,
        Option.none_or]
    · intro name
      rw [← Bindings.mem_names_ofLists equal, Bindings.mem_names_iff]
      simp only [Store.Binds, frame]
    · rw [frame]
      exact Bindings.nodup_names_ofLists parameters arguments
    · rw [frame]
      exact Bindings.length_ofLists equal
    · exact Store.depth_add there _
    · exact fun old less name => Store.get?_add_of_lt less _ name

/-- A frame in the global scope of which the parameter `x` comes twice, and the second one counts.
The name `car` is found as from the global scope. With one argument less there is no frame. -/
theorem extend_makes_frame_twice :
    let parameters := ["x", "y", "x"]
    let arguments : List Value := [.integer 1, .integer 2, .integer 3]
    let after := World.fresh.enter parameters arguments 0
    0 < World.fresh.store.size ∧
      (Run.extend parameters arguments 0).EndsWith World.fresh (.ok 1) after ∧
      after.store.get? "x" 1 = some (.integer 3) ∧
      after.store.get? "car" 1 = some (.primitive .car) ∧
      (after.store.bindings 1).length = 2 ∧ after.store.depth 1 = 1 ∧
      after.store.get? "x" 0 = none ∧
      (Run.extend parameters [.integer 1, .integer 2] 0).EndsWith World.fresh
        (.error (.argumentCount "lambda" (.exactly 3) 2)) World.fresh := by
  intro parameters arguments after
  have there : 0 < World.fresh.store.size := by decide
  have made : (Run.extend parameters arguments 0).EndsWith World.fresh (.ok 1) after := ⟨_, rfl⟩
  obtain ⟨_, _, frame⟩ := extend_makes_frame there parameters arguments
  obtain ⟨_, refused, _⟩ := extend_makes_frame there parameters [.integer 1, .integer 2]
  obtain ⟨_, last, outside, _, _, count, depth, same⟩ := frame 1 after made
  have ends : ∀ j, 2 < j → parameters[j]? ≠ some "x" := by
    intro j behind
    have beyond : parameters.length ≤ j := behind
    simp [List.getElem?_eq_none beyond]
  have global : World.fresh.store.IsGlobal 0 := rfl
  refine ⟨there, made, last "x" 2 rfl ends, ?_, ?_, ?_, ?_, ?_⟩
  · rw [outside "car" (by decide)]
    exact Store.get?_eq_some_iff.mpr ⟨0, .here rfl, rfl⟩
  · rw [count]
    decide
  · rw [depth, Store.depth_of_isGlobal global]
  · rw [same 0 there, Store.get?_eq_none_iff]
    intro owner owned
    cases owned with
    | here bound => cases bound
    | outside _ up _ =>
      obtain ⟨_, up⟩ := up
      cases up
  · exact (refused _ _).mpr ⟨by decide, rfl, rfl⟩

end MiniLisp
