import MiniLisp.Primitive.Result
import MiniLisp.Proofs.Value.Subtree

/-!
# What primitives take apart and put together

Primitives make numbers, booleans, `nil` and lists. They make no symbols and no procedures: one
that stands somewhere in an answer stood somewhere in an argument. Nor does a primitive raise the
fault of a value that cannot be applied, so its faults carry no values at all; and of all
primitives only `quit` raises the fault that asks to leave.
-/
namespace MiniLisp

def Value.IsGiven : Value → Prop
  | .symbol _ | .primitive _ | .closure _ _ _ _ => True
  | _ => False

/-- No symbol and no procedure stands in the value. -/
def Value.IsBare (v : Value) : Prop :=
  ∀ part : Value, part.Subtree v → ¬ part.IsGiven

def Fault.IsBare (fault : Fault) : Prop :=
  ∀ v, fault ≠ .notCallable v

namespace Primitive

/-- The answer is put together from the arguments. -/
def Made (arguments : List Value) : Except Fault Value → Prop
  | .ok v => ∀ part : Value, part.Subtree v → part.IsGiven → ∃ w ∈ arguments, part.Subtree w
  | .error fault => fault.IsBare

variable {α : Type} {arguments : List Value}

theorem made_of_isBare {v : Value} (bare : v.IsBare) : Made arguments (.ok v) :=
  fun part inside given => absurd given (bare part inside)

theorem made_bind {given : Except Fault α} {next : α → Except Fault Value}
    (failed : ∀ fault, given = .error fault → fault.IsBare)
    (made : ∀ a, given = .ok a → Made arguments (next a)) : Made arguments (given >>= next) := by
  cases given with
  | error fault => exact failed fault rfl
  | ok a => exact made a rfl

/-- A list is put together from the arguments if its items stand in them. -/
theorem made_list {items : List Value}
    (inside : ∀ item ∈ items, ∃ w ∈ arguments, item.Subtree w) :
    Made arguments (.ok (.list items)) := by
  intro part stands given
  cases stands with
  | refl => exact given.elim
  | item member stands =>
    obtain ⟨w, argument, whole⟩ := inside _ member
    exact ⟨w, argument, stands.trans whole⟩

theorem isBare_nil : Value.IsBare .nil := by
  rintro part ⟨⟩ given
  exact given

theorem isBare_boolean (b : Bool) : Value.IsBare (.boolean b) := by
  rintro part ⟨⟩ given
  exact given

theorem isBare_integer (n : Int64) : Value.IsBare (.integer n) := by
  rintro part ⟨⟩ given
  exact given

theorem isBare_number (x : Number) : x.toValue.IsBare := by
  cases x with
  | integer n => exact isBare_integer n
  | float x =>
    rintro part ⟨⟩ given
    exact given

/-! ### Examining arguments -/

theorem items_eq_ok {v : Value} {elements : List Value} (found : items v = .ok elements) :
    v = .list elements := by
  cases v with
  | list _ =>
    cases found
    rfl
  | _ => cases found

theorem items_eq_error {v : Value} {fault : Fault} (failed : items v = .error fault) :
    fault = .typeMismatch .list := by
  cases v with
  | list _ => cases failed
  | _ =>
    cases failed
    rfl

theorem numbers_eq_error {fault : Fault} (failed : numbers arguments = .error fault) :
    fault = .typeMismatch .number := by
  induction arguments with
  | nil => cases failed
  | cons v rest ih =>
    unfold numbers at failed
    split at failed
    next =>
      cases failed
      rfl
    next =>
      split at failed
      next => cases failed
      next _ others =>
        cases failed
        exact ih others

theorem isBare_of_items {v : Value} (fault : Fault) (failed : items v = .error fault) :
    fault.IsBare := by
  rw [items_eq_error failed]
  exact nofun

theorem isBare_of_numbers (fault : Fault) (failed : numbers arguments = .error fault) :
    fault.IsBare := by
  rw [numbers_eq_error failed]
  exact nofun

/-- Lists that are appended have their items in the arguments. -/
theorem appended_parts :
    (∀ elements, appended arguments = .ok elements →
      ∀ element ∈ elements, ∃ w ∈ arguments, element.Subtree w) ∧
    ∀ fault, appended arguments = .error fault → fault = .typeMismatch .list := by
  induction arguments with
  | nil =>
    constructor
    · rintro _ ⟨⟩ element member
      cases member
    · rintro _ ⟨⟩
  | cons v rest ih =>
    unfold appended
    cases first : items v with
    | error other =>
      constructor
      · rintro _ ⟨⟩
      · rintro _ ⟨⟩
        exact items_eq_error first
    | ok firsts =>
      obtain rfl := items_eq_ok first
      cases others : appended rest with
      | error other =>
        constructor
        · rintro _ ⟨⟩
        · rintro _ ⟨⟩
          exact ih.2 other others
      | ok lasts =>
        constructor
        · rintro _ ⟨⟩ element member
          rcases List.mem_append.mp member with member | member
          · exact ⟨_, by simp, .item member (.refl element)⟩
          · obtain ⟨w, argument, inside⟩ := ih.1 lasts others element member
            exact ⟨w, List.mem_cons_of_mem _ argument, inside⟩
        · rintro _ ⟨⟩

/-! ### Answers -/

theorem made_fold (combination : List Number → Number) :
    Made arguments (fold combination arguments) :=
  made_bind isBare_of_numbers fun _ _ => made_of_isBare (isBare_number _)

theorem made_onTwo {p : Primitive} {operation : Number → Number → Except Fault Value}
    (made : ∀ x y, Made arguments (operation x y)) :
    Made arguments (onTwo p operation arguments) := by
  refine made_bind isBare_of_numbers fun xs _ => ?_
  split
  · exact made _ _
  · exact nofun

theorem made_quotientOf (x y : Number) : Made arguments (quotientOf x y) := by
  unfold quotientOf
  split
  · exact made_of_isBare (isBare_number _)
  · exact nofun

theorem made_compareOf (ways : List Ordering) (x y : Number) :
    Made arguments (compareOf ways x y) :=
  made_of_isBare (isBare_boolean _)

/-- Whatever a primitive answers is put together from its arguments. -/
theorem made_result (p : Primitive) (arguments : List Value) :
    Made arguments (p.result arguments) := by
  cases p with
  -- Numbers and booleans have no parts that were given.
  | sum | product => exact made_fold _
  | difference => exact made_onTwo fun _ _ => made_of_isBare (isBare_number _)
  | quotient => exact made_onTwo made_quotientOf
  | greater | greaterOrEqual | less | lessOrEqual => exact made_onTwo (made_compareOf _)
  | equal | doubleEqual | isList | isNull | isSymbol | isNumber | isProcedure | not =>
    simp only [result]
    split
    · exact made_of_isBare (isBare_boolean _)
    · exact nofun
  | length =>
    simp only [result]
    split
    · exact made_bind isBare_of_items fun _ _ => made_of_isBare (isBare_integer _)
    · exact nofun
  | cons =>
    -- The first item is an argument, the others stand in one.
    simp only [result]
    split
    next v tail =>
      refine made_bind isBare_of_items fun elements found => made_list fun item member => ?_
      obtain rfl := items_eq_ok found
      rcases List.mem_cons.mp member with rfl | member
      · exact ⟨item, by simp, .refl item⟩
      · exact ⟨_, by simp, .item member (.refl item)⟩
    next => exact nofun
  | car =>
    simp only [result]
    split
    next v =>
      refine made_bind isBare_of_items fun elements found => ?_
      obtain rfl := items_eq_ok found
      cases elements with
      | nil => exact made_of_isBare isBare_nil
      | cons first rest =>
        intro part inside given
        exact ⟨.list (first :: rest), by simp, .item List.mem_cons_self inside⟩
    next => exact nofun
  | cdr =>
    simp only [result]
    split
    next v =>
      refine made_bind isBare_of_items fun elements found => made_list fun item member => ?_
      obtain rfl := items_eq_ok found
      exact ⟨_, by simp, .item (List.mem_of_mem_tail member) (.refl item)⟩
    next => exact nofun
  -- Lists hold what stood in lists.
  | append =>
    refine made_bind (fun fault failed => ?_) fun elements found =>
      made_list (appended_parts.1 elements found)
    rw [appended_parts.2 fault failed]
    exact nofun
  | list => exact made_list fun item member => ⟨item, member, .refl item⟩
  | display =>
    simp only [result]
    split
    · exact made_of_isBare isBare_nil
    · exact nofun
  | quit =>
    simp only [result]
    split <;> exact nofun

/-- The fault of a primitive carries no value. -/
theorem isBare_of_error {p : Primitive} {fault : Fault}
    (answer : p.result arguments = .error fault) : fault.IsBare := by
  have made := p.made_result arguments
  rwa [answer] at made

/-! ### Faults -/

/-- The faults that a primitive may raise. Only `quit` asks to leave, and a primitive that is blamed
for arguments without a case is the one that was called. -/
inductive Raises (p : Primitive) : Fault → Prop where
  | typeMismatch (expected : Expectation) : Raises p (.typeMismatch expected)
  | divisionByZero : Raises p .divisionByZero
  | exit (code : Int32) (leaves : p = .quit) : Raises p (.exit code)
  | noCase : Raises p (.noCase p)

/-- Whatever fault there is, the primitive may raise it. -/
def Raising (p : Primitive) (given : Except Fault α) : Prop :=
  ∀ fault, given = .error fault → p.Raises fault

variable {p : Primitive}

theorem raising_ok (a : α) : p.Raising (.ok a) := nofun

theorem raising_noCase : p.Raising (.error (.noCase p) : Except Fault α) := by
  rintro _ ⟨⟩
  exact .noCase

theorem raising_bind {given : Except Fault α} {next : α → Except Fault Value}
    (first : p.Raising given) (rest : ∀ a, p.Raising (next a)) : p.Raising (given >>= next) := by
  intro fault failed
  cases given with
  | error other =>
    cases failed
    exact first fault rfl
  | ok a => exact rest a fault failed

theorem raising_items (v : Value) : p.Raising (items v) := by
  intro fault failed
  rw [items_eq_error failed]
  exact .typeMismatch .list

theorem raising_numbers (arguments : List Value) : p.Raising (numbers arguments) := by
  intro fault failed
  rw [numbers_eq_error failed]
  exact .typeMismatch .number

theorem raising_onTwo {operation : Number → Number → Except Fault Value}
    (rest : ∀ x y, p.Raising (operation x y)) : p.Raising (onTwo p operation arguments) := by
  refine raising_bind (raising_numbers arguments) fun xs => ?_
  split
  · exact rest _ _
  · exact raising_noCase

theorem raising_result (p : Primitive) (arguments : List Value) :
    p.Raising (p.result arguments) := by
  cases p with
  | sum | product => exact raising_bind (raising_numbers arguments) fun _ => raising_ok _
  | difference | greater | greaterOrEqual | less | lessOrEqual =>
    exact raising_onTwo fun _ _ => raising_ok _
  | quotient =>
    refine raising_onTwo fun x y => ?_
    unfold quotientOf
    split
    · exact raising_ok _
    · rintro _ ⟨⟩
      exact .divisionByZero
  | equal | doubleEqual | isList | isNull | isSymbol | isNumber | isProcedure | not | display =>
    simp only [result]
    split
    · exact raising_ok _
    · exact raising_noCase
  | length | cons | car | cdr =>
    simp only [result]
    split
    · exact raising_bind (raising_items _) fun _ => raising_ok _
    · exact raising_noCase
  | append =>
    refine raising_bind (fun fault failed => ?_) fun _ => raising_ok _
    rw [appended_parts.2 fault failed]
    exact .typeMismatch .list
  | list => exact raising_ok _
  | quit =>
    simp only [result]
    split
    · rintro _ ⟨⟩
      exact .exit 0 rfl
    · rintro _ ⟨⟩
      exact .exit _ rfl
    · rintro _ ⟨⟩
      exact .typeMismatch .integer
    · exact raising_noCase

theorem displayed_of_ne {p : Primitive} (other : p ≠ .display) (arguments : List Value) :
    p.displayed arguments = "" := by
  cases p with
  | display => exact absurd rfl other
  | _ => rfl

end Primitive

end MiniLisp
