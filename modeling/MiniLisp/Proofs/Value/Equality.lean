import MiniLisp.Proofs.Number.Comparison
import MiniLisp.Proofs.Value.Subtree

/-!
# Equality and trees

A program that compares two values gets to know whether they are the same tree, as long as no float
stands in them: the numbers at the top are then integers, and integers are equal in both of the ways
in which numbers are compared. Two closures are the same if they have one serial number, and two
primitives if they are one, so procedures are compared as objects. Floats take part in one law only:
it makes no difference which of two values comes first.
-/
namespace MiniLisp

/-! ### The order of the two values -/

/-- Floats are equal when they are in one place. -/
theorem Binary64.compare?_eq_iff {x y : Binary64} :
    x.compare? y = some .eq ↔ ∃ place, x.position? = some place ∧ y.position? = some place := by
  cases left : x.position? <;> cases right : y.position? <;>
    simp [compare?, left, right, @eq_comm ℤ]

theorem Binary64.compare?_eq_comm {x y : Binary64} :
    x.compare? y = some .eq ↔ y.compare? x = some .eq := by
  simp only [compare?_eq_iff, and_comm]

theorem Number.compare?_eq_comm {x y : Number} :
    x.compare? y = some .eq ↔ y.compare? x = some .eq := by
  cases x <;> cases y
  case integer.integer m n => simp [compare?, @eq_comm ℤ]
  all_goals exact Binary64.compare?_eq_comm

namespace Value

mutual

theorem sameStructure_comm (a b : Value) : a.sameStructure b = b.sameStructure a := by
  cases a with
  | list items =>
    cases b with
    | list others => exact sameStructures_comm items others
    | _ => rfl
  | float x =>
    cases b with
    | float y => simp [sameStructure, sameFloat, @Binary64.compare?_eq_comm x y]
    | _ => rfl
  | _ => cases b <;> simp [sameStructure, eq_comm]

theorem sameStructures_comm (items others : List Value) :
    sameStructures items others = sameStructures others items := by
  match items, others with
  | [], [] => rfl
  | [], _ :: _ => rfl
  | _ :: _, [] => rfl
  | a :: items, b :: others =>
    simp only [sameStructures, sameStructure_comm a b, sameStructures_comm items others]

end

theorem equal_comm (a b : Value) : a.equal b = b.equal a := by
  cases first : a.number? with
  | none => cases b.number? <;> simp [equal, first, sameStructure_comm a b]
  | some x =>
    cases second : b.number? with
    | none => simp [equal, first, second, sameStructure_comm a b]
    | some y => simp [equal, first, second, @Number.compare?_eq_comm x y]

/-! ### Trees without floats -/

/-- No float stands in the value. What stands in the body of a closure does not count. -/
def IsExact (v : Value) : Prop := ∀ x, ¬ Subtree (.float x) v

namespace IsExact

variable {v : Value} {items : List Value}

theorem item (noFloat : (list items).IsExact) (member : v ∈ items) : v.IsExact :=
  fun x inside => noFloat x (.item member inside)

theorem empty : (list []).IsExact := by
  rintro x (_ | ⟨member, _⟩)
  cases member

theorem cons (first : v.IsExact) (others : (list items).IsExact) :
    (list (v :: items)).IsExact := by
  rintro x (_ | ⟨member, inside⟩)
  rcases List.mem_cons.mp member with rfl | later
  · exact first x inside
  · exact others x (.item later inside)

end IsExact

/-- The two values are one tree: they have the same constructors with the same data, and lists have
one length and the same elements. Procedures are the same if they are one object, which is known of
a closure by its serial number. -/
inductive Same : Value → Value → Prop where
  | nil : Same .nil .nil
  | boolean (b : Bool) : Same (.boolean b) (.boolean b)
  | integer (n : Int64) : Same (.integer n) (.integer n)
  | symbol (name : String) : Same (.symbol name) (.symbol name)
  | list {items others : List Value} (length : items.length = others.length)
    (elements : ∀ (i : Nat) (a b : Value), items[i]? = some a → others[i]? = some b → Same a b) :
    Same (.list items) (.list others)
  | primitive (p : Primitive) : Same (.primitive p) (.primitive p)
  | closure (serial : Nat) {parameters parameters' : List String} {body body' : Value}
    {scope scope' : ScopeId} :
    Same (.closure serial parameters body scope) (.closure serial parameters' body' scope')

namespace Same

variable {a b c : Value} {items others : List Value}

theorem list_cons :
    Same (.list (a :: items)) (.list (b :: others)) ↔
      a.Same b ∧ Same (.list items) (.list others) := by
  constructor
  · rintro (_ | _ | _ | _ | ⟨length, elements⟩)
    refine ⟨elements 0 a b rfl rfl, .list (Nat.succ.inj length) fun i a b => ?_⟩
    exact elements (i + 1) a b
  · rintro ⟨first, _ | _ | _ | _ | ⟨length, elements⟩⟩
    refine .list (congrArg Nat.succ length) fun i u v found found' => ?_
    cases i with
    | zero =>
      cases found
      cases found'
      exact first
    | succ i => exact elements i u v found found'

theorem symm (same : a.Same b) : b.Same a := by
  induction same with
  | list length _ ih => exact .list length.symm fun i a b found found' => ih i b a found' found
  | closure serial => exact .closure serial
  | _ => constructor

theorem trans (first : a.Same b) (second : b.Same c) : a.Same c := by
  induction first generalizing c with
  | @list items others length _ ih =>
    cases second with
    | @list _ last length' elements =>
      refine .list (length.trans length') fun i u w found found' => ?_
      -- The list between has an element at that place as well.
      have inside : i < others.length := length ▸ (List.getElem?_eq_some_iff.mp found).1
      have middle := List.getElem?_eq_getElem inside
      exact ih i u _ found middle (elements i _ w middle found')
  | closure serial =>
    cases second
    exact .closure serial
  | _ => exact second

end Same

mutual

theorem Same.refl (a : Value) (noFloat : a.IsExact) : a.Same a := by
  match a with
  | .float x => exact absurd (.refl _) (noFloat x)
  | .list items => exact Same.list_refl items fun v member => noFloat.item member
  | .nil | .boolean _ | .integer _ | .symbol _ | .primitive _ | .closure _ _ _ _ => constructor

theorem Same.list_refl (items : List Value) (noFloat : ∀ v ∈ items, v.IsExact) :
    Same (.list items) (.list items) := by
  match items with
  | [] => exact .list rfl (by simp)
  | a :: items =>
    have first := Same.refl a (noFloat a List.mem_cons_self)
    exact Same.list_cons.mpr ⟨first, Same.list_refl items fun v member =>
      noFloat v (List.mem_cons_of_mem _ member)⟩

end

theorem Same.equivalence : Equivalence fun a b : { v : Value // v.IsExact } => a.val.Same b.val :=
  ⟨fun a => .refl a a.2, Same.symm, Same.trans⟩

mutual

theorem sameStructure_iff (a b : Value) (noFloat : a.IsExact) :
    a.sameStructure b = true ↔ a.Same b := by
  cases a with
  | float x => exact absurd (.refl _) (noFloat x)
  | list items =>
    cases b with
    | list others => exact sameStructures_iff items others fun v member => noFloat.item member
    | _ => exact iff_of_false nofun nofun
  | nil =>
    cases b with
    | nil => exact iff_of_true rfl .nil
    | _ => exact iff_of_false nofun nofun
  | boolean _ | integer _ | symbol _ | primitive _ | closure _ _ _ _ =>
    refine ⟨fun alike => ?_, fun same => ?_⟩
    · cases b <;> simp only [sameStructure, decide_eq_true_eq, reduceCtorEq] at alike
      subst alike
      constructor
    · cases same
      exact decide_eq_true rfl

theorem sameStructures_iff (items others : List Value) (noFloat : ∀ v ∈ items, v.IsExact) :
    sameStructures items others = true ↔ Same (.list items) (.list others) := by
  match items, others with
  | [], [] => exact iff_of_true rfl (.list rfl (by simp))
  | [], _ :: _ => exact iff_of_false nofun nofun
  | _ :: _, [] => exact iff_of_false nofun nofun
  | a :: items, b :: others =>
    rw [sameStructures, Bool.and_eq_true, Same.list_cons,
      sameStructure_iff a b (noFloat a List.mem_cons_self),
      sameStructures_iff items others fun v member => noFloat v (List.mem_cons_of_mem _ member)]

end

/-! ### The equality of a program -/

variable {a b : Value}

/-- No two integers are equal as numbers but equal ones. -/
theorem equal_eq_sameStructure (left : a.IsExact) (right : b.IsExact) :
    a.equal b = a.sameStructure b := by
  cases a with
  | integer m =>
    cases b with
    | integer n => simp [equal, number?, Number.compare?, sameStructure, Int64.toInt_inj]
    | float y => exact absurd (.refl _) (right y)
    | _ => rfl
  | float x => exact absurd (.refl _) (left x)
  | _ => rfl

theorem equal_iff_same (left : a.IsExact) (right : b.IsExact) : a.equal b = true ↔ a.Same b := by
  rw [equal_eq_sameStructure left right, sameStructure_iff a b left]

theorem equal_closure (serial serial' : Nat) (parameters parameters' : List String)
    (body body' : Value) (scope scope' : ScopeId) :
    (closure serial parameters body scope).equal (closure serial' parameters' body' scope') =
      decide (serial = serial') :=
  rfl

end Value

namespace Primitive

open Value

variable {p : Primitive} {a b : Value}

/-- The primitive is one of the two spellings of equality. -/
def IsEquality (p : Primitive) : Prop := p = .equal ∨ p = .doubleEqual

theorem IsEquality.result_eq (is : p.IsEquality) (a b : Value) :
    p.result [a, b] = .ok (.boolean (a.equal b)) := by
  rcases is with rfl | rfl <;> rfl

theorem IsEquality.holds_iff (is : p.IsEquality) : p.Holds a b ↔ a.equal b = true := by
  rw [Holds, is.result_eq]
  simp

theorem IsEquality.holds_iff_same (is : p.IsEquality) (left : a.IsExact) (right : b.IsExact) :
    p.Holds a b ↔ a.Same b :=
  is.holds_iff.trans (equal_iff_same left right)

/-- The laws of a primitive that tells whether values are the same. Only the first two are about
values with floats. -/
structure EqualityLaws (p : Primitive) : Prop where
  answers (a b : Value) : p.Holds a b ∨ p.result [a, b] = .ok (.boolean false)
  symmetric (a b : Value) : p.result [a, b] = p.result [b, a]
  same_tree {a b : Value} (left : a.IsExact) (right : b.IsExact) : p.Holds a b ↔ a.Same b
  equivalence : Equivalence fun a b : { v : Value // v.IsExact } => p.Holds a b
  /-- Lists are compared element by element from the front. -/
  cons {a b : Value} {items others : List Value} (left : a.IsExact) (right : b.IsExact)
    (rest : (Value.list items).IsExact) (rest' : (Value.list others).IsExact) :
    ∃ c d, Primitive.cons.result [a, .list items] = .ok c ∧
      Primitive.cons.result [b, .list others] = .ok d ∧
      (p.Holds c d ↔ p.Holds a b ∧ p.Holds (.list items) (.list others))

theorem IsEquality.equalityLaws (is : p.IsEquality) : p.EqualityLaws where
  answers a b := by
    rw [is.holds_iff, is.result_eq]
    cases a.equal b <;> simp
  symmetric a b := by rw [is.result_eq, is.result_eq, equal_comm]
  same_tree := is.holds_iff_same
  equivalence := by
    have same : (fun a b : { v : Value // v.IsExact } => p.Holds a b) =
        fun a b => a.val.Same b.val :=
      funext fun a => funext fun b => propext (is.holds_iff_same a.2 b.2)
    rw [same]
    exact Same.equivalence
  cons left right rest rest' := by
    refine ⟨_, _, rfl, rfl, ?_⟩
    rw [is.holds_iff_same (left.cons rest) (right.cons rest'), is.holds_iff_same left right,
      is.holds_iff_same rest rest', Same.list_cons]

end Primitive

end MiniLisp
