import Mathlib.Data.List.Basic
import MiniLisp.Token

/-!
# Balance of brackets

The balance of a row of tokens is the number of opening brackets in it less the number of closing
ones. A row is balanced if its balance is zero at its end and positive before. In a row that goes
on behind a balanced one, that one is the shortest prefix in which the brackets balance.
-/
namespace MiniLisp.Token

/-- The number of opening brackets less the number of closing ones. -/
def balance (tokens : List Token) : Int :=
  (tokens.count .opening : Int) - tokens.count .closing

@[simp] theorem balance_nil : balance [] = 0 := rfl

@[simp] theorem balance_opening (rest : List Token) :
    balance (.opening :: rest) = 1 + balance rest := by
  have other : (opening :: rest).count closing = rest.count closing :=
    List.count_cons_of_ne (by decide)
  rw [balance, List.count_cons_self, other, balance]
  omega

@[simp] theorem balance_closing (rest : List Token) :
    balance (.closing :: rest) = -1 + balance rest := by
  have other : (closing :: rest).count opening = rest.count opening :=
    List.count_cons_of_ne (by decide)
  rw [balance, List.count_cons_self, other, balance]
  omega

@[simp] theorem balance_atom (text : String) (rest : List Token) :
    balance (.atom text :: rest) = balance rest := by
  simp [balance]

@[simp] theorem balance_append (front rest : List Token) :
    balance (front ++ rest) = balance front + balance rest := by
  simp only [balance, List.count_append]
  omega

/-- The brackets balance in the whole row, and before its end more of them are open than closed. -/
structure IsBalanced (tokens : List Token) : Prop where
  whole : balance tokens = 0
  inside : ∀ front behind, tokens = front ++ behind → front ≠ [] → behind ≠ [] → 0 < balance front

/-- The shortest prefix, apart from the empty one, in which the brackets balance. -/
structure IsShortestBalanced (front tokens : List Token) : Prop where
  starts : front <+: tokens
  nonempty : front ≠ []
  balanced : balance front = 0
  shortest : ∀ other, other <+: tokens → other ≠ [] → balance other = 0 →
    front.length ≤ other.length

/-- There is no token, or a bracket is opened first and more are open than closed at all times. -/
def IsUnfinished (tokens : List Token) : Prop :=
  tokens = [] ∨
    tokens.head? = some .opening ∧ ∀ front, front <+: tokens → front ≠ [] → 0 < balance front

theorem IsBalanced.isShortestBalanced {front : List Token} (is : IsBalanced front)
    (nonempty : front ≠ []) (rest : List Token) : IsShortestBalanced front (front ++ rest) where
  starts := List.prefix_append front rest
  nonempty := nonempty
  balanced := is.whole
  shortest := by
    intro other starts someTokens balanced
    by_contra shorter
    -- A shorter prefix lies inside the front.
    obtain ⟨behind, split⟩ := List.prefix_of_prefix_length_le starts
      (List.prefix_append front rest) (by omega)
    have more : behind ≠ [] := by
      rintro rfl
      simp [← split] at shorter
    have opens := is.inside other behind split.symm someTokens more
    omega

/-- A row of balanced rows has, at no place, more brackets closed than opened. -/
theorem balance_nonneg {rows : List (List Token)} (balanced : ∀ row ∈ rows, IsBalanced row)
    {front behind : List Token} (split : rows.flatten = front ++ behind) : 0 ≤ balance front := by
  induction rows generalizing front with
  | nil =>
    obtain ⟨rfl, _⟩ := List.append_eq_nil_iff.mp split.symm
    exact Int.le_refl 0
  | cons row others ih =>
    have first := balanced row (by simp)
    have later : ∀ row ∈ others, IsBalanced row :=
      fun row member => balanced row (List.mem_cons_of_mem _ member)
    rw [List.flatten_cons] at split
    -- The place lies behind the first row or within it.
    rcases List.append_eq_append_iff.mp split with ⟨more, rfl, rest⟩ | ⟨left, rfl, _⟩
    · have nonneg := ih later rest
      rw [balance_append, first.whole]
      omega
    · by_cases none : front = []
      · simp [none]
      by_cases done : left = []
      · have whole := first.whole
        rw [done, List.append_nil] at whole
        omega
      · exact Int.le_of_lt (first.inside front left rfl none done)

theorem balance_flatten {rows : List (List Token)} (balanced : ∀ row ∈ rows, IsBalanced row) :
    balance rows.flatten = 0 := by
  induction rows with
  | nil => rfl
  | cons row others ih =>
    rw [List.flatten_cons, balance_append, (balanced row (by simp)).whole,
      ih fun row member => balanced row (List.mem_cons_of_mem _ member)]
    rfl

/-- Every prefix of a row is empty or begins with the first token of the row. -/
theorem forall_starts_cons {token : Token} {tokens : List Token} {P : List Token → Prop} :
    (∀ front, front <+: token :: tokens → P front) ↔
      P [] ∧ ∀ front, front <+: tokens → P (token :: front) := by
  constructor
  · refine fun all => ⟨all [] List.nil_prefix, fun front starts => ?_⟩
    exact all _ (List.cons_prefix_cons.mpr ⟨rfl, starts⟩)
  · rintro ⟨empty, others⟩ front starts
    rcases List.prefix_cons_iff.mp starts with rfl | ⟨later, rfl, inside⟩
    · exact empty
    · exact others later inside

end MiniLisp.Token
