import MiniLisp.Proofs.Form.Tree
import MiniLisp.Proofs.Token.Balance
import MiniLisp.Session

/-!
# Where a form ends

A form ends where its brackets first balance. Reading a token list therefore has three ends: a
closing bracket comes first, or the tokens are over while more brackets are open than closed, or
the shortest prefix in which the brackets balance is read, and that prefix spells the value that is
returned and no other. What lies behind the prefix is counted and otherwise not looked at.
-/
namespace MiniLisp

open Token

namespace Form

/-! ### Spellings are balanced -/

theorem Spells.ne_nil {v : Value} {tokens : List Token} (spelled : Spells v tokens) :
    tokens ≠ [] := by
  cases spelled with
  | atom text => simp
  | list _ => simp

theorem Spells.isBalanced {v : Value} {tokens : List Token} (spelled : Spells v tokens) :
    IsBalanced tokens := by
  induction spelled with
  | atom text =>
    refine ⟨rfl, ?_⟩
    intro front behind split someTokens more
    -- One token has no two parts.
    have length := congrArg List.length split
    have front_pos := List.length_pos_iff.mpr someTokens
    have behind_pos := List.length_pos_iff.mpr more
    rw [List.length_singleton, List.length_append] at length
    omega
  | @list parts _ ih =>
    have rows : ∀ row ∈ parts.map Prod.snd, IsBalanced row := by
      intro row member
      obtain ⟨part, inside, rfl⟩ := List.mem_map.mp member
      exact ih part inside
    have joined : parts.flatMap Prod.snd = (parts.map Prod.snd).flatten := rfl
    constructor
    · rw [joined]
      simp [balance_flatten rows]
    · intro front behind split someTokens more
      obtain ⟨first, others, rfl⟩ := List.exists_cons_of_ne_nil someTokens
      obtain ⟨rfl, split⟩ := List.cons_eq_cons.mp split
      -- The closing bracket is behind, so what follows the opening one lies in the elements.
      obtain ⟨init, last, rfl⟩ := (List.eq_nil_or_concat' behind).resolve_left more
      have ends : (parts.map Prod.snd).flatten ++ [.closing] = (others ++ init) ++ [last] := by
        rw [← joined, List.append_assoc]
        exact List.tail_eq_of_cons_eq split
      have nonneg := balance_nonneg rows (List.append_inj_left' ends rfl)
      rw [balance_opening]
      omega

/-! ### What is read is spelled by what was consumed -/

/-- The tokens that have opened some lists and given them their elements so far, each element with
its spelling. The innermost list comes first, and the last element of a list. -/
def openTokens : List (List (Value × List Token)) → List Token
  | [] => []
  | parts :: outer => openTokens outer ++ .opening :: parts.reverse.flatMap Prod.snd

/-- The lists without the spellings of their elements. -/
def openItems (lists : List (List (Value × List Token))) : List (List Value) :=
  lists.map fun parts => parts.map Prod.fst

/-- Every element of the lists is spelled by the tokens that stand with it. -/
def AllSpelled (lists : List (List (Value × List Token))) : Prop :=
  ∀ parts ∈ lists, ∀ part ∈ parts, Spells part.1 part.2

theorem allSpelled_cons {parts : List (Value × List Token)}
    {lists : List (List (Value × List Token))} :
    AllSpelled (parts :: lists) ↔ (∀ part ∈ parts, Spells part.1 part.2) ∧ AllSpelled lists := by
  simp [AllSpelled]

theorem spells_resume {lists : List (List (Value × List Token))} {tokens rest spelling : List Token}
    {form v : Value} (all : AllSpelled lists) (spelled : Spells form spelling)
    (onward : ∀ {lists}, AllSpelled lists → readFrom (openItems lists) tokens = .ok (v, rest) →
      ∃ front, tokens = front ++ rest ∧ Spells v (openTokens lists ++ front))
    (read : resume form tokens (openItems lists) = .ok (v, rest)) :
    ∃ front, tokens = front ++ rest ∧ Spells v (openTokens lists ++ spelling ++ front) := by
  cases lists with
  | nil =>
    cases read
    exact ⟨[], rfl, by simpa [openTokens] using spelled⟩
  | cons parts outer =>
    -- The form becomes the last element of the innermost list.
    obtain ⟨elements, others⟩ := allSpelled_cons.mp all
    have longer : AllSpelled (((form, spelling) :: parts) :: outer) := by
      refine allSpelled_cons.mpr ⟨?_, others⟩
      intro part member
      rcases List.mem_cons.mp member with rfl | member
      · exact spelled
      · exact elements part member
    obtain ⟨front, split, whole⟩ := onward longer read
    exact ⟨front, split, by simpa [openTokens] using whole⟩

/-- What is read with some lists open is spelled by the tokens of those lists and those that were
consumed since. -/
theorem spells_readFrom {lists : List (List (Value × List Token))} {tokens rest : List Token}
    {v : Value} (all : AllSpelled lists)
    (read : readFrom (openItems lists) tokens = .ok (v, rest)) :
    ∃ front, tokens = front ++ rest ∧ Spells v (openTokens lists ++ front) := by
  -- By induction on the tokens, whatever lists are open.
  induction tokens generalizing lists with
  | nil => cases lists <;> cases read
  | cons token tokens ih =>
    cases token with
    | opening =>
      rw [readFrom_opening] at read
      have longer : AllSpelled ([] :: lists) := allSpelled_cons.mpr ⟨by simp, all⟩
      obtain ⟨front, split, whole⟩ := ih longer read
      exact ⟨.opening :: front, by simp [split], by simpa [openTokens] using whole⟩
    | closing =>
      cases lists with
      | nil => cases read
      | cons parts outer =>
        obtain ⟨elements, others⟩ := allSpelled_cons.mp all
        have list : Spells (.list (parts.map Prod.fst).reverse)
            (.opening :: (parts.reverse.flatMap Prod.snd ++ [.closing])) := by
          rw [← List.map_reverse]
          exact .list fun part member => elements part (List.mem_reverse.mp member)
        have closed : resume (.list (parts.map Prod.fst).reverse) tokens (openItems outer) =
            .ok (v, rest) := (readFrom_closing _ _ _).symm.trans read
        obtain ⟨front, split, whole⟩ := spells_resume others list ih closed
        exact ⟨.closing :: front, by simp [split], by simpa [openTokens] using whole⟩
    | atom text =>
      rw [readFrom_atom] at read
      obtain ⟨front, split, whole⟩ := spells_resume all (.atom text) ih read
      exact ⟨.atom text :: front, by simp [split], by simpa using whole⟩

/-- A form is read if and only if its spelling stands in front. -/
theorem ofTokens_eq_ok_iff {tokens rest : List Token} {v : Value} :
    ofTokens tokens = .ok (v, rest) ↔ ∃ front, Spells v front ∧ tokens = front ++ rest := by
  constructor
  · intro read
    have none : AllSpelled [] := by simp [AllSpelled]
    obtain ⟨front, split, spelled⟩ := spells_readFrom none read
    exact ⟨front, spelled, split⟩
  · rintro ⟨front, spelled, rfl⟩
    exact readFrom_spelling spelled [] rest

/-- Tokens spell one value at most. -/
theorem Spells.unique {v w : Value} {tokens : List Token} (spelled : Spells v tokens)
    (spelled' : Spells w tokens) : v = w := by
  have read := readFrom_spelling spelled [] []
  rw [readFrom_spelling spelled' [] []] at read
  cases read
  rfl

/-! ### The two ways to fail -/

/-- A bracket that is closed while a list is open closes that list. -/
theorem readFrom_ne_unexpectedClose (items : List Value) (stack : List (List Value))
    (tokens : List Token) : readFrom (items :: stack) tokens ≠ .error .unexpectedClose := by
  induction tokens generalizing items stack with
  | nil => nofun
  | cons token tokens ih =>
    cases token with
    | opening => exact ih [] (items :: stack)
    | closing =>
      rw [readFrom_closing]
      cases stack with
      | nil => nofun
      | cons outer stack => exact ih _ stack
    | atom text => exact ih _ stack

/-- The tokens are over too early if at no time as many brackets have been closed as were open at
first and have been opened since. -/
theorem readFrom_unexpectedEnd_iff {items : List Value} {stack : List (List Value)}
    {tokens : List Token} : readFrom (items :: stack) tokens = .error .unexpectedEnd ↔
      ∀ front, front <+: tokens → 0 < (stack.length : Int) + 1 + balance front := by
  induction tokens generalizing items stack with
  | nil =>
    simp only [List.prefix_nil, forall_eq, balance_nil]
    exact ⟨fun _ => by omega, fun _ => rfl⟩
  | cons token tokens ih =>
    rw [forall_starts_cons, balance_nil]
    cases token with
    | opening =>
      rw [readFrom_opening, ih]
      simp only [balance_opening, List.length_cons]
      constructor
      · refine fun later => ⟨by omega, fun front starts => ?_⟩
        have opens := later front starts
        omega
      · rintro ⟨_, later⟩ front starts
        have opens := later front starts
        omega
    | closing =>
      rw [readFrom_closing]
      cases stack with
      | nil =>
        -- The last list that was open is closed.
        refine ⟨nofun, fun ⟨_, later⟩ => ?_⟩
        have opens := later [] List.nil_prefix
        simp at opens
      | cons outer stack =>
        rw [resume, ih]
        simp only [balance_closing, List.length_cons]
        constructor
        · refine fun later => ⟨by omega, fun front starts => ?_⟩
          have opens := later front starts
          omega
        · rintro ⟨_, later⟩ front starts
          have opens := later front starts
          omega
    | atom text =>
      rw [readFrom_atom, resume, ih]
      simp only [balance_atom]
      exact ⟨fun later => ⟨by omega, later⟩, And.right⟩

theorem ofTokens_unexpectedClose_iff {tokens : List Token} :
    ofTokens tokens = .error .unexpectedClose ↔ tokens.head? = some .closing := by
  match tokens with
  | [] => exact ⟨nofun, nofun⟩
  | .opening :: rest =>
    exact ⟨fun failed => absurd failed (readFrom_ne_unexpectedClose [] [] rest), nofun⟩
  | .closing :: _ => exact ⟨fun _ => rfl, fun _ => rfl⟩
  | .atom _ :: _ => exact ⟨nofun, nofun⟩

theorem ofTokens_unexpectedEnd_iff {tokens : List Token} :
    ofTokens tokens = .error .unexpectedEnd ↔ IsUnfinished tokens := by
  match tokens with
  | [] => exact ⟨fun _ => .inl rfl, fun _ => rfl⟩
  | .opening :: rest =>
    have opened : ofTokens (.opening :: rest) = readFrom [[]] rest := rfl
    rw [opened, readFrom_unexpectedEnd_iff, IsUnfinished]
    simp only [reduceCtorEq, List.head?_cons, true_and, false_or]
    rw [forall_starts_cons]
    simp
  | .closing :: _ => exact ⟨nofun, by simp [IsUnfinished]⟩
  | .atom _ :: _ => exact ⟨nofun, by simp [IsUnfinished]⟩

end Form

/-- Reading a line records the number of tokens behind the form, if there are any. -/
theorem Session.readLine_records {line : String} {v : Value} {ignored : Nat}
    (read : Form.read line = .ok (v, ignored)) (world : World) :
    ∃ trace, Session.readLine line world = some ⟨.ok v, world, trace⟩ ∧
      trace.toList = if ignored = 0 then [] else [.ignoredTokens ignored] := by
  unfold Session.readLine
  rw [read]
  cases ignored with
  | zero => exact ⟨_, rfl, rfl⟩
  | succ n => exact ⟨_, rfl, rfl⟩

open Form

/-- Reading a token list fails at a closing bracket if and only if one comes first, and at the end
of the tokens if and only if there are none or more brackets are open than closed at all times. In
all other cases the shortest prefix in which the brackets balance is consumed, the value that is
returned is the only one which that prefix spells, and all that is behind is left alone: whatever
it is, the same value is read, and a line that is so read records how many tokens are behind. -/
theorem reads_shortest_balanced (tokens : List Token) :
    (ofTokens tokens = .error .unexpectedClose ↔ tokens.head? = some .closing) ∧
    (ofTokens tokens = .error .unexpectedEnd ↔ IsUnfinished tokens) ∧
    (tokens.head? ≠ some .closing → ¬ IsUnfinished tokens →
      ∃ v front rest, ofTokens tokens = .ok (v, rest) ∧ tokens = front ++ rest ∧
        IsShortestBalanced front tokens ∧ (∀ w, Spells w front ↔ w = v) ∧
        (∀ others, ofTokens (front ++ others) = .ok (v, others)) ∧
        ∀ line others, Token.scan line = front ++ others →
          Form.read line = .ok (v, others.length) ∧
          ∀ world, ∃ trace, Session.readLine line world = some ⟨.ok v, world, trace⟩ ∧
            trace.toList = if others = [] then [] else [.ignoredTokens others.length]) := by
  refine ⟨ofTokens_unexpectedClose_iff, ofTokens_unexpectedEnd_iff, fun noClose finished => ?_⟩
  rw [Ne, ← ofTokens_unexpectedClose_iff] at noClose
  rw [← ofTokens_unexpectedEnd_iff] at finished
  match read : ofTokens tokens with
  | .error .unexpectedClose => exact absurd read noClose
  | .error .unexpectedEnd => exact absurd read finished
  | .ok (v, rest) =>
    obtain ⟨front, spelled, rfl⟩ := ofTokens_eq_ok_iff.mp read
    have all (others : List Token) : ofTokens (front ++ others) = .ok (v, others) :=
      ofTokens_eq_ok_iff.mpr ⟨front, spelled, rfl⟩
    refine ⟨v, front, rest, rfl, rfl, spelled.isBalanced.isShortestBalanced spelled.ne_nil rest,
      fun w => ⟨fun other => other.unique spelled, fun same => same ▸ spelled⟩, all, ?_⟩
    intro line others scanned
    have line_read : Form.read line = .ok (v, others.length) := by
      simp [Form.read, scanned, all]
    refine ⟨line_read, fun world => ?_⟩
    simpa using Session.readLine_records line_read world

/-- Behind a list with an empty list in it stand a bracket that closes nothing and an atom. -/
theorem reads_shortest_balanced_nested :
    let front : List Token := [.opening, .atom "a", .opening, .closing, .closing]
    let tokens := front ++ [.closing, .atom "b"]
    tokens.head? ≠ some .closing ∧ ¬ IsUnfinished tokens ∧
      ofTokens tokens = .ok (.list [.symbol "a", .list []], [.closing, .atom "b"]) ∧
      IsShortestBalanced front tokens ∧
      (∀ w, Spells w front ↔ w = .list [.symbol "a", .list []]) ∧
      Form.read "(a ())) b" = .ok (.list [.symbol "a", .list []], 2) := by
  intro front tokens
  have noClose : tokens.head? ≠ some .closing := by decide
  have finished : ¬ IsUnfinished tokens := by
    rintro (none | ⟨_, opens⟩)
    · exact List.cons_ne_nil _ _ none
    · have positive := opens front (List.prefix_append front _) (by decide)
      simp [front] at positive
  have read : ofTokens tokens = .ok (.list [.symbol "a", .list []], [.closing, .atom "b"]) := rfl
  obtain ⟨v, front', rest, found, split, shortest, unique, _, lines⟩ :=
    (reads_shortest_balanced tokens).2.2 noClose finished
  cases read.symm.trans found
  obtain rfl : front = front' := List.append_cancel_right split
  exact ⟨noClose, finished, read, shortest, unique, (lines "(a ())) b" _ rfl).1⟩

end MiniLisp
