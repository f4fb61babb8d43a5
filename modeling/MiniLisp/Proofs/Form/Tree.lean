import MiniLisp.Form
import MiniLisp.Proofs.Form.Atom

/-!
# Trees and their spelling

A tree is a value that can be read: integers, finite floats, names, and lists of trees. A name is
a word that is not read as a number. A tree is spelled by a row of tokens, an atom by one token
and a list by the spellings of its elements between brackets. Reading undoes spelling, with any
lists open and any tokens behind, and whatever is read from words is a tree.
-/
namespace MiniLisp

/-- The name of a symbol that can be read: a word that is not read as a number. -/
structure Form.IsName (name : String) : Prop extends Token.IsWord name where
  literal : (Form.ofAtom name).isNumber = false

/-- The values that can be read. -/
inductive Value.IsTree : Value → Prop where
  | integer (n : Int64) : IsTree (.integer n)
  | float {x : Binary64} (finite : x.isFinite = true) : IsTree (.float x)
  | symbol {name : String} (named : Form.IsName name) : IsTree (.symbol name)
  | list {items : List Value} (trees : ∀ v ∈ items, IsTree v) : IsTree (.list items)

namespace Form

/-- The value is spelled by the tokens. -/
inductive Spells : Value → List Token → Prop where
  | atom (text : String) : Spells (ofAtom text) [.atom text]
  | list {parts : List (Value × List Token)} (spelled : ∀ part ∈ parts, Spells part.1 part.2) :
    Spells (.list (parts.map Prod.fst))
      (.opening :: (parts.flatMap Prod.snd ++ [.closing]))

/-- Goes on reading when a form has just been read with the given lists open. -/
def resume (v : Value) (rest : List Token) :
    List (List Value) → Except SyntaxFault (Value × List Token)
  | [] => .ok (v, rest)
  | items :: stack => readFrom ((v :: items) :: stack) rest

theorem readFrom_atom (stack : List (List Value)) (text : String) (rest : List Token) :
    readFrom stack (.atom text :: rest) = resume (ofAtom text) rest stack := by
  cases stack <;> rfl

theorem readFrom_opening (stack : List (List Value)) (rest : List Token) :
    readFrom stack (.opening :: rest) = readFrom ([] :: stack) rest := by
  cases stack <;> rfl

theorem readFrom_closing (items : List Value) (stack : List (List Value)) (rest : List Token) :
    readFrom (items :: stack) (.closing :: rest) = resume (.list items.reverse) rest stack := by
  cases stack <;> rfl

theorem readFrom_spelling {v : Value} {tokens : List Token} (spelled : Spells v tokens)
    (stack : List (List Value)) (rest : List Token) :
    readFrom stack (tokens ++ rest) = resume v rest stack := by
  induction spelled generalizing stack rest with
  | atom text => exact readFrom_atom stack text rest
  | @list parts spelled ih =>
    -- The elements are read one after another onto those that are there already.
    have elements : ∀ items : List Value, ∀ tail : List Token,
        readFrom (items :: stack) (parts.flatMap Prod.snd ++ tail) =
          readFrom (((parts.map Prod.fst).reverse ++ items) :: stack) tail := by
      clear rest
      induction parts with
      | nil => exact fun _ _ => rfl
      | cons part others onward =>
        intro items tail
        have first := ih part (by simp) (items :: stack) (others.flatMap Prod.snd ++ tail)
        have later := onward (fun p member => spelled p (List.mem_cons_of_mem _ member))
          (fun p member => ih p (List.mem_cons_of_mem _ member)) (part.1 :: items) tail
        rw [List.flatMap_cons, List.append_assoc, first, resume, later]
        simp
    rw [List.cons_append, List.append_assoc, readFrom_opening, elements, List.append_nil,
      List.singleton_append, readFrom_closing, List.reverse_reverse]

theorem isTree_ofAtom {text : String} (word : Token.IsWord text) : (ofAtom text).IsTree := by
  cases literal : (ofAtom text).isNumber with
  | false =>
    rw [ofAtom_eq_symbol literal]
    exact .symbol ⟨word, literal⟩
  | true =>
    -- A number that is read from an atom is an integer or a finite float.
    unfold ofAtom at literal ⊢
    split at literal
    · exact .integer _
    · split at literal
      next x found =>
        refine .float ?_
        unfold float? at found
        split at found
        · split at found
          next finite => cases found; exact finite
          next => cases found
        · cases found
      next => cases literal

/-- The elements of all lists that are open are trees. -/
def TreesOpen (stack : List (List Value)) : Prop :=
  ∀ items ∈ stack, ∀ v ∈ items, v.IsTree

theorem treesOpen_cons {items : List Value} {stack : List (List Value)} :
    TreesOpen (items :: stack) ↔ (∀ v ∈ items, v.IsTree) ∧ TreesOpen stack := by
  simp [TreesOpen]

/-- A form that was just read is the result, or it waits in the innermost list that is open. -/
theorem isTree_resume {stack : List (List Value)} {tokens rest : List Token} {form v : Value}
    (tree : form.IsTree) (trees : TreesOpen stack)
    (onward : ∀ {stack}, TreesOpen stack → readFrom stack tokens = .ok (v, rest) → v.IsTree)
    (read : resume form tokens stack = .ok (v, rest)) : v.IsTree := by
  cases stack with
  | nil =>
    simp only [resume, Except.ok.injEq, Prod.mk.injEq] at read
    exact read.1 ▸ tree
  | cons items stack =>
    obtain ⟨waiting, others⟩ := treesOpen_cons.mp trees
    refine onward (treesOpen_cons.mpr ⟨?_, others⟩) read
    intro w member
    rcases List.mem_cons.mp member with rfl | member
    · exact tree
    · exact waiting w member

/-- What is read from words with trees waiting in the open lists is a tree. -/
theorem isTree_readFrom {stack : List (List Value)} {tokens rest : List Token} {v : Value}
    (trees : TreesOpen stack) (words : ∀ text, Token.atom text ∈ tokens → Token.IsWord text)
    (read : readFrom stack tokens = .ok (v, rest)) : v.IsTree := by
  -- By induction on the tokens; each of them opens a list, closes one or gives it an element.
  induction tokens generalizing stack with
  | nil => cases stack <;> cases read
  | cons token tokens ih =>
    have onward : ∀ {stack}, TreesOpen stack → readFrom stack tokens = .ok (v, rest) → v.IsTree :=
      fun trees read => ih trees (fun text member => words text (List.mem_cons_of_mem _ member)) read
    cases token with
    | opening =>
      rw [readFrom_opening] at read
      exact onward (treesOpen_cons.mpr ⟨by simp, trees⟩) read
    | closing =>
      cases stack with
      | nil => cases read
      | cons items stack =>
        obtain ⟨elements, others⟩ := treesOpen_cons.mp trees
        rw [readFrom_closing] at read
        have list : (Value.list items.reverse).IsTree :=
          .list fun w member => elements w (List.mem_reverse.mp member)
        exact isTree_resume list others onward read
    | atom text =>
      rw [readFrom_atom] at read
      exact isTree_resume (isTree_ofAtom (words text (by simp))) trees onward read

theorem isTree_of_read {text : String} {v : Value} {ignored : Nat}
    (read : Form.read text = .ok (v, ignored)) : v.IsTree := by
  unfold Form.read at read
  split at read
  next form rest found =>
    simp only [Except.ok.injEq, Prod.mk.injEq] at read
    obtain ⟨rfl, _⟩ := read
    refine isTree_readFrom (by simp [TreesOpen]) (fun word member => ?_) found
    exact Token.isWord_of_mem_scanFrom (by simp) member
  next => cases read

end Form

end MiniLisp
