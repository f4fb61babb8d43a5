import MiniLisp.Proofs.Form.Tree

/-!
# Reading what was written

The readable text of a tree is scanned into a spelling of that tree, so it is read as that tree
and nothing is left over. Since only trees are read, reading and writing back and forth loses
nothing for anything that was ever read.
-/
namespace MiniLisp

open Form Token

namespace Value

/-- The text is scanned into the tokens wherever the atom at its end, if any, can end. -/
def ScansAs (text : List Char) (tokens : List Token) : Prop :=
  ∀ rest, Ends rest → scanFrom [] (text ++ rest) = tokens ++ scanFrom [] rest

/-- The readable text of the value is scanned into a spelling of it. -/
def Notated (v : Value) : Prop :=
  ∃ tokens, Spells v tokens ∧ ScansAs v.readable.toList tokens

theorem notated_of_word {v : Value} {text : String} (word : IsWord text)
    (written : v.readable = text) (read : ofAtom text = v) : v.Notated := by
  refine ⟨[.atom text], read ▸ .atom text, fun rest ends => ?_⟩
  rw [written]
  exact scanFrom_word word ends

/-- The readable texts of elements, with spaces between them and the closing bracket behind them,
are scanned into their spellings. -/
theorem notated_items {items : List Value} (notated : ∀ v ∈ items, Notated v) :
    ∃ parts : List (Value × List Token), parts.map Prod.fst = items ∧
      (∀ part ∈ parts, Spells part.1 part.2) ∧
      ∀ rest, scanFrom [] ((renderItems readableStyle items).toList ++ ')' :: rest) =
        parts.flatMap Prod.snd ++ .closing :: scanFrom [] rest := by
  induction items with
  | nil =>
    refine ⟨[], rfl, by simp, fun rest => ?_⟩
    simp [renderItems, scanFrom_closing, flush]
  | cons first others ih =>
    obtain ⟨tokens, spelled, scanned⟩ := notated first (by simp)
    obtain ⟨parts, values, spellings, scannedOthers⟩ :=
      ih fun v member => notated v (List.mem_cons_of_mem _ member)
    refine ⟨(first, tokens) :: parts, by simp [values], ?_, fun rest => ?_⟩
    · intro part member
      rcases List.mem_cons.mp member with rfl | member
      · exact spelled
      · exact spellings part member
    · cases others with
      | nil =>
        -- The last element ends at the closing bracket.
        have nothing : parts = [] := by simpa using values
        subst nothing
        have last := scanned (')' :: rest) (ends_closing rest)
        simpa [renderItems, readable, scanFrom_closing, flush] using last
      | cons second more =>
        -- Any other one ends at the space that follows it.
        have text : (renderItems readableStyle (first :: second :: more)).toList =
            first.readable.toList ++
              (' ' :: (renderItems readableStyle (second :: more)).toList) := by
          simp [renderItems, readableStyle, readable]
        rw [text, List.append_assoc, List.cons_append, scanned _ (ends_space _), scanFrom_space,
          scannedOthers rest]
        simp [flush]

theorem IsTree.notated {v : Value} (tree : v.IsTree) : v.Notated := by
  induction tree with
  | integer n => exact notated_of_word (isWord_integerText n) rfl (ofAtom_integerText n)
  | float finite => exact notated_of_word (isWord_floatText finite) rfl (ofAtom_floatText finite)
  | symbol named => exact notated_of_word named.toIsWord rfl (ofAtom_eq_symbol named.literal)
  | @list items _ ih =>
    -- Brackets are tokens wherever they stand, so nothing is asked of what follows.
    obtain ⟨parts, values, spellings, scanned⟩ := notated_items ih
    have spelled := Spells.list spellings
    rw [values] at spelled
    refine ⟨_, spelled, fun rest _ => ?_⟩
    have text : (Value.list items).readable.toList ++ rest =
        '(' :: ((renderItems readableStyle items).toList ++ ')' :: rest) := by
      simp [readable, render, readableStyle]
    rw [text, scanFrom_opening, scanned]
    simp [flush]

/-- The readable text of a tree is read as that tree, to its end. -/
theorem IsTree.read {v : Value} (tree : v.IsTree) : Form.read v.readable = .ok (v, 0) := by
  obtain ⟨tokens, spelled, scanned⟩ := tree.notated
  have all : scan v.readable = tokens := by
    have whole := scanned [] ends_nil
    simpa [scan, scanFrom, flush] using whole
  have form := readFrom_spelling spelled [] []
  rw [List.append_nil] at form
  simp [Form.read, ofTokens, all, form, resume]

end Value

/-- Every tree is read back from its readable text, with no token left over, and whatever is read
from any text is a tree, so that it is read back from its own readable text. -/
theorem read_readable :
    (∀ v : Value, v.IsTree → Form.read v.readable = .ok (v, 0)) ∧
      ∀ (text : String) (v : Value) (ignored : Nat), Form.read text = .ok (v, ignored) →
        v.IsTree ∧ Form.read v.readable = .ok (v, 0) := by
  constructor
  · intro v tree
    exact tree.read
  · intro text v ignored read
    have tree := Form.isTree_of_read read
    exact ⟨tree, tree.read⟩

/-- A list with a negative integer, the float next to zero, an empty list and a name that looks like
a difference of numbers is read back, and so is what a text is read as that goes on behind it. -/
theorem read_readable_difference :
    let tree : Value := .list [.integer (-12), .float (.finite true ⟨1, by decide⟩), .list [],
      .symbol "1-2"]
    tree.IsTree ∧ Form.read tree.readable = .ok (tree, 0) ∧
      Form.read "(a ())) b" = .ok (.list [.symbol "a", .list []], 2) ∧
      Form.read "(a ())" = .ok (.list [.symbol "a", .list []], 0) := by
  have plain : "1-2".toList.all Token.isPlain = true := by decide
  have named : Form.IsName "1-2" := ⟨⟨by decide, List.all_eq_true.mp plain⟩, by decide⟩
  have tree : (Value.list [.integer (-12), .float (.finite true ⟨1, by decide⟩), .list [],
      .symbol "1-2"]).IsTree := by
    refine .list fun v member => ?_
    simp only [List.mem_cons, List.not_mem_nil, or_false] at member
    rcases member with rfl | rfl | rfl | rfl
    · exact .integer _
    · exact .float rfl
    · exact .list (by simp)
    · exact .symbol named
  have loose : Form.read "(a ())) b" = .ok (.list [.symbol "a", .list []], 2) := rfl
  exact ⟨tree, read_readable.1 _ tree, loose, (read_readable.2 _ _ _ loose).2⟩

end MiniLisp
