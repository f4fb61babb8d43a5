import MiniLisp.Proofs.Form.Tree
import MiniLisp.Proofs.Session.Answers
import MiniLisp.Proofs.Value.Subtree

/-!
# Echoes show the tree

Nothing is escaped in the text of a tree for inspection: a name may hold the comma, the colon and
the opening bracket that the text itself uses. The text still has one reading. Its first character
tells lists, symbols and numbers apart. A name or a number holds no space and no closing bracket,
and what follows an element is one of these, or a comma with a space behind it; so it is known where
the element ends, even if its last character is a comma. The argument goes through two trees at a
time, each with any such text behind it. It needs names without closing brackets.
-/
namespace MiniLisp

namespace Value

/-- No name in the value has a closing bracket in it. -/
def HasClearNames (v : Value) : Prop :=
  ∀ name, Subtree (.symbol name) v → ']' ∉ name.toList

theorem hasClearNames_symbol {name : String} :
    (symbol name).HasClearNames ↔ ']' ∉ name.toList := by
  constructor
  · exact fun clear => clear name (.refl _)
  · rintro clear _ ⟨⟩
    exact clear

theorem hasClearNames_list {items : List Value} :
    (list items).HasClearNames ↔ ∀ item ∈ items, item.HasClearNames := by
  constructor
  · exact fun clear item member name inside => clear name (.item member inside)
  · rintro clear name (_ | ⟨member, inside⟩)
    exact clear _ member name inside

/-! ### Where an element ends -/

/-- What may come behind an element: nothing, the bracket that closes the list, or a separator. -/
inductive Follows : List Char → Prop where
  | nothing : Follows []
  | closing (rest : List Char) : Follows (']' :: rest)
  | separator (rest : List Char) : Follows (',' :: ' ' :: rest)

/-- The text can stand in an element that is no list. -/
abbrev Unbroken (text : List Char) : Prop := ∀ c ∈ text, c ≠ ' ' ∧ c ≠ ']'

/-- A comma does not end an element unless a space is behind it. -/
theorem eq_nil_of_follows {text rest : List Char} (unbroken : Unbroken text)
    (behind : Follows rest) (ends : Follows (text ++ rest)) : text = [] := by
  cases text with
  | nil => rfl
  | cons c text =>
    generalize whole : c :: text ++ rest = all at ends
    cases ends with
    | nothing => cases whole
    | closing _ => exact absurd (List.cons.inj whole).1 (unbroken c List.mem_cons_self).2
    | separator _ =>
      -- The space would stand in the text or be the first character behind it.
      cases text with
      | nil =>
        obtain rfl := (List.cons.inj whole).2
        cases behind
      | cons d _ =>
        have space := (List.cons.inj (List.cons.inj whole).2).1
        exact absurd space (unbroken d (by simp)).1

/-- Two unbroken texts end at the same place if they are the same together with what follows. -/
theorem unbroken_append_inj {text other rest more : List Char} (unbroken : Unbroken text)
    (unbroken' : Unbroken other) (behind : Follows rest) (behind' : Follows more)
    (same : text ++ rest = other ++ more) : text = other ∧ rest = more := by
  induction text generalizing other with
  | nil =>
    obtain rfl : rest = other ++ more := same
    obtain rfl := eq_nil_of_follows unbroken' behind' behind
    exact ⟨rfl, rfl⟩
  | cons c text ih =>
    cases other with
    | nil =>
      have ends : Follows (c :: text ++ rest) := same ▸ behind'
      cases eq_nil_of_follows unbroken behind ends
    | cons d other =>
      obtain ⟨rfl, tails⟩ := List.cons.inj same
      obtain ⟨rfl, rests⟩ := ih (fun e member => unbroken e (List.mem_cons_of_mem _ member))
        (fun e member => unbroken' e (List.mem_cons_of_mem _ member)) tails
      exact ⟨rfl, rests⟩

/-! ### Elements -/

theorem inspected_symbol (name : String) :
    (Value.symbol name).inspected.toList = ':' :: name.toList := by
  simp [inspected, render, inspectionStyle]

/-- The text behind an element: the elements that come after it, the closing bracket, and the text
behind the list. -/
def textBehind (others : List Value) (rest : List Char) : List Char :=
  match others with
  | [] => ']' :: rest
  | _ :: _ => ',' :: ' ' :: ((renderItems inspectionStyle others).toList ++ ']' :: rest)

theorem follows_textBehind (others : List Value) (rest : List Char) :
    Follows (textBehind others rest) := by
  cases others with
  | nil => exact .closing rest
  | cons _ _ => exact .separator _

/-- Either a list ends behind both elements or elements come behind both. -/
theorem textBehind_inj {items others : List Value} {rest more : List Char}
    (same : textBehind items rest = textBehind others more) :
    (renderItems inspectionStyle items).toList ++ ']' :: rest =
      (renderItems inspectionStyle others).toList ++ ']' :: more := by
  cases items with
  | nil =>
    cases others with
    | nil => exact same
    | cons _ _ => cases same
  | cons _ _ =>
    cases others with
    | nil => cases same
    | cons _ _ => exact (List.cons.inj (List.cons.inj same).2).2

theorem renderItems_cons (item : Value) (others : List Value) (rest : List Char) :
    (renderItems inspectionStyle (item :: others)).toList ++ ']' :: rest =
      item.inspected.toList ++ textBehind others rest := by
  cases others <;> simp [renderItems, textBehind, inspected, inspectionStyle]

theorem inspected_list (items : List Value) (rest : List Char) :
    (Value.list items).inspected.toList ++ rest =
      '[' :: ((renderItems inspectionStyle items).toList ++ ']' :: rest) := by
  simp [inspected, render, inspectionStyle]

/-- The text of a number is made of the characters of numbers and is read as that number. -/
theorem IsTree.number_text {v : Value} (tree : v.IsTree) (number : v.isNumber = true) :
    (∀ c ∈ v.inspected.toList, Decimal.isNumberChar c = true) ∧ Form.ofAtom v.inspected = v := by
  cases tree with
  | integer n =>
    refine ⟨fun c member => ?_, Form.ofAtom_integerText n⟩
    simp only [inspected, render, integerText, String.toList_ofList] at member
    exact Decimal.integerText_chars _ c member
  | @float x finite =>
    refine ⟨fun c member => ?_, Form.ofAtom_floatText finite⟩
    simp only [inspected, render, floatText, String.toList_ofList] at member
    cases x with
    | finite negative rank => exact Decimal.render_chars _ _ c member
    | _ => cases finite
  | symbol _ => cases number
  | list _ => cases number

theorem unbroken_of_number {text : List Char}
    (number : ∀ c ∈ text, Decimal.isNumberChar c = true) : Unbroken text := by
  intro c member
  have is := number c member
  constructor <;>
  · rintro rfl
    cases is

theorem unbroken_of_name {name : String} (word : Token.IsWord name) (clear : ']' ∉ name.toList) :
    Unbroken name.toList := by
  intro c member
  constructor
  · rintro rfl
    cases word.plain ' ' member
  · rintro rfl
    exact clear member

/-- The character that a list or a symbol begins with. -/
def lead : Value → Option Char
  | .list _ => some '['
  | .symbol _ => some ':'
  | _ => none

theorem IsTree.lead_eq_none_iff {v : Value} (tree : v.IsTree) :
    v.lead = none ↔ v.isNumber = true := by
  cases tree <;> simp [lead, isNumber]

/-- An element begins with the character that tells its kind, and never with the bracket that closes
the list around it. -/
theorem IsTree.exists_first {v : Value} (tree : v.IsTree) :
    ∃ c tail, v.inspected.toList = c :: tail ∧ c ≠ ']' ∧
      v.lead = if c = '[' ∨ c = ':' then some c else none := by
  cases number : v.isNumber with
  | true =>
    obtain ⟨chars, read⟩ := tree.number_text number
    have nonempty : v.inspected.toList ≠ [] := by
      -- The empty text would be read as a symbol.
      intro empty
      rw [String.toList_eq_nil_iff.mp empty] at read
      rw [← read] at number
      cases number
    obtain ⟨c, tail, text⟩ := List.exists_cons_of_ne_nil nonempty
    have is : Decimal.isNumberChar c = true := chars c (text ▸ List.mem_cons_self)
    have other : ∀ d, Decimal.isNumberChar d = false → c ≠ d := by
      rintro d isNot rfl
      cases is.symm.trans isNot
    have neither : ¬ (c = '[' ∨ c = ':') := by simp [other '[' rfl, other ':' rfl]
    refine ⟨c, tail, text, other ']' rfl, ?_⟩
    rw [if_neg neither]
    exact tree.lead_eq_none_iff.mpr number
  | false =>
    cases tree with
    | integer _ | float _ => cases number
    | symbol _ => exact ⟨':', _, inspected_symbol _, by decide, rfl⟩
    | @list items _ =>
      exact ⟨'[', _, by simpa using inspected_list items [], by decide, rfl⟩

section

variable {u v : Value} {rest more : List Char} (left : u.IsTree) (right : v.IsTree)
  (same : u.inspected.toList ++ rest = v.inspected.toList ++ more)

include left right same

theorem lead_eq : u.lead = v.lead := by
  obtain ⟨c, tail, text, _, kind⟩ := left.exists_first
  obtain ⟨d, tail', text', _, kind'⟩ := right.exists_first
  rw [text, text'] at same
  obtain rfl : c = d := (List.cons.inj same).1
  rw [kind, kind']

theorem number_append_inj (number : u.isNumber = true) (behind : Follows rest)
    (behind' : Follows more) : u = v ∧ rest = more := by
  have number' : v.isNumber = true := by
    rw [← right.lead_eq_none_iff, ← lead_eq left right same, left.lead_eq_none_iff]
    exact number
  obtain ⟨chars, read⟩ := left.number_text number
  obtain ⟨chars', read'⟩ := right.number_text number'
  obtain ⟨texts, rests⟩ := unbroken_append_inj (unbroken_of_number chars)
    (unbroken_of_number chars') behind behind' same
  refine ⟨?_, rests⟩
  rw [← read, ← read', String.toList_inj.mp texts]

end

/-- The texts of the elements and the closing bracket determine the elements, if the text of each
element determines it. -/
theorem items_append_inj {items others : List Value} {rest more : List Char}
    (trees : ∀ v ∈ items, v.IsTree) (trees' : ∀ v ∈ others, v.IsTree)
    (determined : ∀ u ∈ items, ∀ v ∈ others, ∀ {rest more}, Follows rest → Follows more →
      u.inspected.toList ++ rest = v.inspected.toList ++ more → u = v ∧ rest = more)
    (same : (renderItems inspectionStyle items).toList ++ ']' :: rest =
      (renderItems inspectionStyle others).toList ++ ']' :: more) :
    items = others ∧ rest = more := by
  induction items generalizing others with
  | nil =>
    cases others with
    | nil => exact ⟨rfl, (List.cons.inj same).2⟩
    | cons v others =>
      obtain ⟨c, tail, text, other, _⟩ := (trees' v List.mem_cons_self).exists_first
      rw [renderItems_cons, text] at same
      exact absurd (List.cons.inj same).1.symm other
  | cons u items ih =>
    cases others with
    | nil =>
      obtain ⟨c, tail, text, other, _⟩ := (trees u List.mem_cons_self).exists_first
      rw [renderItems_cons, text] at same
      exact absurd (List.cons.inj same).1 other
    | cons v others =>
      rw [renderItems_cons, renderItems_cons] at same
      obtain ⟨rfl, tails⟩ := determined u List.mem_cons_self v List.mem_cons_self
        (follows_textBehind items rest) (follows_textBehind others more) same
      obtain ⟨rfl, rests⟩ := ih (fun w member => trees w (List.mem_cons_of_mem _ member))
        (fun w member => trees' w (List.mem_cons_of_mem _ member))
        (fun w member w' member' => determined w (List.mem_cons_of_mem _ member) w'
          (List.mem_cons_of_mem _ member')) (textBehind_inj tails)
      exact ⟨rfl, rests⟩

/-- Two trees with the same text, together with what follows each, are the same. -/
theorem IsTree.inspected_append_inj {u v : Value} (left : u.IsTree) (right : v.IsTree)
    (clear : u.HasClearNames) (clear' : v.HasClearNames) {rest more : List Char}
    (behind : Follows rest) (behind' : Follows more)
    (same : u.inspected.toList ++ rest = v.inspected.toList ++ more) : u = v ∧ rest = more := by
  induction left generalizing v rest more with
  | integer n => exact number_append_inj (.integer n) right same rfl behind behind'
  | float finite => exact number_append_inj (.float finite) right same rfl behind behind'
  | @symbol name named =>
    have leads := lead_eq (.symbol named) right same
    cases right with
    | @symbol other named' =>
      rw [inspected_symbol, inspected_symbol] at same
      obtain ⟨names, rests⟩ := unbroken_append_inj
        (unbroken_of_name named.toIsWord (hasClearNames_symbol.mp clear))
        (unbroken_of_name named'.toIsWord (hasClearNames_symbol.mp clear')) behind behind'
        (List.cons.inj same).2
      exact ⟨congrArg Value.symbol (String.toList_inj.mp names), rests⟩
    | _ => cases leads
  | @list items trees ih =>
    have leads := lead_eq (.list trees) right same
    cases right with
    | @list others trees' =>
      rw [inspected_list, inspected_list] at same
      have determined (u : Value) (member : u ∈ items) (v : Value) (member' : v ∈ others)
          {rest more : List Char} (behind : Follows rest) (behind' : Follows more)
          (same : u.inspected.toList ++ rest = v.inspected.toList ++ more) :
          u = v ∧ rest = more :=
        ih u member (trees' v member') (hasClearNames_list.mp clear u member)
          (hasClearNames_list.mp clear' v member') behind behind' same
      obtain ⟨rfl, rests⟩ := items_append_inj trees trees' determined (List.cons.inj same).2
      exact ⟨rfl, rests⟩
    | _ => cases leads

end Value

/-! ### Lines -/

namespace Session

/-- Somewhere the line is answered with the echo among what is shown. -/
def Echoes (line text : String) : Prop :=
  ∃ depth options scope world things after,
    (answerLine depth options scope line).EndsWith world (.ok (.shown things)) after ∧
      .echo text ∈ things

theorem mem_echoOf {options : Options} {line text : String} {result : Except Fault Value}
    {things : List Shown} (answer : answerTo options line result = .shown things)
    (echo : .echo text ∈ things) : .echo text ∈ echoOf options line := by
  unfold answerTo at answer
  split at answer
  · cases answer
    cases echo
  · split at answer
    case h_1 => cases answer
    all_goals
      cases answer
      simpa using echo

/-- An echo is the text of the tree that was read from the line. -/
theorem Echoes.read {line text : String} (echoes : Echoes line text) :
    ∃ tree ignored, Form.read line = .ok (tree, ignored) ∧ text = tree.inspected := by
  obtain ⟨depth, options, scope, world, things, after, answered, echo⟩ := echoes
  obtain ⟨result, _, answer⟩ := answerLine_ends_iff.mp answered
  have member := mem_echoOf (Except.ok.inj answer).symm echo
  unfold echoOf at member
  split at member
  next tree ignored _ read =>
    cases List.mem_singleton.mp member
    exact ⟨tree, ignored, read, rfl⟩
  next => cases member

/-- A line that was read is answered with an echo, if that is wanted, unless it leaves. -/
theorem echoes_of_ends {line : String} {tree : Value} {ignored depth : Nat} {scope : ScopeId}
    {world after : World} {result : Except Fault Value}
    (read : Form.read line = .ok (tree, ignored))
    (ends : (eval depth tree scope).EndsWith world result after)
    (stays : ∀ code, result ≠ .error (.exit code)) : Echoes line tree.inspected := by
  have visible : Text.isBlankText line = false := by
    refine Bool.eq_false_iff.mpr fun blank => ?_
    rw [read_of_isBlankText blank] at read
    cases read
  have echo : echoOf (Options.loud {}) line = [.echo tree.inspected] := by
    simp [echoOf, Options.loud, read]
  have answered : (answerLine depth (Options.loud {}) scope line).EndsWith world
      (.ok (answerTo (Options.loud {}) line result)) after :=
    answerLine_of_ends (evaluateLine_ends read ends)
  have shown : ∃ things, answerTo (Options.loud {}) line result = .shown things ∧
      .echo tree.inspected ∈ things := by
    unfold answerTo
    rw [visible, echo, if_neg Bool.false_ne_true]
    split
    next code => exact absurd rfl (stays code)
    all_goals exact ⟨_, rfl, by simp⟩
  obtain ⟨things, answer, member⟩ := shown
  rw [answer] at answered
  exact ⟨depth, Options.loud {}, scope, world, things, after, answered, member⟩

end Session

open Session Value

/-- Trees that were read and whose names hold no closing bracket are the same if their texts for
inspection are, whatever else the names hold. So whoever is shown the same echo for two lines knows
that both were read, and as the same tree. -/
theorem echo_determines_tree :
    (∀ (line other : String) (u v : Value) (ignored ignored' : Nat),
      Form.read line = .ok (u, ignored) → Form.read other = .ok (v, ignored') →
      u.HasClearNames → v.HasClearNames → u.inspected = v.inspected → u = v) ∧
    ∀ line other text, Echoes line text → Echoes other text →
      ∃ u v ignored ignored', Form.read line = .ok (u, ignored) ∧
        Form.read other = .ok (v, ignored') ∧ (u.HasClearNames → v.HasClearNames → u = v) := by
  have trees (line other : String) (u v : Value) (ignored ignored' : Nat)
      (read : Form.read line = .ok (u, ignored)) (read' : Form.read other = .ok (v, ignored'))
      (clear : u.HasClearNames) (clear' : v.HasClearNames) (same : u.inspected = v.inspected) :
      u = v := by
    have texts : u.inspected.toList ++ [] = v.inspected.toList ++ [] := by rw [same]
    exact ((Form.isTree_of_read read).inspected_append_inj (Form.isTree_of_read read') clear clear'
      .nothing .nothing texts).1
  refine ⟨trees, fun line other text echoes echoes' => ?_⟩
  obtain ⟨u, ignored, read, rfl⟩ := echoes.read
  obtain ⟨v, ignored', read', same⟩ := echoes'.read
  exact ⟨u, v, ignored, ignored', read, read', fun clear clear' =>
    trees line other u v ignored ignored' read read' clear clear' same⟩

/-- Two lines with commas, a colon and an opening bracket in names. They are answered with the same
echo, and were read as the same tree. -/
theorem echo_determines_tree_commas :
    let tree : Value := .list [.symbol "quote", .symbol "a,", .list [.symbol "[b", .symbol ":c"]]
    Form.read "(quote a, ([b :c))" = .ok (tree, 0) ∧
      Form.read " ( quote a, ([b :c)) d" = .ok (tree, 1) ∧
      tree.HasClearNames ∧ tree.inspected = "[:quote, :a,, [:[b, ::c]]" ∧
      Echoes "(quote a, ([b :c))" tree.inspected ∧ Echoes " ( quote a, ([b :c)) d" tree.inspected ∧
      ∃ u v ignored ignored', Form.read "(quote a, ([b :c))" = .ok (u, ignored) ∧
        Form.read " ( quote a, ([b :c)) d" = .ok (v, ignored') ∧
        (u.HasClearNames → v.HasClearNames → u = v) := by
  intro tree
  have clear : tree.HasClearNames := by
    simp [tree, hasClearNames_list, hasClearNames_symbol]
  have read : Form.read "(quote a, ([b :c))" = .ok (tree, 0) := rfl
  have read' : Form.read " ( quote a, ([b :c)) d" = .ok (tree, 1) := rfl
  have ends : (eval 1 tree globalScope).EndsWith World.fresh
      (.ok (.list [.symbol "a,", .list [.symbol "[b", .symbol ":c"]])) World.fresh := ⟨_, rfl⟩
  have echoes := echoes_of_ends read ends nofun
  have echoes' := echoes_of_ends read' ends nofun
  exact ⟨read, read', clear, rfl, echoes, echoes', echo_determines_tree.2 _ _ _ echoes echoes'⟩

/-- With a closing bracket in a name the same text may belong to two trees. -/
example :
    inspected (.list [.list [.symbol "a"], .symbol "b]"]) =
      inspected (.list [.list [.symbol "a]", .symbol "b"]]) := by
  decide

end MiniLisp
