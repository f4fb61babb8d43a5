import MiniLisp.Token

/-!
# Words and scanning

A word is a text that can stand as an atom of its own: it is not empty and has neither blanks nor
brackets. Scanning gives words only. Conversely a word that is followed by the end of the text, a
blank or a bracket is scanned as one atom, and scanning then goes on behind it as if the text
began there.
-/
namespace MiniLisp.Token

/-- Whether the character can stand in an atom. -/
def isPlain (c : Char) : Bool :=
  c ≠ '(' && c ≠ ')' && !Text.isBlank c

/-- The text of an atom. -/
structure IsWord (text : String) : Prop where
  ne_empty : text ≠ ""
  plain : ∀ c ∈ text.toList, isPlain c = true

theorem isPlain_iff {c : Char} :
    isPlain c = true ↔ c ≠ '(' ∧ c ≠ ')' ∧ Text.isBlank c = false := by
  simp [isPlain, and_assoc]

/-- The end of an atom: the text is over, or no plain character comes next. -/
def Ends (rest : List Char) : Prop :=
  ∀ c others, rest = c :: others → isPlain c = false

theorem ends_nil : Ends [] := by
  intro c others equal
  cases equal

theorem ends_closing (rest : List Char) : Ends (')' :: rest) := by
  intro c others equal
  cases equal
  decide

theorem ends_space (rest : List Char) : Ends (' ' :: rest) := by
  intro c others equal
  cases equal
  decide

theorem scanFrom_opening (pending rest : List Char) :
    scanFrom pending ('(' :: rest) = flush pending (.opening :: scanFrom [] rest) := by
  simp [scanFrom]

theorem scanFrom_closing (pending rest : List Char) :
    scanFrom pending (')' :: rest) = flush pending (.closing :: scanFrom [] rest) := by
  simp [scanFrom]

theorem scanFrom_space (pending rest : List Char) :
    scanFrom pending (' ' :: rest) = flush pending (scanFrom [] rest) := by
  simp [scanFrom, show Text.isBlank ' ' = true by decide]

theorem scanFrom_plain (pending word rest : List Char) (plain : ∀ c ∈ word, isPlain c = true) :
    scanFrom pending (word ++ rest) = scanFrom (word.reverse ++ pending) rest := by
  -- By induction on the word, with more and more characters pending.
  induction word generalizing pending with
  | nil => rfl
  | cons c others ih =>
    obtain ⟨open_, close, blank⟩ := isPlain_iff.mp (plain c (by simp))
    rw [List.cons_append, scanFrom, if_neg open_, if_neg close, if_neg (by simp [blank]),
      ih (c :: pending) fun d member => plain d (List.mem_cons_of_mem _ member)]
    simp

/-- Where an atom ends, what has been collected is given out. -/
theorem scanFrom_ends (pending : List Char) {rest : List Char} (ends : Ends rest) :
    scanFrom pending rest = flush pending (scanFrom [] rest) := by
  cases rest with
  | nil => simp [scanFrom, flush]
  | cons c others =>
    -- What is no plain character and no bracket is a blank.
    have outside := ends c others rfl
    by_cases opening : c = '('
    · simp [scanFrom, opening, flush]
    by_cases closing : c = ')'
    · simp [scanFrom, closing, flush]
    have blank : Text.isBlank c = true := by
      simpa [isPlain, opening, closing] using outside
    simp [scanFrom, opening, closing, blank, flush]

theorem scanFrom_word {text : String} (word : IsWord text) {rest : List Char} (ends : Ends rest) :
    scanFrom [] (text.toList ++ rest) = .atom text :: scanFrom [] rest := by
  have nonempty : text.toList ≠ [] := fun none => word.ne_empty (String.toList_eq_nil_iff.mp none)
  rw [scanFrom_plain [] text.toList rest word.plain, List.append_nil, scanFrom_ends _ ends, flush,
    if_neg (by simpa using nonempty), List.reverse_reverse, String.ofList_toList]

theorem mem_flush {pending : List Char} {tokens : List Token} {text : String}
    (member : .atom text ∈ flush pending tokens) (plain : ∀ c ∈ pending, isPlain c = true) :
    IsWord text ∨ .atom text ∈ tokens := by
  unfold flush at member
  split at member
  · exact .inr member
  next nonempty =>
    rcases List.mem_cons.mp member with equal | old
    · cases equal
      refine .inl ⟨fun none => nonempty ?_, fun c inside => plain c (by simpa using inside)⟩
      simpa using congrArg String.toList none
    · exact .inr old

/-- Scanning gives words only. -/
theorem isWord_of_mem_scanFrom {pending rest : List Char} {text : String}
    (plain : ∀ c ∈ pending, isPlain c = true) (member : .atom text ∈ scanFrom pending rest) :
    IsWord text := by
  -- By induction on the text; what is pending are plain characters throughout.
  induction rest generalizing pending with
  | nil =>
    rcases mem_flush member plain with word | none
    · exact word
    · cases none
  | cons c others ih =>
    have nothing : ∀ d ∈ ([] : List Char), isPlain d = true := by simp
    unfold scanFrom at member
    split at member
    · rcases mem_flush member plain with word | later
      · exact word
      · exact ih nothing (by simpa using later)
    · split at member
      · rcases mem_flush member plain with word | later
        · exact word
        · exact ih nothing (by simpa using later)
      · split at member
        · rcases mem_flush member plain with word | later
          · exact word
          · exact ih nothing later
        next opening closing blank =>
          refine ih (fun d inside => ?_) member
          rcases List.mem_cons.mp inside with rfl | old
          · exact isPlain_iff.mpr ⟨opening, closing, by simpa using blank⟩
          · exact plain d old

/-- What is pending or not blank is part of a token. -/
theorem scanFrom_eq_nil_iff {pending rest : List Char} :
    scanFrom pending rest = [] ↔ pending = [] ∧ rest.all Text.isBlank = true := by
  induction rest generalizing pending with
  | nil => by_cases none : pending = [] <;> simp [scanFrom, flush, none]
  | cons c others ih =>
    have flushed (tokens : List Token) :
        flush pending tokens = [] ↔ pending = [] ∧ tokens = [] := by
      by_cases none : pending = [] <;> simp [flush, none]
    unfold scanFrom
    split
    next opening => simp [flushed, opening, Text.isBlank_opening]
    next =>
      split
      next closing => simp [flushed, closing, Text.isBlank_closing]
      next =>
        split
        next blank => simp [flushed, ih, blank]
        next plain => simp [ih, plain]

/-- A text without tokens is blank. -/
theorem scan_eq_nil_iff {text : String} : scan text = [] ↔ Text.isBlankText text = true := by
  rw [scan, scanFrom_eq_nil_iff, Text.isBlankText]
  simp

end MiniLisp.Token
