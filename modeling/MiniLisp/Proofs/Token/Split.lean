import MiniLisp.Proofs.Token.Word

/-!
# Padding, splitting and finding

There are two more ways to cut a text into tokens. One puts a space before and after every bracket
and then splits the text at its runs of blanks. The other one goes through the text and wherever a
bracket or a plain character comes next it takes the bracket, or as many plain characters as there
are; everything else it skips. Both give the pieces that scanning gives as tokens.
-/
namespace MiniLisp.Token

/-! ### Padding and splitting -/

/-- The text with a space before and after every bracket. -/
def pad (text : List Char) : List Char :=
  text.flatMap fun c => if c = '(' ∨ c = ')' then [' ', c, ' '] else [c]

/-- The parts of a text between its runs of blanks. Splitting at every single blank also gives empty
parts, within the runs and at the ends of the text, which are left out. -/
def pieces (text : List Char) : List (List Char) :=
  (text.splitOnP Text.isBlank).filter (· ≠ [])

/-- The token that a piece stands for. -/
def ofPiece (piece : List Char) : Token :=
  if piece = ['('] then .opening
  else if piece = [')'] then .closing
  else .atom (String.ofList piece)

/-- The characters of a token. -/
def chars : Token → List Char
  | .opening => ['(']
  | .closing => [')']
  | .atom text => text.toList

/-! ### Finding -/

/-- A piece that the text begins with: a bracket, or all the plain characters up to the next one
that is not plain. -/
inductive Front : List Char → List Char → List Char → Prop where
  | bracket {c : Char} {rest : List Char} (bracket : c = '(' ∨ c = ')') : Front (c :: rest) [c] rest
  | word {word rest : List Char} (nonempty : word ≠ []) (plain : ∀ c ∈ word, isPlain c = true)
    (ends : Ends rest) : Front (word ++ rest) word rest

/-- The pieces found from left to right. The search goes on behind each of them, and where there is
none it moves on by one character. -/
inductive Finds : List Char → List (List Char) → Prop where
  | finish : Finds [] []
  | found {text piece rest : List Char} {others : List (List Char)} (front : Front text piece rest)
    (further : Finds rest others) : Finds text (piece :: others)
  | skip {c : Char} {rest : List Char} {others : List (List Char)}
    (nothing : ∀ piece behind, ¬ Front (c :: rest) piece behind) (further : Finds rest others) :
    Finds (c :: rest) others

variable {text rest word : List Char} {found : List (List Char)} {c : Char}

theorem isBlank_of_bracket (bracket : c = '(' ∨ c = ')') : Text.isBlank c = false := by
  rcases bracket with rfl | rfl
  · exact Text.isBlank_opening
  · exact Text.isBlank_closing

theorem not_bracket_of_isBlank (blank : Text.isBlank c = true) : ¬ (c = '(' ∨ c = ')') := by
  intro bracket
  cases blank.symm.trans (isBlank_of_bracket bracket)

/-- A plain character is taken together with the plain ones that follow it. -/
theorem front_of_isPlain (plain : isPlain c = true) (rest : List Char) :
    Front (c :: rest) (c :: rest.takeWhile isPlain) (rest.dropWhile isPlain) := by
  have ends : Ends (rest.dropWhile isPlain) := by
    intro d others equal
    simpa [equal] using List.head?_dropWhile_not isPlain rest
  have front : Front (c :: rest.takeWhile isPlain ++ rest.dropWhile isPlain)
      (c :: rest.takeWhile isPlain) (rest.dropWhile isPlain) := by
    refine .word (List.cons_ne_nil _ _) (fun d member => ?_) ends
    rcases List.mem_cons.mp member with rfl | inside
    · exact plain
    · exact List.all_eq_true.mp List.all_takeWhile d inside
  rwa [List.cons_append, List.takeWhile_append_dropWhile] at front

/-- Only blanks are skipped, and all of them are. -/
theorem forall_not_front_iff :
    (∀ piece behind, ¬ Front (c :: rest) piece behind) ↔ Text.isBlank c = true := by
  constructor
  · intro nothing
    have outside : ¬ (c = '(' ∨ c = ')') := fun bracket => nothing _ _ (.bracket bracket)
    obtain ⟨opening, closing⟩ := not_or.mp outside
    cases blank : Text.isBlank c with
    | true => rfl
    | false =>
      have plain : isPlain c = true := isPlain_iff.mpr ⟨opening, closing, blank⟩
      exact absurd (front_of_isPlain plain rest) (nothing _ _)
  · intro blank piece behind front
    generalize equal : c :: rest = whole at front
    cases front with
    | bracket bracket =>
      cases equal
      exact not_bracket_of_isBlank blank bracket
    | word nonempty plain _ =>
      obtain ⟨d, others, rfl⟩ := List.exists_cons_of_ne_nil nonempty
      cases equal
      cases blank.symm.trans (isPlain_iff.mp (plain c List.mem_cons_self)).2.2

/-- The search comes to an end. -/
theorem exists_finds (text : List Char) : ∃ found, Finds text found := by
  -- Behind a piece less of the text is left, but not only the tail of it.
  induction length : text.length using Nat.strongRecOn generalizing text with
  | ind n ih =>
    subst length
    cases text with
    | nil => exact ⟨[], .finish⟩
    | cons c rest =>
      have short : rest.length < (c :: rest).length := Nat.lt_succ_self _
      by_cases bracket : c = '(' ∨ c = ')'
      · obtain ⟨found, further⟩ := ih _ short rest rfl
        exact ⟨_, .found (.bracket bracket) further⟩
      by_cases plain : isPlain c = true
      · have shorter := Nat.lt_of_le_of_lt (List.dropWhile_suffix isPlain).length_le short
        obtain ⟨found, further⟩ := ih _ shorter _ rfl
        exact ⟨_, .found (front_of_isPlain plain rest) further⟩
      · obtain ⟨found, further⟩ := ih _ short rest rfl
        obtain ⟨opening, closing⟩ := not_or.mp bracket
        have blank : Text.isBlank c = true := by
          simpa [isPlain, opening, closing] using plain
        exact ⟨found, .skip (forall_not_front_iff.mpr blank) further⟩

/-! ### Pieces of a text -/

theorem filter_plain (plain : ∀ c ∈ word, isPlain c = true) :
    word.filter (fun c => !Text.isBlank c) = word :=
  List.filter_eq_self.mpr fun c member => by simpa using (isPlain_iff.mp (plain c member)).2.2

theorem ofPiece_word (plain : ∀ c ∈ word, isPlain c = true) :
    ofPiece word = .atom (String.ofList word) := by
  have other {c : Char} (out : isPlain c = false) : word ≠ [c] := by
    rintro rfl
    cases out.symm.trans (plain c List.mem_cons_self)
  rw [ofPiece, if_neg (other (by decide)), if_neg (other (by decide))]

theorem chars_ofPiece (piece : List Char) : chars (ofPiece piece) = piece := by
  unfold ofPiece
  split
  next opening => exact opening.symm
  next =>
    split
    next closing => exact closing.symm
    next => exact String.toList_ofList

theorem pieces_nil : pieces [] = [] := by simp [pieces]

/-- The parts before and after a blank are split apart from each other. -/
theorem pieces_append (blank : Text.isBlank c = true) (text rest : List Char) :
    pieces (text ++ c :: rest) = pieces text ++ pieces rest := by
  rw [pieces, List.splitOnP_append_cons text rest blank, List.filter_append]
  rfl

theorem pieces_cons (blank : Text.isBlank c = true) (rest : List Char) :
    pieces (c :: rest) = pieces rest := by
  simpa [pieces_nil] using pieces_append blank [] rest

theorem pieces_of_not_blank (nonempty : text ≠ []) (solid : ∀ c ∈ text, Text.isBlank c = false) :
    pieces text = [text] := by
  simp [pieces, List.splitOnP_eq_singleton solid, nonempty]

/-- Blanks at the beginning of a text are not part of any piece. -/
theorem pieces_append_of_all (blank : text.all Text.isBlank = true) (rest : List Char) :
    pieces (text ++ rest) = pieces rest := by
  induction text with
  | nil => rfl
  | cons c others ih =>
    rw [List.all_cons, Bool.and_eq_true] at blank
    rw [List.cons_append, pieces_cons blank.1, ih blank.2]

/-! ### Pieces of a padded text -/

theorem pad_append (text rest : List Char) : pad (text ++ rest) = pad text ++ pad rest :=
  List.flatMap_append

theorem pad_bracket (bracket : c = '(' ∨ c = ')') (rest : List Char) :
    pad (c :: rest) = ' ' :: ([c] ++ ' ' :: pad rest) := by
  rw [pad, List.flatMap_cons, if_pos bracket]
  rfl

theorem pad_cons (outside : ¬ (c = '(' ∨ c = ')')) (rest : List Char) :
    pad (c :: rest) = c :: pad rest := by
  rw [pad, List.flatMap_cons, if_neg outside]
  rfl

theorem pad_of_forall_not (outside : ∀ c ∈ text, ¬ (c = '(' ∨ c = ')')) : pad text = text := by
  induction text with
  | nil => rfl
  | cons c others ih =>
    rw [pad_cons (outside c List.mem_cons_self),
      ih fun d member => outside d (List.mem_cons_of_mem c member)]

theorem pad_of_all (blank : text.all Text.isBlank = true) : pad text = text :=
  pad_of_forall_not fun c member => not_bracket_of_isBlank (List.all_eq_true.mp blank c member)

theorem pieces_pad_bracket (bracket : c = '(' ∨ c = ')') (rest : List Char) :
    pieces (pad (c :: rest)) = [c] :: pieces (pad rest) := by
  have space : Text.isBlank ' ' = true := by decide
  have solid : ∀ d ∈ [c], Text.isBlank d = false := by
    intro d member
    rw [List.mem_singleton.mp member]
    exact isBlank_of_bracket bracket
  rw [pad_bracket bracket, pieces_cons space, pieces_append space,
    pieces_of_not_blank (List.cons_ne_nil c []) solid]
  rfl

/-- Where a word ends, the padded text is over or goes on with a blank. -/
theorem pad_of_ends (ends : Ends rest) :
    pad rest = [] ∨ ∃ c others, pad rest = c :: others ∧ Text.isBlank c = true := by
  cases rest with
  | nil => exact .inl rfl
  | cons c others =>
    refine .inr ?_
    by_cases bracket : c = '(' ∨ c = ')'
    · exact ⟨_, _, pad_bracket bracket others, by decide⟩
    · obtain ⟨opening, closing⟩ := not_or.mp bracket
      have blank : Text.isBlank c = true := by
        simpa [isPlain, opening, closing] using ends c others rfl
      exact ⟨c, pad others, pad_cons bracket others, blank⟩

theorem pieces_pad_word (nonempty : word ≠ []) (plain : ∀ c ∈ word, isPlain c = true)
    (ends : Ends rest) : pieces (pad (word ++ rest)) = word :: pieces (pad rest) := by
  have same : pad word = word := pad_of_forall_not fun c member =>
    have outside := isPlain_iff.mp (plain c member)
    not_or.mpr ⟨outside.1, outside.2.1⟩
  have alone : pieces word = [word] :=
    pieces_of_not_blank nonempty fun c member => (isPlain_iff.mp (plain c member)).2.2
  rw [pad_append, same]
  rcases pad_of_ends ends with empty | ⟨c, others, begins, blank⟩
  · rw [empty, List.append_nil, alone, pieces_nil]
  · rw [begins, pieces_append blank, pieces_cons blank, alone]
    rfl

theorem pieces_pad_blank (blank : Text.isBlank c = true) (rest : List Char) :
    pieces (pad (c :: rest)) = pieces (pad rest) := by
  rw [pad_cons (not_bracket_of_isBlank blank), pieces_cons blank]

/-! ### Agreement -/

theorem scanFrom_bracket (bracket : c = '(' ∨ c = ')') (rest : List Char) :
    scanFrom [] (c :: rest) = ofPiece [c] :: scanFrom [] rest := by
  rcases bracket with rfl | rfl
  · exact scanFrom_opening [] rest
  · exact scanFrom_closing [] rest

theorem scanFrom_plain_ends (nonempty : word ≠ []) (plain : ∀ c ∈ word, isPlain c = true)
    (ends : Ends rest) : scanFrom [] (word ++ rest) = ofPiece word :: scanFrom [] rest := by
  have is : IsWord (String.ofList word) := ⟨by simpa using nonempty, by simpa using plain⟩
  have one := scanFrom_word is ends
  rwa [String.toList_ofList, ← ofPiece_word plain] at one

theorem scanFrom_blank (blank : Text.isBlank c = true) (rest : List Char) :
    scanFrom [] (c :: rest) = scanFrom [] rest := by
  obtain ⟨opening, closing⟩ := not_or.mp (not_bracket_of_isBlank blank)
  rw [scanFrom, if_neg opening, if_neg closing, if_pos blank]
  rfl

namespace Finds

/-- Splitting the padded text gives the pieces that are found. -/
theorem pieces_pad (finds : Finds text found) : pieces (pad text) = found := by
  induction finds with
  | finish => exact pieces_nil
  | found front _ ih =>
    cases front with
    | bracket bracket => rw [pieces_pad_bracket bracket, ih]
    | word nonempty plain ends => rw [pieces_pad_word nonempty plain ends, ih]
  | skip nothing _ ih => rw [pieces_pad_blank (forall_not_front_iff.mp nothing), ih]

/-- Scanning gives the pieces that are found as tokens. -/
theorem scanFrom_eq (finds : Finds text found) : scanFrom [] text = found.map ofPiece := by
  induction finds with
  | finish => rfl
  | found front _ ih =>
    cases front with
    | bracket bracket => rw [scanFrom_bracket bracket, ih, List.map_cons]
    | word nonempty plain ends => rw [scanFrom_plain_ends nonempty plain ends, ih, List.map_cons]
  | skip nothing _ ih => rw [scanFrom_blank (forall_not_front_iff.mp nothing), ih]

/-- All but the blanks is found. -/
theorem flatten_eq (finds : Finds text found) :
    found.flatten = text.filter fun c => !Text.isBlank c := by
  induction finds with
  | finish => rfl
  | found front _ ih =>
    cases front with
    | bracket bracket => simp [isBlank_of_bracket bracket, ih]
    | word _ plain _ => rw [List.flatten_cons, ih, List.filter_append, filter_plain plain]
  | skip nothing _ ih => simp [forall_not_front_iff.mp nothing, ih]

end Finds

theorem finds_iff : Finds text found ↔ found = pieces (pad text) := by
  refine ⟨fun finds => finds.pieces_pad.symm, ?_⟩
  rintro rfl
  obtain ⟨found, finds⟩ := exists_finds text
  rwa [finds.pieces_pad]

theorem scan_eq_pieces (text : String) : scan text = (pieces (pad text.toList)).map ofPiece :=
  (finds_iff.mpr rfl).scanFrom_eq

/-- Texts with blanks between them are cut apart from each other. -/
theorem scan_append {between : String} (nonempty : between ≠ "")
    (blank : Text.isBlankText between = true) (text other : String) :
    scan (text ++ between ++ other) = scan text ++ scan other := by
  rw [Text.isBlankText] at blank
  have padded : pieces (pad (text ++ between ++ other).toList) =
      pieces (pad text.toList) ++ pieces (pad other.toList) := by
    cases run : between.toList with
    | nil => exact absurd (String.toList_eq_nil_iff.mp run) nonempty
    | cons c blanks =>
      have all := blank
      rw [run, List.all_cons, Bool.and_eq_true] at all
      rw [String.toList_append, String.toList_append, pad_append, pad_append, pad_of_all blank, run,
        List.append_assoc, List.cons_append, pieces_append all.1, pieces_append_of_all all.2]
  rw [scan_eq_pieces, scan_eq_pieces, scan_eq_pieces, padded, List.map_append]

/-- Scanning is padding the brackets with spaces, splitting at the blanks and taking the pieces for
tokens, and these pieces are the ones that looking for brackets and longest runs of plain characters
finds, and the only ones. The text of an atom is not empty and has neither blanks nor brackets, no
character is lost but the blanks, and a text is scanned as its parts before and after a run of
blanks are. -/
theorem scan_pads_and_splits (text : String) :
    scan text = (pieces (pad text.toList)).map ofPiece ∧
    (∀ found, Finds text.toList found ↔ found = pieces (pad text.toList)) ∧
    (∀ atom, .atom atom ∈ scan text → atom ≠ "" ∧
      ∀ c ∈ atom.toList, c ≠ '(' ∧ c ≠ ')' ∧ Text.isBlank c = false) ∧
    (scan text).flatMap chars = text.toList.filter (fun c => !Text.isBlank c) ∧
    ∀ between other : String, between ≠ "" → Text.isBlankText between = true →
      scan (text ++ between ++ other) = scan text ++ scan other := by
  refine ⟨scan_eq_pieces text, fun found => finds_iff, fun atom member => ?_, ?_,
    fun between other nonempty blank => scan_append nonempty blank text other⟩
  · have word : IsWord atom := isWord_of_mem_scanFrom (List.forall_mem_nil _) member
    exact ⟨word.ne_empty, fun c inside => isPlain_iff.mp (word.plain c inside)⟩
  · have all : (pieces (pad text.toList)).flatten = text.toList.filter fun c => !Text.isBlank c :=
      (finds_iff.mpr rfl).flatten_eq
    rw [scan_eq_pieces, List.flatMap_map, ← all]
    simp [chars_ofPiece, List.flatMap_id']

/-- Brackets that touch atoms and each other, and a no-break space. -/
theorem scan_pads_and_splits_touching :
    let text := "((f)x)"
    scan text = [.opening, .opening, .atom "f", .closing, .atom "x", .closing] ∧
      (∀ c ∈ "f".toList, c ≠ '(' ∧ c ≠ ')' ∧ Text.isBlank c = false) ∧
      scan (text ++ "\u00A0" ++ "y") = scan text ++ scan "y" := by
  intro text
  have tokens : scan text = [.opening, .opening, .atom "f", .closing, .atom "x", .closing] := by
    decide
  obtain ⟨_, _, words, _, apart⟩ := scan_pads_and_splits text
  exact ⟨tokens, (words "f" (by simp [tokens])).2, apart "\u00A0" "y" (by decide) (by decide)⟩

end MiniLisp.Token
