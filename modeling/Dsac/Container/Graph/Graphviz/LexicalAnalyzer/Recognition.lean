import Dsac.Container.Graph.Graphviz.LexicalAnalyzer.Spelling

namespace Dsac.Graphviz.LexicalAnalyzer

variable {lexer : LexicalAnalyzer} {gap text after : Text} {type : Token}

/-! Before an entity the first two recognisers decline, and so does the third before an
operator. -/

theorem recognise_punctuator {first : Char} {others : Text} (notAlpha : ¬ first.isAlpha)
    (notDigit : ¬ first.isDigit) (shape : lexer.rest = first :: others) :
    (getNextKeyword lexer <|> getNextLiteral lexer <|> getNext .punctuator kPunctuations lexer <|>
        getNext .operator kOperators lexer) =
      (getNext .punctuator kPunctuations lexer <|> getNext .operator kOperators lexer) := by
  rw [getNextKeyword_of_other notAlpha shape, getNextLiteral_of_other notDigit shape]
  rfl

theorem recognise_operator {first : Char} {others : Text} (notAlpha : ¬ first.isAlpha)
    (notDigit : ¬ first.isDigit) (unlisted : kPunctuations.lookup first = none)
    (shape : lexer.rest = first :: others) :
    (getNextKeyword lexer <|> getNextLiteral lexer <|> getNext .punctuator kPunctuations lexer <|>
        getNext .operator kOperators lexer) = getNext .operator kOperators lexer := by
  rw [recognise_punctuator notAlpha notDigit shape, getNext_of_other unlisted shape]
  rfl

/-- A one-character entity is recognised whatever follows it. -/
theorem getNext_of_single {entities : List (Char × List Text)} {first : Char}
    (listed : entities.lookup first = some [[first]]) (shape : lexer.rest = first :: after) :
    getNext type entities lexer = some ((type, [first]), lexer.advance 1) := by
  have largest : maxCombination [[first]] = [first] := by
    have above : ([] : Text) < [first] := List.nil_lt_cons first []
    simp only [maxCombination, List.foldl_cons, List.foldl_nil, above, if_true]
  rw [getNext_of_lookup listed shape, largest]
  simp [getNextEntity, shape]

/-- The longest of the operators that start with a dash wins. -/
theorem getNext_of_connection {second : Char} (connects : ['-', second] ∈ [kUndirectConnection, kDirectConnection])
    (shape : lexer.rest = '-' :: second :: after) :
    getNext .operator kOperators lexer = some ((.operator, ['-', second]), lexer.advance 2) := by
  have window : min (maxCombination [kUndirectConnection, kDirectConnection]).length
      ((second :: after).length + 1) = 2 := by
    have largest : maxCombination [kUndirectConnection, kDirectConnection] = kDirectConnection := by decide
    rw [largest, List.length_cons]
    simp only [kDirectConnection, List.length_cons, List.length_nil]
    omega
  have listed : kOperators.lookup '-' = some [kUndirectConnection, kDirectConnection] := rfl
  rw [getNext_of_lookup listed shape, window, getNextEntity, shape]
  exact if_pos connects

theorem getNext_of_lone_dash (alone : ∀ ch ∈ after.head?, ch ≠ '-' ∧ ch ≠ '>')
    (shape : lexer.rest = '-' :: after) : getNext .operator kOperators lexer = none := by
  have listed : kOperators.lookup '-' = some [kUndirectConnection, kDirectConnection] := rfl
  have largest : maxCombination [kUndirectConnection, kDirectConnection] = kDirectConnection := by decide
  have single : getNextEntity .operator [kUndirectConnection, kDirectConnection] lexer 1 = none := by
    simp [getNextEntity, shape, kUndirectConnection, kDirectConnection]
  rw [getNext_of_lookup listed shape, largest]
  cases after with
  | nil => exact single
  | cons second others =>
      have other := alone second rfl
      have window : min kDirectConnection.length ((second :: others).length + 1) = 1 + 1 := by
        simp only [kDirectConnection, List.length_cons, List.length_nil]
        omega
      have unlisted : lexer.rest.take (1 + 1) ∉ [kUndirectConnection, kDirectConnection] := by
        simp [shape, kUndirectConnection, kDirectConnection, other.1, other.2]
      rw [window, getNextEntity, if_neg unlisted]
      exact single

/-- At the start of a token the first recogniser that accepts returns it. -/
theorem recognise_token (spelled : Spelled type text) (ends : Ends type after)
    (shape : lexer.rest = text ++ after) :
    (getNextKeyword lexer <|> getNextLiteral lexer <|> getNext .punctuator kPunctuations lexer <|>
        getNext .operator kOperators lexer) = some ((type, text), lexer.advance text.length) := by
  cases type with
  | identifier =>
      rw [getNextKeyword_of_word spelled.1 ends shape, if_neg spelled.2]
      rfl
  | keyword =>
      have keyword : text ∈ kKeywords := spelled
      rw [getNextKeyword_of_word (word_of_mem_kKeywords spelled) ends shape, if_pos keyword]
      rfl
  | literal =>
      obtain ⟨first, others, rfl, digit, symbols⟩ := spelled
      rw [getNextKeyword_of_other (isDigit_not_isAlpha digit) shape,
        getNextLiteral_of_literal digit symbols ends shape]
      rfl
  | operator =>
      simp only [Spelled, List.mem_cons, List.not_mem_nil, or_false] at spelled
      rcases spelled with rfl | rfl | rfl
      · rw [recognise_operator (by decide) (by decide) rfl shape,
          getNext_of_connection (List.mem_cons_self) shape]
        rfl
      · rw [recognise_operator (by decide) (by decide) rfl shape,
          getNext_of_connection (List.mem_cons_of_mem _ List.mem_cons_self) shape]
        rfl
      · rw [recognise_operator (by decide) (by decide) rfl shape, getNext_of_single rfl shape]
        rfl
  | punctuator =>
      simp only [Spelled, List.mem_cons, List.not_mem_nil, or_false] at spelled
      rcases spelled with rfl | rfl | rfl | rfl | rfl
      all_goals
        rw [recognise_punctuator (by decide) (by decide) shape, getNext_of_single rfl shape]
        rfl
  | eof => exact spelled.elim

theorem rest_skipSpaces (blank : Blank gap) (starts : ∀ ch ∈ after.head?, ¬ isSpace ch)
    (shape : lexer.rest = gap ++ after) : lexer.skipSpaces = lexer.advance gap.length := by
  rw [skipSpaces, shape, takeWhile_run blank starts]

/-- `get_next_token` before a token and the blanks in front of it. -/
theorem getNextToken_of_token (blank : Blank gap) (spelled : Spelled type text) (ends : Ends type after)
    (shape : lexer.rest = gap ++ (text ++ after)) :
    lexer.getNextToken = ((type, text), lexer.advance (gap.length + text.length)) := by
  have starts : ∀ ch ∈ (text ++ after).head?, ¬ isSpace ch := by
    obtain ⟨first, others, rfl, starts⟩ := spelled.starts
    intro ch head
    cases head
    exact starts.not_isSpace
  have skipped : lexer.skipSpaces = lexer.advance gap.length := rest_skipSpaces blank starts shape
  have here : (lexer.advance gap.length).rest = text ++ after := by
    rw [rest_advance, shape, List.drop_left]
  rw [getNextToken, skipped, recognise_token spelled ends here, advance_advance]
  rfl

/-- `get_next_token` before nothing but blanks. -/
theorem getNextToken_of_blank (blank : Blank lexer.rest) :
    lexer.getNextToken = (kTokenFallback, lexer.advance lexer.rest.length) := by
  have skipped : lexer.skipSpaces = lexer.advance lexer.rest.length :=
    rest_skipSpaces blank (by simp) (List.append_nil _).symm
  have empty : (lexer.advance lexer.rest.length).rest = [] := by
    rw [rest_advance, List.drop_length]
  rw [getNextToken, skipped]
  simp only [getNextKeyword, empty]
  rfl

/-- The text starts with a token, or no recogniser accepts it. -/
theorem recognise_cases (lexer : LexicalAnalyzer) :
    (∃ type text after, Spelled type text ∧ Ends type after ∧ lexer.rest = text ++ after) ∨
      (getNextKeyword lexer <|> getNextLiteral lexer <|> getNext .punctuator kPunctuations lexer <|>
        getNext .operator kOperators lexer).getD (kTokenFallback, lexer) = (kTokenFallback, lexer) := by
  cases shape : lexer.rest with
  | nil =>
      right
      simp only [getNextKeyword, shape]
      rfl
  | cons first others =>
      have token : ∀ {type text after}, Spelled type text → Ends type after → first :: others = text ++ after →
          (∃ type text after, Spelled type text ∧ Ends type after ∧ first :: others = text ++ after) :=
        fun spelled ends split => ⟨_, _, _, spelled, ends, split⟩
      by_cases alpha : first.isAlpha
      · obtain ⟨run, after, symbols, stops, split⟩ := exists_run isIdentifier others
        have word : Word (first :: run) := ⟨first, run, rfl, alpha, symbols⟩
        left
        by_cases keyword : first :: run ∈ kKeywords
        · exact @token .keyword _ _ keyword stops (by rw [split, List.cons_append])
        · exact @token .identifier _ _ ⟨word, keyword⟩ stops (by rw [split, List.cons_append])
      by_cases digit : first.isDigit
      · obtain ⟨run, after, symbols, stops, split⟩ := exists_run isLiteral others
        left
        exact @token .literal (first :: run) _ ⟨first, run, rfl, digit, symbols⟩ stops
          (by rw [split, List.cons_append])
      by_cases punctuator : [first] ∈ [kSemicolcon, kOpenCurlyBracket, kCloseCurlyBracket, kOpenSquareBracket,
          kCloseSquareBracket]
      · left
        exact @token .punctuator [first] others punctuator trivial rfl
      have unlisted : kPunctuations.lookup first = none := by
        simp only [kSemicolcon, kOpenCurlyBracket, kCloseCurlyBracket, kOpenSquareBracket, kCloseSquareBracket,
          List.mem_cons, List.cons.injEq, and_true, List.not_mem_nil, or_false, not_or] at punctuator
        obtain ⟨one, two, three, four, five⟩ := punctuator
        simp [kPunctuations, List.lookup_cons, beq_false_of_ne one, beq_false_of_ne two, beq_false_of_ne three,
          beq_false_of_ne four, beq_false_of_ne five]
      rw [recognise_operator alpha digit unlisted shape]
      by_cases assign : first = '='
      · left
        exact @token .operator [first] others (by simp [Spelled, assign, kAssignOperator]) trivial rfl
      by_cases dash : first = '-'
      · subst dash
        by_cases alone : ∀ ch ∈ others.head?, ch ≠ '-' ∧ ch ≠ '>'
        · right
          rw [getNext_of_lone_dash alone shape]
          rfl
        · left
          push Not at alone
          obtain ⟨second, head, follows⟩ := alone
          obtain ⟨after, rfl⟩ : ∃ after, others = second :: after := by
            cases others with
            | nil => cases head
            | cons next after =>
                cases head
                exact ⟨after, rfl⟩
          have connects : second = '-' ∨ second = '>' := by
            by_cases same : second = '-'
            · exact Or.inl same
            · exact Or.inr (follows same)
          apply @token .operator ['-', second] after _ trivial rfl
          rcases connects with rfl | rfl
          · exact List.mem_cons_self
          · exact List.mem_cons_of_mem _ List.mem_cons_self
      · right
        have other : kOperators.lookup first = none := by
          simp [kOperators, List.lookup_cons, beq_false_of_ne dash, beq_false_of_ne assign]
        rw [getNext_of_other other shape]
        rfl

/-- `get_next_token` returns the token in front of it, or `eof` at the first character
that starts none. -/
theorem getNextToken_cases (lexer : LexicalAnalyzer) :
    ∃ gap, Blank gap ∧
      ((∃ type text after, Spelled type text ∧ Ends type after ∧ lexer.rest = gap ++ (text ++ after) ∧
          lexer.getNextToken = ((type, text), lexer.advance (gap.length + text.length))) ∨
        ∃ after, lexer.rest = gap ++ after ∧
          lexer.getNextToken = (kTokenFallback, lexer.advance gap.length)) := by
  obtain ⟨gap, visible, blank, starts, split⟩ := exists_run isSpace lexer.rest
  have skipped : lexer.skipSpaces = lexer.advance gap.length := rest_skipSpaces blank starts split
  have here : (lexer.advance gap.length).rest = visible := by
    rw [rest_advance, split, List.drop_left]
  refine ⟨gap, blank, ?_⟩
  rcases recognise_cases (lexer.advance gap.length) with
    ⟨type, text, after, spelled, ends, shape⟩ | nothing
  · left
    have whole : lexer.rest = gap ++ (text ++ after) := by rw [split, ← here, shape]
    exact ⟨type, text, after, spelled, ends, whole, getNextToken_of_token blank spelled ends whole⟩
  · right
    refine ⟨visible, split, ?_⟩
    rw [getNextToken, skipped]
    exact nothing

end Dsac.Graphviz.LexicalAnalyzer
