import Dsac.Container.Graph.Graphviz.LexicalAnalyzer

namespace Dsac.Graphviz

def Word (text : Text) : Prop :=
  ∃ first others, text = first :: others ∧ first.isAlpha ∧ ∀ ch ∈ others, isIdentifier ch

/-- The spellings of each class of tokens. -/
def Spelled : Token → Text → Prop
  | .identifier, text => Word text ∧ text ∉ kKeywords
  | .keyword, text => text ∈ kKeywords
  | .literal, text =>
      ∃ first others, text = first :: others ∧ first.isDigit ∧ ∀ ch ∈ others, isLiteral ch
  | .operator, text => text ∈ [kUndirectConnection, kDirectConnection, kAssignOperator]
  | .punctuator, text =>
      text ∈ [kSemicolcon, kOpenCurlyBracket, kCloseCurlyBracket, kOpenSquareBracket, kCloseSquareBracket]
  | .eof, _ => False

/-- The text after a token does not prolong it. -/
def Ends : Token → Text → Prop
  | .identifier, after | .keyword, after => ∀ ch ∈ after.head?, ¬ isIdentifier ch
  | .literal, after => ∀ ch ∈ after.head?, ¬ isLiteral ch
  | _, _ => True

/-- The characters of a run that starts a token. -/
def Blank (text : Text) : Prop := ∀ ch ∈ text, isSpace ch

theorem takeWhile_run {accepts : Char → Bool} {run after : Text} (accepted : ∀ ch ∈ run, accepts ch)
    (stops : ∀ ch ∈ after.head?, ¬ accepts ch) : (run ++ after).takeWhile accepts = run := by
  rw [List.takeWhile_append_of_pos accepted]
  cases after with
  | nil => simp
  | cons first others =>
      have stop : ¬ accepts first := stops first rfl
      rw [List.takeWhile_cons_of_neg stop, List.append_nil]

theorem exists_run (accepts : Char → Bool) (text : Text) :
    ∃ run after, (∀ ch ∈ run, accepts ch) ∧ (∀ ch ∈ after.head?, ¬ accepts ch) ∧ text = run ++ after := by
  induction text with
  | nil => exact ⟨[], [], by simp, by simp, rfl⟩
  | cons first others ih =>
      by_cases accepted : accepts first
      · obtain ⟨run, after, each, stops, rfl⟩ := ih
        exact ⟨first :: run, after, List.forall_mem_cons.mpr ⟨accepted, each⟩, stops, rfl⟩
      · exact ⟨[], first :: others, by simp, by simpa using accepted, rfl⟩

theorem isAlpha_bounds {ch : Char} (alpha : ch.isAlpha) : 65 ≤ ch.toNat ∧ ch.toNat ≤ 122 := by
  simp only [Char.isAlpha, Char.isUpper, Char.isLower, Bool.or_eq_true, Bool.and_eq_true, decide_eq_true_eq,
    UInt32.le_iff_toNat_le, ge_iff_le] at alpha
  have sameNat : ch.toNat = ch.val.toNat := rfl
  have upperFirst : 'A'.val.toNat = 65 := rfl
  have upperLast : 'Z'.val.toNat = 90 := rfl
  have lowerFirst : 'a'.val.toNat = 97 := rfl
  have lowerLast : 'z'.val.toNat = 122 := rfl
  omega

theorem isDigit_bounds {ch : Char} (digit : ch.isDigit) : 48 ≤ ch.toNat ∧ ch.toNat ≤ 57 := by
  simp only [Char.isDigit, Bool.and_eq_true, decide_eq_true_eq, UInt32.le_iff_toNat_le, ge_iff_le] at digit
  have sameNat : ch.toNat = ch.val.toNat := rfl
  have first : '0'.val.toNat = 48 := rfl
  have last : '9'.val.toNat = 57 := rfl
  omega

theorem isAlpha_not_isSpace {ch : Char} (alpha : ch.isAlpha) : ¬ isSpace ch := by
  have bounds := isAlpha_bounds alpha
  simp only [isSpace, Bool.or_eq_true, Bool.and_eq_true, decide_eq_true_eq]
  omega

theorem isDigit_not_isSpace {ch : Char} (digit : ch.isDigit) : ¬ isSpace ch := by
  have bounds := isDigit_bounds digit
  simp only [isSpace, Bool.or_eq_true, Bool.and_eq_true, decide_eq_true_eq]
  omega

theorem isDigit_not_isAlpha {ch : Char} (digit : ch.isDigit) : ¬ ch.isAlpha := by
  intro alpha
  have digitBounds := isDigit_bounds digit
  have alphaBounds := isAlpha_bounds alpha
  omega

theorem isIdentifier_of_isAlpha {ch : Char} (alpha : ch.isAlpha) : isIdentifier ch := by
  simp [isIdentifier, Char.isAlphanum, alpha]

theorem isIdentifier_of_isDigit {ch : Char} (digit : ch.isDigit) : isIdentifier ch := by
  simp [isIdentifier, Char.isAlphanum, digit]

theorem isLiteral_of_isDigit {ch : Char} (digit : ch.isDigit) : isLiteral ch := by
  simp [isLiteral, digit]

theorem word_of_mem_kKeywords {text : Text} (keyword : text ∈ kKeywords) : Word text := by
  simp only [kKeywords, List.mem_cons, List.not_mem_nil, or_false] at keyword
  rcases keyword with rfl | rfl
  · exact ⟨'g', ['r', 'a', 'p', 'h'], rfl, by decide, List.all_eq_true.mp rfl⟩
  · exact ⟨'d', ['i', 'g', 'r', 'a', 'p', 'h'], rfl, by decide, List.all_eq_true.mp rfl⟩

/-- The characters that a token of the class can start with. -/
def Starts : Token → Char → Prop
  | .identifier, ch | .keyword, ch => ch.isAlpha
  | .literal, ch => ch.isDigit
  | .operator, ch | .punctuator, ch => ch ∈ ['-', '=', ';', '{', '}', '[', ']']
  | .eof, _ => False

theorem Spelled.starts {type : Token} {text : Text} (spelled : Spelled type text) :
    ∃ first others, text = first :: others ∧ Starts type first := by
  cases type with
  | identifier =>
      obtain ⟨first, others, shape, alpha, _⟩ := spelled.1
      exact ⟨first, others, shape, alpha⟩
  | keyword =>
      obtain ⟨first, others, shape, alpha, _⟩ := word_of_mem_kKeywords spelled
      exact ⟨first, others, shape, alpha⟩
  | literal =>
      obtain ⟨first, others, shape, digit, _⟩ := spelled
      exact ⟨first, others, shape, digit⟩
  | operator =>
      simp only [Spelled, List.mem_cons, List.not_mem_nil, or_false] at spelled
      rcases spelled with rfl | rfl | rfl
      all_goals exact ⟨_, _, rfl, by simp [Starts]⟩
  | punctuator =>
      simp only [Spelled, List.mem_cons, List.not_mem_nil, or_false] at spelled
      rcases spelled with rfl | rfl | rfl | rfl | rfl
      all_goals exact ⟨_, _, rfl, by simp [Starts]⟩
  | eof => exact spelled.elim

theorem entity_not_isSpace : ∀ ch ∈ ['-', '=', ';', '{', '}', '[', ']'], ¬ isSpace ch := by simp [isSpace]

theorem Starts.not_isSpace {type : Token} {ch : Char} (starts : Starts type ch) : ¬ isSpace ch := by
  cases type with
  | identifier => exact isAlpha_not_isSpace starts
  | keyword => exact isAlpha_not_isSpace starts
  | literal => exact isDigit_not_isSpace starts
  | operator => exact entity_not_isSpace ch starts
  | punctuator => exact entity_not_isSpace ch starts
  | eof => exact starts.elim

namespace LexicalAnalyzer

variable {lexer : LexicalAnalyzer} {gap text after : Text} {type : Token}

@[simp] theorem rest_advance (lexer : LexicalAnalyzer) (count : Nat) :
    (lexer.advance count).rest = lexer.rest.drop count := by
  simp [rest, advance, List.drop_drop]

@[simp] theorem advance_advance (lexer : LexicalAnalyzer) (first second : Nat) :
    (lexer.advance first).advance second = lexer.advance (first + second) := by
  simp [advance, Nat.add_assoc]

@[simp] theorem advance_zero (lexer : LexicalAnalyzer) : lexer.advance 0 = lexer := rfl

/-! What the recognisers do on a text that starts with a token of theirs. -/

theorem getNextKeyword_of_word (word : Word text) (ends : ∀ ch ∈ after.head?, ¬ isIdentifier ch)
    (shape : lexer.rest = text ++ after) :
    getNextKeyword lexer =
      some ((if text ∈ kKeywords then .keyword else .identifier, text), lexer.advance text.length) := by
  obtain ⟨first, others, rfl, alpha, symbols⟩ := word
  have run : (first :: others ++ after).takeWhile isIdentifier = first :: others := by
    apply takeWhile_run _ ends
    intro ch member
    rcases List.mem_cons.mp member with rfl | member
    · exact isIdentifier_of_isAlpha alpha
    · exact symbols ch member
  simp only [getNextKeyword, shape, List.cons_append, alpha, if_true]
  rw [← List.cons_append, run]

theorem getNextKeyword_of_other {first : Char} {others : Text} (other : ¬ first.isAlpha)
    (shape : lexer.rest = first :: others) : getNextKeyword lexer = none := by
  simp only [getNextKeyword, shape, other, if_false, Bool.false_eq_true]

theorem getNextLiteral_of_literal {first : Char} {others : Text} (digit : first.isDigit)
    (symbols : ∀ ch ∈ others, isLiteral ch) (ends : ∀ ch ∈ after.head?, ¬ isLiteral ch)
    (shape : lexer.rest = first :: others ++ after) :
    getNextLiteral lexer =
      some ((.literal, first :: others), lexer.advance (first :: others).length) := by
  have run : (first :: others ++ after).takeWhile isLiteral = first :: others := by
    apply takeWhile_run _ ends
    intro ch member
    rcases List.mem_cons.mp member with rfl | member
    · exact isLiteral_of_isDigit digit
    · exact symbols ch member
  simp only [getNextLiteral, shape, List.cons_append, digit, if_true]
  rw [← List.cons_append, run]

theorem getNextLiteral_of_other {first : Char} {others : Text} (other : ¬ first.isDigit)
    (shape : lexer.rest = first :: others) : getNextLiteral lexer = none := by
  simp only [getNextLiteral, shape, other, if_false, Bool.false_eq_true]

theorem getNext_of_lookup {entities : List (Char × List Text)} {first : Char} {others : Text}
    {entity : List Text} (listed : entities.lookup first = some entity)
    (shape : lexer.rest = first :: others) :
    getNext type entities lexer =
      getNextEntity type entity lexer (min (maxCombination entity).length (others.length + 1)) := by
  simp only [getNext, shape, listed, List.length_cons]

theorem getNext_of_other {entities : List (Char × List Text)} {first : Char} {others : Text}
    (unlisted : entities.lookup first = none) (shape : lexer.rest = first :: others) :
    getNext type entities lexer = none := by
  simp only [getNext, shape, unlisted]

end LexicalAnalyzer

end Dsac.Graphviz
