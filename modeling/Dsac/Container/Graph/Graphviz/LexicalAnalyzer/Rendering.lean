import Dsac.Container.Graph.Graphviz.LexicalAnalyzer.Recognition

namespace Dsac.Graphviz

/-- A token with a spelling of its class. -/
structure Lexeme where
  type : Token
  text : Text
  spelled : Spelled type text

/-- A run of blanks. -/
structure Gap where
  text : Text
  blank : Blank text

def Lexeme.token (lexeme : Lexeme) : Token × Text := (lexeme.type, lexeme.text)

/-- The next token would prolong this one if no blank stood between them. -/
def Lexeme.Runs (lexeme next : Lexeme) : Prop :=
  match lexeme.type with
  | .identifier | .keyword => ∃ first ∈ next.text.head?, first.isAlpha ∨ first.isDigit ∨ first = '-'
  | .literal => next.type = .literal
  | _ => False

/-- A gap stands wherever the token in front would run on. -/
def Separated (items : List (Gap × Lexeme)) : Prop :=
  items.IsChain fun item next => item.2.Runs next.2 → next.1.text ≠ []

/-- The text of tokens, each behind its gap, in front of `after`. -/
def render (after : Text) : List (Gap × Lexeme) → Text
  | [] => after
  | (gap, lexeme) :: items => gap.text ++ (lexeme.text ++ render after items)

theorem entity_not_isLiteral : ∀ ch ∈ ['-', '=', ';', '{', '}', '[', ']'], ¬ isLiteral ch := by simp [isLiteral]

theorem entity_not_isIdentifier :
    ∀ ch ∈ ['-', '=', ';', '{', '}', '[', ']'], ch ≠ '-' → ¬ isIdentifier ch := by simp [isIdentifier, Char.isAlphanum]

theorem isAlpha_not_isLiteral {ch : Char} (alpha : ch.isAlpha) : ¬ isLiteral ch := by
  intro literal
  simp only [isLiteral, Bool.or_eq_true, decide_eq_true_eq] at literal
  rcases literal with digit | rfl
  · exact isDigit_not_isAlpha digit alpha
  · exact absurd alpha (by decide)

/-- The first character of a token either is one of those that prolong a word, or it
cannot stand in one. -/
theorem Starts.isIdentifier_iff {type : Token} {ch : Char} (starts : Starts type ch) :
    isIdentifier ch ↔ ch.isAlpha ∨ ch.isDigit ∨ ch = '-' := by
  constructor
  · intro symbol
    cases type with
    | identifier => exact Or.inl starts
    | keyword => exact Or.inl starts
    | literal => exact Or.inr (Or.inl starts)
    | operator =>
        exact Or.inr (Or.inr (by_contra fun other => entity_not_isIdentifier ch starts other symbol))
    | punctuator =>
        exact Or.inr (Or.inr (by_contra fun other => entity_not_isIdentifier ch starts other symbol))
    | eof => exact starts.elim
  · intro prolongs
    rcases prolongs with alpha | digit | rfl
    · exact isIdentifier_of_isAlpha alpha
    · exact isIdentifier_of_isDigit digit
    · rfl

theorem Starts.isLiteral_iff {type : Token} {ch : Char} (starts : Starts type ch) :
    isLiteral ch ↔ type = .literal := by
  cases type with
  | identifier => simpa using isAlpha_not_isLiteral starts
  | keyword => simpa using isAlpha_not_isLiteral starts
  | literal => simpa using isLiteral_of_isDigit starts
  | operator => simpa using entity_not_isLiteral ch starts
  | punctuator => simpa using entity_not_isLiteral ch starts
  | eof => exact starts.elim

/-- A token is over where the next one starts, unless it runs on into it. -/
theorem Lexeme.ends_iff (lexeme next : Lexeme) (others : Text) :
    Ends lexeme.type (next.text ++ others) ↔ ¬ lexeme.Runs next := by
  obtain ⟨first, tail, shape, starts⟩ := next.spelled.starts
  cases type : lexeme.type with
  | identifier => simpa [Ends, Runs, type, shape] using not_congr starts.isIdentifier_iff
  | keyword => simpa [Ends, Runs, type, shape] using not_congr starts.isIdentifier_iff
  | literal => simpa [Ends, Runs, type, shape] using not_congr starts.isLiteral_iff
  | operator => simp [Ends, Runs, type]
  | punctuator => simp [Ends, Runs, type]
  | eof => simp [Ends, Runs, type]

theorem isSpace_bounds {ch : Char} (space : isSpace ch) : ch.toNat ≤ 32 := by
  simp only [isSpace, Bool.or_eq_true, Bool.and_eq_true, decide_eq_true_eq] at space
  omega

theorem isSpace_not_isIdentifier {ch : Char} (space : isSpace ch) : ¬ isIdentifier ch := by
  intro symbol
  simp only [isIdentifier, Char.isAlphanum, Bool.or_eq_true, decide_eq_true_eq] at symbol
  rcases symbol with ((alpha | digit) | rfl) | rfl
  · exact isAlpha_not_isSpace alpha space
  · exact isDigit_not_isSpace digit space
  · exact absurd space (by decide)
  · exact absurd space (by decide)

theorem isSpace_not_isLiteral {ch : Char} (space : isSpace ch) : ¬ isLiteral ch := by
  intro symbol
  simp only [isLiteral, Bool.or_eq_true, decide_eq_true_eq] at symbol
  rcases symbol with digit | rfl
  · exact isDigit_not_isSpace digit space
  · exact absurd space (by decide)

theorem ends_of_isSpace {type : Token} {after : Text} (space : ∀ ch ∈ after.head?, isSpace ch) :
    Ends type after := by
  cases type with
  | identifier => exact fun ch head => isSpace_not_isIdentifier (space ch head)
  | keyword => exact fun ch head => isSpace_not_isIdentifier (space ch head)
  | literal => exact fun ch head => isSpace_not_isLiteral (space ch head)
  | operator => trivial
  | punctuator => trivial
  | eof => trivial

theorem Blank.ends {gap : Text} (blank : Blank gap) (type : Token) : Ends type gap := by
  apply ends_of_isSpace
  intro ch head
  exact blank ch (List.mem_of_mem_head? head)

/-- The token in front is over where the rendering of the others begins. -/
theorem Separated.ends {gap : Gap} {lexeme : Lexeme} {items : List (Gap × Lexeme)} {after : Text}
    (separated : Separated ((gap, lexeme) :: items)) (last : items = [] → Ends lexeme.type after) :
    Ends lexeme.type (render after items) := by
  cases items with
  | nil => exact last rfl
  | cons item items =>
      obtain ⟨between, next⟩ := item
      have apart : lexeme.Runs next → between.text ≠ [] := List.IsChain.rel separated
      obtain ⟨blanks, blank⟩ := between
      cases blanks with
      | nil =>
          apply (lexeme.ends_iff next (render after items)).mpr
          exact fun runs => apart runs rfl
      | cons first others =>
          apply ends_of_isSpace
          intro ch head
          cases head
          exact blank first List.mem_cons_self

theorem Separated.tail {item : Gap × Lexeme} {items : List (Gap × Lexeme)}
    (separated : Separated (item :: items)) : Separated items := List.IsChain.tail separated

namespace LexicalAnalyzer

variable {lexer : LexicalAnalyzer} {gap : Gap} {lexeme : Lexeme} {items : List (Gap × Lexeme)} {after : Text}

/-- One call on a rendered text consumes its first token. -/
theorem getNextToken_render (separated : Separated ((gap, lexeme) :: items))
    (last : items = [] → Ends lexeme.type after)
    (shape : lexer.rest = render after ((gap, lexeme) :: items)) :
    lexer.getNextToken = (lexeme.token, lexer.advance (gap.text.length + lexeme.text.length)) ∧
      lexer.getNextToken.2.rest = render after items := by
  have called : lexer.getNextToken =
      ((lexeme.type, lexeme.text), lexer.advance (gap.text.length + lexeme.text.length)) :=
    getNextToken_of_token gap.blank lexeme.spelled (separated.ends last) shape
  refine ⟨called, ?_⟩
  rw [called, rest_advance, shape, render, ← List.append_assoc, ← List.length_append, List.drop_left]

/-- Repeated calls on a rendered text return its tokens in order and then `eof` forever. -/
theorem nextTokens_render (separated : Separated items) (after : Gap) (count : Nat) :
    nextTokens count { graphviz := render after.text items } =
      (items.map (fun item => item.2.token) ++ List.replicate count kTokenFallback).take count := by
  suffices anywhere : ∀ (lexer : LexicalAnalyzer) (after : Gap), lexer.rest = render after.text items →
      nextTokens count lexer =
        (items.map (fun item => item.2.token) ++ List.replicate count kTokenFallback).take count by
    exact anywhere _ after rfl
  induction count generalizing items with
  | zero => exact fun _ _ _ => rfl
  | succ count ih =>
      intro lexer after shape
      cases items with
      | nil =>
          have blank : Blank lexer.rest := shape ▸ after.blank
          have called := getNextToken_of_blank blank
          have left : lexer.getNextToken.2.rest = [] := by
            rw [called, rest_advance, List.drop_length]
          have further := @ih [] List.IsChain.nil lexer.getNextToken.2 ⟨[], fun _ member => nomatch member⟩ left
          rw [nextTokens, further, called]
          simp [List.replicate_succ]
      | cons item items =>
          obtain ⟨gap, lexeme⟩ := item
          obtain ⟨called, left⟩ := getNextToken_render separated (fun _ => after.blank.ends _) shape
          have further := ih separated.tail lexer.getNextToken.2 after left
          rw [nextTokens, further, called]
          simp [List.replicate_succ', List.take_append, ← List.append_assoc]

theorem nextTokens_render_digraph :
    nextTokens 4 { graphviz := kDirectGraph ++ [' ', 'a', '{', ' '] } =
      [(.keyword, kDirectGraph), (.identifier, ['a']), (.punctuator, ['{']), (.eof, [])] :=
  let none : Gap := ⟨[], by simp [Blank]⟩
  let space : Gap := ⟨[' '], by simp [Blank, isSpace]⟩
  let keyword : Lexeme := ⟨.keyword, kDirectGraph, List.mem_cons_of_mem _ List.mem_cons_self⟩
  let name : Lexeme := ⟨.identifier, ['a'], ⟨'a', [], rfl, by decide, by simp⟩, by decide⟩
  let bracket : Lexeme := ⟨.punctuator, ['{'], List.mem_cons_of_mem _ List.mem_cons_self⟩
  have separated : Separated [(none, keyword), (space, name), (none, bracket)] :=
    .cons_cons (fun _ => List.cons_ne_nil _ _) (.cons_cons (by simp [Lexeme.Runs, name, bracket]) (.singleton _))
  nextTokens_render separated space 4

end LexicalAnalyzer

end Dsac.Graphviz
