import Dsac.Fault

namespace Dsac.Graphviz

/-! `graphviz_lexical_analyzer`. A source text is its list of characters. -/

abbrev Text := List Char

instance : LawfulBEq Text := inferInstance

/-- `enum class token`. -/
inductive Token where
  | identifier
  | keyword
  | literal
  | operator
  | punctuator
  | eof
deriving DecidableEq, Repr

def kUndirectGraph : Text := ['g', 'r', 'a', 'p', 'h']
def kDirectGraph : Text := ['d', 'i', 'g', 'r', 'a', 'p', 'h']
def kDirectConnection : Text := ['-', '>']
def kUndirectConnection : Text := ['-', '-']
def kAssignOperator : Text := ['=']
def kOpenCurlyBracket : Text := ['{']
def kCloseCurlyBracket : Text := ['}']
def kOpenSquareBracket : Text := ['[']
def kCloseSquareBracket : Text := [']']
def kSemicolcon : Text := [';']

def kKeywords : List Text := [kUndirectGraph, kDirectGraph]

def kOperators : List (Char × List Text) :=
  [('-', [kUndirectConnection, kDirectConnection]), ('=', [kAssignOperator])]

def kPunctuations : List (Char × List Text) :=
  [(';', [kSemicolcon]), ('{', [kOpenCurlyBracket]), ('}', [kCloseCurlyBracket]),
    ('[', [kOpenSquareBracket]), (']', [kCloseSquareBracket])]

def kTokenFallback : Token × Text := (.eof, [])

/-- `std::isspace` in the C locale: the blank and the characters from `\t` to `\r`. -/
def isSpace (ch : Char) : Bool := ch.toNat = 32 || (9 ≤ ch.toNat && ch.toNat ≤ 13)

def isIdentifier (ch : Char) : Bool := ch.isAlphanum || ch = '_' || ch = '-'

def isLiteral (ch : Char) : Bool := ch.isDigit || ch = '.'

structure LexicalAnalyzer where
  graphviz : Text
  sp : Nat := 0
deriving DecidableEq, Repr

namespace LexicalAnalyzer

/-- The characters from the position on. -/
def rest (lexer : LexicalAnalyzer) : Text := lexer.graphviz.drop lexer.sp

def advance (lexer : LexicalAnalyzer) (count : Nat) : LexicalAnalyzer :=
  { lexer with sp := lexer.sp + count }

/-- `std::max_element` of a non-empty set of entities. -/
def maxCombination (entity : List Text) : Text :=
  entity.foldl (fun largest candidate => if largest < candidate then candidate else largest) []

/-- The `do` loop of `get_next`, whose window shrinks until an entity matches. -/
def getNextEntity (type : Token) (entity : List Text) (lexer : LexicalAnalyzer) :
    Nat → Option ((Token × Text) × LexicalAnalyzer)
  | 0 => none
  | size + 1 =>
      if lexer.rest.take (size + 1) ∈ entity then
        some ((type, lexer.rest.take (size + 1)), lexer.advance (size + 1))
      else
        getNextEntity type entity lexer size

/-- `get_next`, with the table of the token type. -/
def getNext (type : Token) (entities : List (Char × List Text)) (lexer : LexicalAnalyzer) :
    Option ((Token × Text) × LexicalAnalyzer) :=
  match lexer.rest with
  | [] => some (kTokenFallback, lexer)
  | first :: _ =>
      match entities.lookup first with
      | none => none
      | some entity =>
          getNextEntity type entity lexer (min (maxCombination entity).length lexer.rest.length)

/-- `get_next<token::keyword>`. -/
def getNextKeyword (lexer : LexicalAnalyzer) : Option ((Token × Text) × LexicalAnalyzer) :=
  match lexer.rest with
  | [] => some (kTokenFallback, lexer)
  | first :: _ =>
      if first.isAlpha then
        let word := lexer.rest.takeWhile isIdentifier
        some ((if word ∈ kKeywords then .keyword else .identifier, word), lexer.advance word.length)
      else
        none

/-- `get_next<token::literal>`. -/
def getNextLiteral (lexer : LexicalAnalyzer) : Option ((Token × Text) × LexicalAnalyzer) :=
  match lexer.rest with
  | [] => some (kTokenFallback, lexer)
  | first :: _ =>
      if first.isDigit then
        let literal := lexer.rest.takeWhile isLiteral
        some ((.literal, literal), lexer.advance literal.length)
      else
        none

def skipSpaces (lexer : LexicalAnalyzer) : LexicalAnalyzer :=
  lexer.advance (lexer.rest.takeWhile isSpace).length

def getNextToken (lexer : LexicalAnalyzer) : (Token × Text) × LexicalAnalyzer :=
  let lexer := lexer.skipSpaces
  (getNextKeyword lexer <|> getNextLiteral lexer <|> getNext .punctuator kPunctuations lexer <|>
    getNext .operator kOperators lexer).getD (kTokenFallback, lexer)

/-- The results of the first calls of `getNextToken`. -/
def nextTokens : Nat → LexicalAnalyzer → List (Token × Text)
  | 0, _ => []
  | count + 1, lexer => lexer.getNextToken.1 :: nextTokens count lexer.getNextToken.2

end LexicalAnalyzer

end Dsac.Graphviz
