import Dsac.Container.Graph.Graphviz.LexicalAnalyzer.Recognition

namespace Dsac.Graphviz

/-- What the parser needs of a tokenizer: past at most `unread` tokens it returns `eof`. -/
class Tokenizer (σ : Type) where
  getNextToken : σ → (Token × Text) × σ
  unread : σ → Nat
  unread_lt : ∀ source, (getNextToken source).1.1 ≠ .eof → unread (getNextToken source).2 < unread source

theorem LexicalAnalyzer.rest_lt (lexer : LexicalAnalyzer) (found : lexer.getNextToken.1.1 ≠ .eof) :
    lexer.getNextToken.2.rest.length < lexer.rest.length := by
  obtain ⟨gap, _, ⟨type, text, after, spelled, _, shape, called⟩ | ⟨after, _, called⟩⟩ :=
    lexer.getNextToken_cases
  · obtain ⟨first, others, rfl, _⟩ := spelled.starts
    rw [called, rest_advance, shape]
    simp only [List.length_drop, List.length_append, List.length_cons]
    omega
  · rw [called] at found
    exact absurd rfl found

instance : Tokenizer LexicalAnalyzer where
  getNextToken := LexicalAnalyzer.getNextToken
  unread lexer := lexer.rest.length
  unread_lt := LexicalAnalyzer.rest_lt

def nextOfList : List (Token × Text) → (Token × Text) × List (Token × Text)
  | [] => (kTokenFallback, [])
  | token :: tokens => (token, tokens)

/-- A token sequence is its own tokenizer. -/
instance : Tokenizer (List (Token × Text)) where
  getNextToken := nextOfList
  unread := List.length
  unread_lt tokens found := by
    cases tokens with
    | nil => exact absurd rfl found
    | cons token tokens => exact Nat.lt_succ_self _

/-! The abstract syntax tree. A reference that may be null is an option, or a `Statement`
whose `empty` is the null reference. -/

inductive Connection where
  | direct
  | undirect
deriving DecidableEq, Repr

inductive GraphKind where
  | direct
  | undirect
deriving DecidableEq, Repr

namespace Ast

structure Attribute where
  key : Text
  value : Text
deriving DecidableEq, Repr

structure Node where
  name : Text
  attributes : Option (List Attribute)
deriving DecidableEq, Repr

inductive Statement where
  | empty
  | node (node : Node)
  | edge (connection : Connection) (left : Option Node) (right : Statement)
deriving DecidableEq, Repr

def Statement.ofNode : Option Node → Statement
  | none => .empty
  | some named => .node named

structure Graph where
  kind : GraphKind
  name : Text
  statements : List Statement
deriving DecidableEq, Repr

end Ast

/-! `graphviz_syntax_analyzer`. -/

structure SyntaxAnalyzer (σ : Type) where
  tokenizer : σ
  currentToken : Token × Text
deriving DecidableEq, Repr

def kGraphTypes : List Text := [kUndirectGraph, kDirectGraph]

def kConnectionOperator : List Text := [kDirectConnection, kUndirectConnection]

def getConnectionKind (connection : Text) : Outcome Connection :=
  if connection ∈ kConnectionOperator then
    .ok (if connection = kDirectConnection then .direct else .undirect)
  else
    .error .unexpectedSyntax

def getGraphKind (graph : Text) : Outcome GraphKind :=
  if graph ∈ kGraphTypes then
    .ok (if graph = kDirectGraph then .direct else .undirect)
  else
    .error .unexpectedSyntax

namespace SyntaxAnalyzer

variable {σ : Type} [Tokenizer σ]

/-- The constructor, which fetches the first token. -/
def start (tokenizer : σ) : SyntaxAnalyzer σ where
  tokenizer := (Tokenizer.getNextToken tokenizer).2
  currentToken := (Tokenizer.getNextToken tokenizer).1

def getToken (expected : Token) (analyzer : SyntaxAnalyzer σ) : Outcome (Text × SyntaxAnalyzer σ) :=
  if analyzer.currentToken.1 = expected then
    .ok (analyzer.currentToken.2, start analyzer.tokenizer)
  else
    .error .unexpectedSyntax

def getTokenMaybe (expected : Token) (analyzer : SyntaxAnalyzer σ) : Option Text × SyntaxAnalyzer σ :=
  if analyzer.currentToken.1 = expected then
    (some analyzer.currentToken.2, start analyzer.tokenizer)
  else
    (none, analyzer)

def attributeValue (analyzer : SyntaxAnalyzer σ) : Outcome (Text × SyntaxAnalyzer σ) :=
  match analyzer.getTokenMaybe .identifier with
  | (some value, analyzer) => .ok (value, analyzer)
  | (none, analyzer) =>
      match analyzer.getTokenMaybe .literal with
      | (some value, analyzer) => .ok (value, analyzer)
      | (none, _) => .error .unexpectedSyntax

def attribute' (analyzer : SyntaxAnalyzer σ) : Outcome (Option Ast.Attribute × SyntaxAnalyzer σ) :=
  if analyzer.currentToken.1 ≠ .identifier then
    .ok (none, analyzer)
  else do
    let (key, analyzer) ← analyzer.getToken .identifier
    let (assign, analyzer) ← analyzer.getToken .operator
    if assign ≠ kAssignOperator then
      .error .unexpectedSyntax
    else
      let (value, analyzer) ← analyzer.attributeValue
      .ok (some ⟨key, value⟩, analyzer)

/-- The loop of `attributes_list`. -/
def attributes : Nat → SyntaxAnalyzer σ → Outcome (List Ast.Attribute × SyntaxAnalyzer σ)
  | 0, _ => .error .fuel
  | fuel + 1, analyzer => do
      match ← analyzer.attribute' with
      | (none, analyzer) => .ok ([], analyzer)
      | (some attr, analyzer) =>
          let (others, analyzer) ← attributes fuel analyzer
          .ok (attr :: others, analyzer)

def attributesList (fuel : Nat) (analyzer : SyntaxAnalyzer σ) :
    Outcome (Option (List Ast.Attribute) × SyntaxAnalyzer σ) :=
  if analyzer.currentToken.2 ≠ kOpenSquareBracket then
    .ok (none, analyzer)
  else do
    let (_, analyzer) ← analyzer.getToken .punctuator
    let (attrs, analyzer) ← analyzer.attributes fuel
    let (bracket, analyzer) ← analyzer.getToken .punctuator
    if bracket ≠ kCloseSquareBracket then
      .error .unexpectedSyntax
    else
      .ok (some attrs, analyzer)

def nodeStatement (fuel : Nat) (analyzer : SyntaxAnalyzer σ) :
    Outcome (Option Ast.Node × SyntaxAnalyzer σ) :=
  match analyzer.getTokenMaybe .identifier with
  | (none, analyzer) => .ok (none, analyzer)
  | (some name, analyzer) => do
      let (attrs, analyzer) ← analyzer.attributesList fuel
      .ok (some ⟨name, attrs⟩, analyzer)

def statement : Nat → SyntaxAnalyzer σ → Outcome (Ast.Statement × SyntaxAnalyzer σ)
  | 0, _ => .error .fuel
  | fuel + 1, analyzer => do
      let (leftNode, analyzer) ← analyzer.nodeStatement fuel
      match analyzer.getTokenMaybe .operator with
      | (some operator, analyzer) =>
          let connection ← getConnectionKind operator
          let (right, analyzer) ← statement fuel analyzer
          .ok (.edge connection leftNode right, analyzer)
      | (none, analyzer) => .ok (.ofNode leftNode, analyzer)

def statementList : Nat → SyntaxAnalyzer σ → Outcome (List Ast.Statement × SyntaxAnalyzer σ)
  | 0, _ => .error .fuel
  | fuel + 1, analyzer => do
      let (stmt, analyzer) ← analyzer.statement fuel
      if stmt = .empty then
        .ok ([], analyzer)
      else
        let (semicolon, analyzer) ← analyzer.getToken .punctuator
        if semicolon ≠ kSemicolcon then
          .error .unexpectedSyntax
        else
          let (others, analyzer) ← statementList fuel analyzer
          .ok (stmt :: others, analyzer)

def graph (fuel : Nat) (analyzer : SyntaxAnalyzer σ) : Outcome (Ast.Graph × SyntaxAnalyzer σ) := do
  let (graphType, analyzer) ← analyzer.getToken .keyword
  if graphType ∉ kGraphTypes then
    .error .unexpectedSyntax
  else
    let (graphName, analyzer) ← analyzer.getToken .identifier
    let (opening, analyzer) ← analyzer.getToken .punctuator
    if opening ≠ kOpenCurlyBracket then
      .error .unexpectedSyntax
    else
      let graphKind ← getGraphKind graphType
      let (statements, analyzer) ← analyzer.statementList fuel
      let (closing, analyzer) ← analyzer.getToken .punctuator
      if closing ≠ kCloseCurlyBracket then
        .error .unexpectedSyntax
      else
        .ok (⟨graphKind, graphName, statements⟩, analyzer)

/-- `parse`. Every iteration and every recursive call consumes a token, so that the tokens
not read yet bound their number. -/
def parse (analyzer : SyntaxAnalyzer σ) : Outcome (Ast.Graph × SyntaxAnalyzer σ) :=
  analyzer.graph (Tokenizer.unread analyzer.tokenizer + 1)

end SyntaxAnalyzer

end Dsac.Graphviz
