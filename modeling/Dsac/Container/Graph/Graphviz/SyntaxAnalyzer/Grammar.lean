import Dsac.Container.Graph.Graphviz.SyntaxAnalyzer

namespace Dsac.Graphviz

/-! The grammar of the DOT subset: its trees, the token sequences they are printed to, and
the syntax trees they stand for. -/

namespace Grammar

structure Attribute where
  key : Text
  value : Text
  /-- the value is a literal, not an identifier -/
  isLiteral : Bool

structure Node where
  name : Text
  attributes : Option (List Attribute)

/-- Operands joined by connections. -/
inductive Chain (α : Type) where
  | last (operand : α)
  | link (operand : α) (connection : Connection) (others : Chain α)

structure Graph (α : Type) where
  kind : GraphKind
  name : Text
  statements : List (Chain α)

def connectionText : Connection → Text
  | .direct => kDirectConnection
  | .undirect => kUndirectConnection

def graphText : GraphKind → Text
  | .direct => kDirectGraph
  | .undirect => kUndirectGraph

def Attribute.tokens (attr : Attribute) : List (Token × Text) :=
  [(.identifier, attr.key), (.operator, kAssignOperator),
    (if attr.isLiteral then .literal else .identifier, attr.value)]

def Attribute.toAst (attr : Attribute) : Ast.Attribute := ⟨attr.key, attr.value⟩

def attributesTokens : Option (List Attribute) → List (Token × Text)
  | none => []
  | some attrs =>
      (.punctuator, kOpenSquareBracket) ::
        (attrs.flatMap Attribute.tokens ++ [(.punctuator, kCloseSquareBracket)])

def Node.tokens (node : Node) : List (Token × Text) :=
  (.identifier, node.name) :: attributesTokens node.attributes

def Node.toAst (node : Node) : Ast.Node := ⟨node.name, node.attributes.map (·.map Attribute.toAst)⟩

/-- The tokens of an operand that may be missing. -/
def operandTokens : Option Node → List (Token × Text)
  | none => []
  | some node => node.tokens

namespace Chain

variable {α β : Type}

def map (change : α → β) : Chain α → Chain β
  | last operand => last (change operand)
  | link operand connection others => link (change operand) connection (others.map change)

def tokens : Chain (Option Node) → List (Token × Text)
  | last operand => operandTokens operand
  | link operand connection others =>
      operandTokens operand ++ (.operator, connectionText connection) :: others.tokens

/-- The tree of a chain nests to the right. -/
def toAst : Chain (Option Node) → Ast.Statement
  | last operand => .ofNode (operand.map Node.toAst)
  | link operand connection others => .edge connection (operand.map Node.toAst) others.toAst

end Chain

def statementTokens (chain : Chain (Option Node)) : List (Token × Text) :=
  chain.tokens ++ [(.punctuator, kSemicolcon)]

namespace Graph

def map {α β : Type} (change : α → β) (graph : Graph α) : Graph β :=
  ⟨graph.kind, graph.name, graph.statements.map (·.map change)⟩

def tokens (graph : Graph (Option Node)) : List (Token × Text) :=
  (.keyword, graphText graph.kind) :: (.identifier, graph.name) :: (.punctuator, kOpenCurlyBracket) ::
    (graph.statements.flatMap statementTokens ++ [(.punctuator, kCloseCurlyBracket)])

def toAst (graph : Graph (Option Node)) : Ast.Graph :=
  ⟨graph.kind, graph.name, graph.statements.map Chain.toAst⟩

end Graph

end Grammar

/-- The tokenizer returns the tokens and is then at `after`. -/
def Reads {σ : Type} [Tokenizer σ] : List (Token × Text) → σ → σ → Prop
  | [], source, after => source = after
  | token :: tokens, source, after =>
      (Tokenizer.getNextToken source).1 = token ∧ Reads tokens (Tokenizer.getNextToken source).2 after

instance instDecidableReads {σ : Type} [Tokenizer σ] [DecidableEq σ] :
    (tokens : List (Token × Text)) → (source after : σ) → Decidable (Reads tokens source after)
  | [], source, after => inferInstanceAs (Decidable (source = after))
  | token :: tokens, source, after =>
      have := instDecidableReads tokens (Tokenizer.getNextToken source).2 after
      inferInstanceAs (Decidable ((Tokenizer.getNextToken source).1 = token ∧ _))

section

variable {σ : Type} [Tokenizer σ] {source after : σ} {token : Token × Text} {tokens others : List (Token × Text)}

@[simp] theorem reads_nil : Reads [] source after ↔ source = after := Iff.rfl

@[simp] theorem reads_cons : Reads (token :: tokens) source after ↔
    (Tokenizer.getNextToken source).1 = token ∧ Reads tokens (Tokenizer.getNextToken source).2 after :=
  Iff.rfl

theorem reads_append : Reads (tokens ++ others) source after ↔
    ∃ middle, Reads tokens source middle ∧ Reads others middle after := by
  induction tokens generalizing source with
  | nil => simp
  | cons token tokens ih => simp [ih, and_assoc]

/-- Tokens other than `eof` use up the tokenizer. -/
theorem Reads.unread (reads : Reads tokens source after) (proper : ∀ token ∈ tokens, token.1 ≠ .eof) :
    Tokenizer.unread after + tokens.length ≤ Tokenizer.unread source := by
  induction tokens generalizing source with
  | nil =>
      cases reads
      exact Nat.le_refl _
  | cons token tokens ih =>
      obtain ⟨next, rest⟩ := reads
      have here : (Tokenizer.getNextToken source).1.1 ≠ .eof := next ▸ proper token List.mem_cons_self
      have used := Tokenizer.unread_lt source here
      have later := ih rest fun token member => proper token (List.mem_cons_of_mem _ member)
      rw [List.length_cons]
      omega

end

end Dsac.Graphviz
