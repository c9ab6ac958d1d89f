import Dsac.Container.Graph.Graphviz.SyntaxAnalyzer.Grammar

namespace Dsac.Graphviz.SyntaxAnalyzer

open Grammar

variable {σ : Type} [Tokenizer σ] {source after : σ} {type : Token} {text : Text} {fuel : Nat}

theorem start_currentToken (source : σ) :
    (start source).currentToken = (Tokenizer.getNextToken source).1 := rfl

theorem getToken_of_next (next : (Tokenizer.getNextToken source).1 = (type, text)) :
    (start source).getToken type = .ok (text, start (Tokenizer.getNextToken source).2) := by
  simp only [getToken, start, next, if_true]

theorem getTokenMaybe_of_next (next : (Tokenizer.getNextToken source).1 = (type, text)) :
    (start source).getTokenMaybe type = (some text, start (Tokenizer.getNextToken source).2) := by
  simp only [getTokenMaybe, start, next, if_true]

theorem getTokenMaybe_of_other (other : (Tokenizer.getNextToken source).1.1 ≠ type) :
    (start source).getTokenMaybe type = (none, start source) := by
  simp only [getTokenMaybe, start, other, if_false]

/-- The next token belongs to no operand. -/
def Leaves (source : σ) : Prop :=
  (Tokenizer.getNextToken source).1.1 ≠ .identifier ∧ (Tokenizer.getNextToken source).1.2 ≠ kOpenSquareBracket

/-- The next token continues no statement. -/
def Stops (source : σ) : Prop := Leaves source ∧ (Tokenizer.getNextToken source).1.1 ≠ .operator

theorem stops_of_punctuator (next : (Tokenizer.getNextToken source).1 = (.punctuator, text))
    (other : text ≠ kOpenSquareBracket) : Stops source := by
  rw [Stops, Leaves, next]
  exact ⟨⟨nofun, other⟩, nofun⟩

theorem leaves_of_connection {connection : Connection}
    (next : (Tokenizer.getNextToken source).1 = (.operator, connectionText connection)) : Leaves source := by
  rw [Leaves, next]
  cases connection with
  | direct => exact ⟨nofun, (by decide : kDirectConnection ≠ kOpenSquareBracket)⟩
  | undirect => exact ⟨nofun, (by decide : kUndirectConnection ≠ kOpenSquareBracket)⟩

theorem attributeValue_of_reads {value : Text} {isLiteral : Bool}
    (next : (Tokenizer.getNextToken source).1 = (if isLiteral then .literal else .identifier, value)) :
    (start source).attributeValue = .ok (value, start (Tokenizer.getNextToken source).2) := by
  cases isLiteral with
  | false =>
      have identifier : (Tokenizer.getNextToken source).1 = (.identifier, value) := next
      rw [attributeValue, getTokenMaybe_of_next identifier]
  | true =>
      have literal : (Tokenizer.getNextToken source).1 = (.literal, value) := next
      have other : (Tokenizer.getNextToken source).1.1 ≠ .identifier := by
        rw [literal]
        exact nofun
      simp only [attributeValue, getTokenMaybe_of_other other]
      rw [getTokenMaybe_of_next literal]

theorem attribute_of_reads {attr : Attribute} (reads : Reads attr.tokens source after) :
    (start source).attribute' = .ok (some attr.toAst, start after) := by
  obtain ⟨key, assign, value, rfl⟩ := reads
  have identifier : (start source).currentToken.1 = .identifier := by rw [start, key]
  rw [attribute', if_neg (not_not.mpr identifier), getToken_of_next key]
  simp only [Except.bind, bind, getToken_of_next assign, ne_eq, not_true_eq_false, if_false,
    attributeValue_of_reads value]
  rfl

theorem attribute_of_stop (other : (Tokenizer.getNextToken source).1.1 ≠ .identifier) :
    (start source).attribute' = .ok (none, start source) := by
  rw [attribute', if_pos]
  exact other

theorem proper_attributes (attrs : List Attribute) : ∀ token ∈ attrs.flatMap Attribute.tokens, token.1 ≠ .eof := by
  intro token member
  obtain ⟨attr, _, listed⟩ := List.mem_flatMap.mp member
  simp only [Attribute.tokens, List.mem_cons, List.not_mem_nil, or_false] at listed
  rcases listed with rfl | rfl | rfl
  · exact nofun
  · exact nofun
  · cases attr.isLiteral
    all_goals exact nofun

theorem length_attributes (attrs : List Attribute) :
    (attrs.flatMap Attribute.tokens).length = 3 * attrs.length := by
  induction attrs with
  | nil => rfl
  | cons attr attrs ih =>
      rw [List.flatMap_cons, List.length_append, ih, List.length_cons]
      simp only [Attribute.tokens, List.length_cons, List.length_nil]
      omega

/-- The loop reads all the attributes before a token that starts none. -/
theorem attributes_of_reads {attrs : List Attribute} (reads : Reads (attrs.flatMap Attribute.tokens) source after)
    (stops : (Tokenizer.getNextToken after).1.1 ≠ .identifier) (enough : attrs.length < fuel) :
    (start source).attributes fuel = .ok (attrs.map Attribute.toAst, start after) := by
  induction attrs generalizing source fuel with
  | nil =>
      cases reads
      cases fuel with
      | zero => exact absurd enough (Nat.lt_irrefl 0)
      | succ fuel =>
          rw [attributes, attribute_of_stop stops]
          rfl
  | cons attr attrs ih =>
      cases fuel with
      | zero => exact absurd enough (Nat.not_lt_zero _)
      | succ fuel =>
          obtain ⟨middle, first, others⟩ := reads_append.mp reads
          rw [attributes, attribute_of_reads first]
          simp only [Except.bind, bind, ih others (Nat.lt_of_succ_lt_succ enough)]
          rfl

theorem attributesList_of_reads {attrs : Option (List Attribute)} (reads : Reads (attributesTokens attrs) source after)
    (stops : (Tokenizer.getNextToken after).1.2 ≠ kOpenSquareBracket) (enough : Tokenizer.unread source ≤ fuel) :
    (start source).attributesList fuel = .ok (attrs.map (·.map Attribute.toAst), start after) := by
  cases attrs with
  | none =>
      cases reads
      rw [attributesList, start_currentToken, if_pos stops]
      rfl
  | some attrs =>
      obtain ⟨opening, inner⟩ := reads
      obtain ⟨middle, list, closing, rfl⟩ := reads_append.mp inner
      have bracket : ¬ (start source).currentToken.2 ≠ kOpenSquareBracket := by
        rw [start, opening]
        exact not_not.mpr rfl
      have stop : (Tokenizer.getNextToken middle).1.1 ≠ .identifier := by
        rw [closing]
        exact nofun
      have used := Tokenizer.unread_lt source (by rw [opening]; exact nofun)
      have size := list.unread (proper_attributes attrs)
      have counted : attrs.length ≤ (attrs.flatMap Attribute.tokens).length := by
        rw [length_attributes]
        omega
      rw [attributesList, if_neg bracket, getToken_of_next opening]
      simp only [Except.bind, bind, attributes_of_reads list stop (show attrs.length < fuel by omega),
        getToken_of_next closing, ne_eq, not_true_eq_false, if_false]
      rfl

theorem nodeStatement_of_reads {node : Option Node} (reads : Reads (operandTokens node) source after)
    (leaves : Leaves after) (enough : Tokenizer.unread source ≤ fuel) :
    (start source).nodeStatement fuel = .ok (node.map Node.toAst, start after) := by
  cases node with
  | none =>
      cases reads
      simp only [nodeStatement, getTokenMaybe_of_other leaves.1]
      rfl
  | some node =>
      obtain ⟨name, attrs⟩ := reads
      have used := Tokenizer.unread_lt source (by rw [name]; exact nofun)
      simp only [nodeStatement, getTokenMaybe_of_next name, Except.bind, bind,
        attributesList_of_reads attrs leaves.2 (show _ ≤ fuel by omega)]
      rfl

theorem getConnectionKind_text (connection : Connection) :
    getConnectionKind (connectionText connection) = .ok connection := by
  cases connection with
  | direct => decide
  | undirect => decide

theorem getGraphKind_text (kind : GraphKind) : getGraphKind (graphText kind) = .ok kind := by
  cases kind with
  | direct => decide
  | undirect => decide

theorem proper_operand (node : Option Node) : ∀ token ∈ operandTokens node, token.1 ≠ .eof := by
  obtain _ | ⟨name, _ | attrs⟩ := node
  · simp [operandTokens]
  · simp [operandTokens, Node.tokens, attributesTokens]
  · have inner := proper_attributes attrs
    simp only [operandTokens, Node.tokens, attributesTokens, List.mem_cons, List.mem_append, List.not_mem_nil,
      or_false]
    intro token member
    rcases member with rfl | rfl | member | rfl
    · exact nofun
    · exact nofun
    · exact inner token member
    · exact nofun

theorem proper_chain (chain : Chain (Option Node)) : ∀ token ∈ chain.tokens, token.1 ≠ .eof := by
  induction chain with
  | last operand => exact proper_operand operand
  | link operand connection others ih =>
      simp only [Chain.tokens, List.mem_append, List.mem_cons]
      intro token member
      rcases member with member | rfl | member
      · exact proper_operand operand token member
      · exact nofun
      · exact ih token member

/-- A chain is read up to a token that does not continue it. -/
theorem statement_of_reads {chain : Chain (Option Node)} (reads : Reads chain.tokens source after)
    (stops : Stops after) (enough : Tokenizer.unread source < fuel) :
    (start source).statement fuel = .ok (chain.toAst, start after) := by
  induction chain generalizing source fuel with
  | last operand =>
      cases fuel with
      | zero => exact absurd enough (Nat.not_lt_zero _)
      | succ fuel =>
          rw [statement, nodeStatement_of_reads reads stops.1 (Nat.le_of_lt_succ enough)]
          simp only [Except.bind, bind, getTokenMaybe_of_other stops.2]
          rfl
  | link operand connection others ih =>
      cases fuel with
      | zero => exact absurd enough (Nat.not_lt_zero _)
      | succ fuel =>
          obtain ⟨middle, left, operator, right⟩ := reads_append.mp reads
          have passed := left.unread (proper_operand operand)
          have used := Tokenizer.unread_lt middle (by rw [operator]; exact nofun)
          rw [statement, nodeStatement_of_reads left (leaves_of_connection operator) (Nat.le_of_lt_succ enough)]
          simp only [Except.bind, bind, getTokenMaybe_of_next operator, getConnectionKind_text,
            ih right (show _ < fuel by omega)]
          rfl

theorem toAst_ne_empty {chain : Chain (Option Node)} (present : chain ≠ .last none) :
    chain.toAst ≠ .empty := by
  cases chain with
  | last operand =>
      cases operand with
      | none => exact absurd rfl present
      | some node => exact nofun
  | link operand connection others => exact nofun

theorem proper_statement (chain : Chain (Option Node)) : ∀ token ∈ statementTokens chain, token.1 ≠ .eof := by
  intro token member
  rcases List.mem_append.mp member with member | member
  · exact proper_chain chain token member
  · cases List.mem_singleton.mp member
    exact nofun

theorem statementList_of_reads {chains : List (Chain (Option Node))} (present : ∀ chain ∈ chains, chain ≠ .last none)
    (reads : Reads (chains.flatMap statementTokens) source after) (stops : Stops after)
    (enough : Tokenizer.unread source + 1 < fuel) :
    (start source).statementList fuel = .ok (chains.map Chain.toAst, start after) := by
  induction chains generalizing source fuel with
  | nil =>
      cases reads
      cases fuel with
      | zero => exact absurd enough (Nat.not_lt_zero _)
      | succ fuel =>
          have missing : (start after).statement fuel = .ok (.empty, start after) :=
            @statement_of_reads _ _ _ _ _ (.last none) rfl stops (Nat.lt_of_succ_lt_succ enough)
          rw [statementList, missing]
          rfl
  | cons chain chains ih =>
      cases fuel with
      | zero => exact absurd enough (Nat.not_lt_zero _)
      | succ fuel =>
          obtain ⟨following, first, others⟩ := reads_append.mp reads
          obtain ⟨middle, statement, semicolon, rfl⟩ := reads_append.mp first
          have present := List.forall_mem_cons.mp present
          have ends : Stops middle := stops_of_punctuator semicolon (by decide)
          have passed := statement.unread (proper_chain chain)
          have used := Tokenizer.unread_lt middle (by rw [semicolon]; exact nofun)
          rw [statementList, statement_of_reads statement ends (Nat.lt_of_succ_lt_succ enough)]
          simp only [Except.bind, bind, toAst_ne_empty present.1, if_false, getToken_of_next semicolon, ne_eq,
            not_true_eq_false, ih present.2 others (show _ < fuel by omega)]
          rfl

theorem graph_of_reads {tree : Graph (Option Node)} (present : ∀ chain ∈ tree.statements, chain ≠ .last none)
    (reads : Reads tree.tokens source after)
    (enough : Tokenizer.unread (Tokenizer.getNextToken source).2 < fuel) :
    (start source).graph fuel = .ok (tree.toAst, start after) := by
  obtain ⟨keyword, name, opening, inner⟩ := reads
  obtain ⟨last, list, closing, rfl⟩ := reads_append.mp inner
  have ends : Stops last := stops_of_punctuator closing (by decide)
  have listed : graphText tree.kind ∈ kGraphTypes := by
    cases tree.kind with
    | direct => exact List.mem_cons_of_mem _ List.mem_cons_self
    | undirect => exact List.mem_cons_self
  have second := Tokenizer.unread_lt _ (show (Tokenizer.getNextToken _).1.1 ≠ .eof by rw [name]; exact nofun)
  have third := Tokenizer.unread_lt _ (show (Tokenizer.getNextToken _).1.1 ≠ .eof by rw [opening]; exact nofun)
  have inside := statementList_of_reads present list ends (show _ < fuel by omega)
  rw [graph, getToken_of_next keyword]
  simp only [Except.bind, bind, listed, not_true_eq_false, if_false, getToken_of_next name,
    getToken_of_next opening, ne_eq, getGraphKind_text, inside, getToken_of_next closing]
  rfl

/-- `parse` rebuilds the syntax tree from the tokens of any graph whose statements are not
empty, and reads nothing but them and one token of lookahead. -/
theorem parse_of_reads {tree : Graph (Option Node)} (present : ∀ chain ∈ tree.statements, chain ≠ .last none)
    (reads : Reads tree.tokens source after) :
    (start source).parse = .ok (tree.toAst, start after) :=
  graph_of_reads present reads (Nat.lt_succ_self _)

/-- A tree of the grammar that lacks no node statement. -/
theorem present_map (tree : Graph Node) : ∀ chain ∈ (tree.map some).statements, chain ≠ .last none := by
  intro chain member
  obtain ⟨chain, _, rfl⟩ := List.mem_map.mp member
  cases chain with
  | last operand => exact nofun
  | link operand connection others => exact nofun

/-- Printing a tree of the grammar to tokens and parsing them rebuilds its syntax tree,
whatever supplies the tokens. -/
theorem parse_tokens (tree : Graph Node) (reads : Reads (tree.map some).tokens source after) :
    (start source).parse = .ok ((tree.map some).toAst, start after) :=
  parse_of_reads (present_map tree) reads

theorem reads_list (tokens : List (Token × Text)) : Reads tokens tokens ([] : List (Token × Text)) := by
  induction tokens with
  | nil => rfl
  | cons token tokens ih => exact ⟨rfl, ih⟩

/-- The tree of `digraph a { b [c=1] -> d; }`. -/
def attributedEdge : Graph Node :=
  ⟨.direct, ['a'], [.link ⟨['b'], some [⟨['c'], ['1'], true⟩]⟩ .direct (.last ⟨['d'], none⟩)]⟩

theorem parse_tokens_attributedEdge :
    (start (attributedEdge.map some).tokens).parse =
      .ok ((attributedEdge.map some).toAst, start ([] : List (Token × Text))) :=
  parse_tokens attributedEdge (reads_list _)

end Dsac.Graphviz.SyntaxAnalyzer
