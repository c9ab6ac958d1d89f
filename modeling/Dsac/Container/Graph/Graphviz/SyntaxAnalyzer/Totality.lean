import Dsac.Container.Graph.Graphviz.SyntaxAnalyzer.RoundTrip

namespace Dsac.Graphviz.SyntaxAnalyzer

open Grammar

variable {σ : Type} [Tokenizer σ] {α β : Type} {source : σ} {fuel : Nat}

/-- The routine throws `unexpected_syntax`, or it returns a value that its reading of the
tokens accounts for, with the next token fetched. -/
def Returns (reading : α → σ → Prop) (outcome : Outcome (α × SyntaxAnalyzer σ)) : Prop :=
  (∃ value after, outcome = .ok (value, start after) ∧ reading value after) ∨
    outcome = .error .unexpectedSyntax

theorem Returns.throw (reading : α → σ → Prop) : Returns reading (.error .unexpectedSyntax) := Or.inr rfl

theorem Returns.value {reading : α → σ → Prop} {value : α} {after : σ} (holds : reading value after) :
    Returns reading (.ok (value, start after)) := Or.inl ⟨value, after, rfl, holds⟩

theorem Returns.bind {reading : α → σ → Prop} {further : β → σ → Prop}
    {outcome : Outcome (α × SyntaxAnalyzer σ)} {next : α × SyntaxAnalyzer σ → Outcome (β × SyntaxAnalyzer σ)}
    (first : Returns reading outcome)
    (rest : ∀ value after, reading value after → Returns further (next (value, start after))) :
    Returns further (outcome >>= next) := by
  obtain ⟨value, after, rfl, holds⟩ | rfl := first
  · exact rest value after holds
  · exact Returns.throw further

theorem getToken_returns (type : Token) :
    Returns (fun text after => Reads [(type, text)] source after) ((start source).getToken type) := by
  by_cases same : (Tokenizer.getNextToken source).1.1 = type
  · rw [getToken_of_next (show _ = (type, _) from Prod.ext same rfl)]
    exact Returns.value ⟨Prod.ext same rfl, rfl⟩
  · rw [getToken, start_currentToken, if_neg same]
    exact Returns.throw _

theorem attributeValue_returns :
    Returns (fun value after => ∃ isLiteral : Bool,
        Reads [(if isLiteral then .literal else .identifier, value)] source after)
      (start source).attributeValue := by
  by_cases identifier : (Tokenizer.getNextToken source).1.1 = .identifier
  · have next : (Tokenizer.getNextToken source).1 = (if false then .literal else .identifier,
      (Tokenizer.getNextToken source).1.2) := Prod.ext identifier rfl
    rw [attributeValue_of_reads next]
    exact Returns.value ⟨false, next, rfl⟩
  by_cases literal : (Tokenizer.getNextToken source).1.1 = .literal
  · have next : (Tokenizer.getNextToken source).1 = (if true then .literal else .identifier,
      (Tokenizer.getNextToken source).1.2) := Prod.ext literal rfl
    rw [attributeValue_of_reads next]
    exact Returns.value ⟨true, next, rfl⟩
  · simp only [attributeValue, getTokenMaybe_of_other identifier, getTokenMaybe_of_other literal]
    exact Returns.throw _

theorem attribute_returns (starts : (Tokenizer.getNextToken source).1.1 = .identifier) :
    Returns (fun attr after => ∃ tree : Attribute, attr = some tree.toAst ∧ Reads tree.tokens source after)
      (start source).attribute' := by
  rw [attribute', start_currentToken, if_neg (not_not.mpr starts)]
  apply (getToken_returns .identifier).bind
  intro key middle readKey
  apply (getToken_returns .operator).bind
  intro assign following readAssign
  by_cases other : assign ≠ kAssignOperator
  · simp only [if_pos other]
    exact Returns.throw _
  simp only [if_neg other]
  apply attributeValue_returns.bind
  rintro value after ⟨isLiteral, readValue⟩
  rw [not_not.mp other] at readAssign
  exact Returns.value ⟨⟨key, value, isLiteral⟩, rfl,
    reads_append.mpr ⟨middle, readKey, reads_append.mpr ⟨following, readAssign, readValue⟩⟩⟩

theorem attributes_returns (enough : Tokenizer.unread source < fuel) :
    Returns (fun attrs after => ∃ trees : List Attribute, attrs = trees.map Attribute.toAst ∧
        Reads (trees.flatMap Attribute.tokens) source after)
      ((start source).attributes fuel) := by
  induction fuel generalizing source with
  | zero => exact absurd enough (Nat.not_lt_zero _)
  | succ fuel ih =>
      rw [attributes]
      by_cases starts : (Tokenizer.getNextToken source).1.1 = .identifier
      · apply (attribute_returns starts).bind
        rintro _ middle ⟨tree, rfl, reads⟩
        have used := reads.unread (by simpa using proper_attributes [tree])
        have fewer : tree.tokens.length = 3 := rfl
        apply (ih (show Tokenizer.unread middle < fuel by omega)).bind
        rintro _ after ⟨trees, rfl, others⟩
        exact Returns.value ⟨tree :: trees, rfl, reads_append.mpr ⟨middle, reads, others⟩⟩
      · rw [attribute_of_stop starts]
        exact Returns.value ⟨[], rfl, rfl⟩

theorem attributesList_returns (enough : Tokenizer.unread source ≤ fuel) :
    Returns (fun attrs after => ∃ trees : Option (List Attribute), attrs = trees.map (·.map Attribute.toAst) ∧
        Reads (attributesTokens trees) source after)
      ((start source).attributesList fuel) := by
  rw [attributesList, start_currentToken]
  by_cases absent : (Tokenizer.getNextToken source).1.2 ≠ kOpenSquareBracket
  · rw [if_pos absent]
    exact Returns.value ⟨none, rfl, rfl⟩
  rw [if_neg absent]
  apply (getToken_returns .punctuator).bind
  intro opening middle readOpening
  have used := readOpening.unread (by simp)
  apply (attributes_returns (show Tokenizer.unread middle < fuel by simp at used; omega)).bind
  rintro _ following ⟨trees, rfl, readAttributes⟩
  apply (getToken_returns .punctuator).bind
  intro bracket after readBracket
  by_cases other : bracket ≠ kCloseSquareBracket
  · simp only [if_pos other]
    exact Returns.throw _
  simp only [if_neg other]
  have bracketText : opening = kOpenSquareBracket := by
    have same : (Tokenizer.getNextToken source).1.2 = opening := congrArg Prod.snd readOpening.1
    rw [← same]
    exact not_not.mp absent
  rw [bracketText] at readOpening
  rw [not_not.mp other] at readBracket
  exact Returns.value ⟨some trees, rfl, reads_append.mpr ⟨middle, readOpening,
    reads_append.mpr ⟨following, readAttributes, readBracket⟩⟩⟩

theorem nodeStatement_returns (enough : Tokenizer.unread source ≤ fuel) :
    Returns (fun node after => ∃ tree : Option Node, node = tree.map Node.toAst ∧
        Reads (operandTokens tree) source after)
      ((start source).nodeStatement fuel) := by
  rw [nodeStatement]
  by_cases starts : (Tokenizer.getNextToken source).1.1 = .identifier
  · have name : (Tokenizer.getNextToken source).1 = (.identifier, (Tokenizer.getNextToken source).1.2) :=
      Prod.ext starts rfl
    have used := Tokenizer.unread_lt source (by rw [starts]; rintro ⟨⟩)
    rw [getTokenMaybe_of_next name]
    apply (attributesList_returns (show _ ≤ fuel by omega)).bind
    rintro _ after ⟨trees, rfl, reads⟩
    exact Returns.value ⟨some ⟨_, trees⟩, rfl, name, reads⟩
  · rw [getTokenMaybe_of_other starts]
    exact Returns.value ⟨none, rfl, rfl⟩

theorem connectionText_of_kind {operator : Text} (listed : operator ∈ kConnectionOperator) :
    ∃ connection, operator = connectionText connection := by
  simp only [kConnectionOperator, List.mem_cons, List.not_mem_nil, or_false] at listed
  rcases listed with rfl | rfl
  · exact ⟨.direct, rfl⟩
  · exact ⟨.undirect, rfl⟩

theorem statement_returns (enough : Tokenizer.unread source < fuel) :
    Returns (fun stmt after => ∃ chain : Chain (Option Node), stmt = chain.toAst ∧
        Reads chain.tokens source after)
      ((start source).statement fuel) := by
  induction fuel generalizing source with
  | zero => exact absurd enough (Nat.not_lt_zero _)
  | succ fuel ih =>
      rw [statement]
      apply (nodeStatement_returns (Nat.le_of_lt_succ enough)).bind
      rintro _ middle ⟨operand, rfl, left⟩
      have passed := left.unread (proper_operand operand)
      by_cases linked : (Tokenizer.getNextToken middle).1.1 = .operator
      · have operator : (Tokenizer.getNextToken middle).1 = (.operator, (Tokenizer.getNextToken middle).1.2) :=
          Prod.ext linked rfl
        have used := Tokenizer.unread_lt middle (by rw [linked]; rintro ⟨⟩)
        simp only [getTokenMaybe_of_next operator]
        by_cases listed : (Tokenizer.getNextToken middle).1.2 ∈ kConnectionOperator
        · obtain ⟨connection, text⟩ := connectionText_of_kind listed
          rw [text, getConnectionKind_text]
          apply (ih (show Tokenizer.unread _ < fuel by omega)).bind
          rintro _ after ⟨others, rfl, right⟩
          rw [text] at operator
          exact Returns.value ⟨.link operand connection others, rfl, reads_append.mpr ⟨middle, left, operator, right⟩⟩
        · rw [getConnectionKind, if_neg listed]
          exact Returns.throw _
      · simp only [getTokenMaybe_of_other linked]
        exact Returns.value ⟨.last operand, rfl, left⟩

theorem statementList_returns (enough : Tokenizer.unread source + 1 < fuel) :
    Returns (fun stmts after => ∃ chains : List (Chain (Option Node)), stmts = chains.map Chain.toAst ∧
        (∀ chain ∈ chains, chain ≠ .last none) ∧ Reads (chains.flatMap statementTokens) source after)
      ((start source).statementList fuel) := by
  induction fuel generalizing source with
  | zero => exact absurd enough (Nat.not_lt_zero _)
  | succ fuel ih =>
      rw [statementList]
      apply (statement_returns (Nat.lt_of_succ_lt_succ enough)).bind
      rintro _ middle ⟨chain, rfl, reads⟩
      by_cases empty : chain.toAst = .empty
      · have nothing : chain = .last none := by_contra fun present => toAst_ne_empty present empty
        rw [nothing] at reads
        simp only [if_pos empty]
        exact Returns.value ⟨[], rfl, by simp, reads⟩
      · simp only [if_neg empty]
        apply (getToken_returns .punctuator).bind
        intro semicolon following readSemicolon
        by_cases other : semicolon ≠ kSemicolcon
        · simp only [if_pos other]
          exact Returns.throw _
        simp only [if_neg other]
        have passed := reads.unread (proper_chain chain)
        have used := readSemicolon.unread (by simp)
        rw [List.length_singleton] at used
        apply (ih (show Tokenizer.unread following + 1 < fuel by omega)).bind
        rintro _ after ⟨chains, rfl, present, others⟩
        rw [not_not.mp other] at readSemicolon
        have nonempty : chain ≠ .last none := by
          rintro rfl
          exact empty rfl
        exact Returns.value ⟨chain :: chains, rfl, List.forall_mem_cons.mpr ⟨nonempty, present⟩,
          reads_append.mpr ⟨following, reads_append.mpr ⟨middle, reads, readSemicolon⟩, others⟩⟩

theorem graph_returns (enough : Tokenizer.unread (Tokenizer.getNextToken source).2 < fuel) :
    Returns (fun ast after => ∃ tree : Graph (Option Node), ast = tree.toAst ∧
        (∀ chain ∈ tree.statements, chain ≠ .last none) ∧ Reads tree.tokens source after)
      ((start source).graph fuel) := by
  rw [graph]
  apply (getToken_returns .keyword).bind
  intro graphType named readKeyword
  by_cases unknown : graphType ∉ kGraphTypes
  · simp only [if_pos unknown]
    exact Returns.throw _
  simp only [if_neg unknown]
  apply (getToken_returns .identifier).bind
  intro graphName opened readName
  apply (getToken_returns .punctuator).bind
  intro opening inside readOpening
  by_cases other : opening ≠ kOpenCurlyBracket
  · simp only [if_pos other]
    exact Returns.throw _
  simp only [if_neg other]
  obtain ⟨kind, rfl⟩ : ∃ kind, graphType = graphText kind := by
    simp only [kGraphTypes, List.mem_cons, List.not_mem_nil, or_false, not_not] at unknown
    rcases unknown with rfl | rfl
    · exact ⟨.undirect, rfl⟩
    · exact ⟨.direct, rfl⟩
  rw [getGraphKind_text]
  have first := readName.unread (by simp)
  have second := readOpening.unread (by simp)
  rw [List.length_singleton] at first second
  have here : (Tokenizer.getNextToken source).2 = named := readKeyword.2
  rw [here] at enough
  apply (statementList_returns (show Tokenizer.unread inside + 1 < fuel by omega)).bind
  rintro _ closed ⟨chains, rfl, present, readStatements⟩
  apply (getToken_returns .punctuator).bind
  intro closing after readClosing
  by_cases unclosed : closing ≠ kCloseCurlyBracket
  · simp only [if_pos unclosed]
    exact Returns.throw _
  simp only [if_neg unclosed]
  rw [not_not.mp other] at readOpening
  rw [not_not.mp unclosed] at readClosing
  have body := reads_append.mpr ⟨closed, readStatements, readClosing⟩
  have whole := reads_append.mpr ⟨named, readKeyword, reads_append.mpr ⟨opened, readName,
    reads_append.mpr ⟨inside, readOpening, body⟩⟩⟩
  exact Returns.value ⟨⟨kind, graphName, chains⟩, rfl, present, whole⟩

/-- `parse` terminates: it throws `unexpected_syntax`, or it returns the syntax tree of a
graph of the grammar, some of whose node statements may be missing. -/
theorem parse_returns (source : σ) :
    Returns (fun ast after => ∃ tree : Graph (Option Node), ast = tree.toAst ∧
        (∀ chain ∈ tree.statements, chain ≠ .last none) ∧ Reads tree.tokens source after)
      (start source).parse := graph_returns (Nat.lt_succ_self _)

end Dsac.Graphviz.SyntaxAnalyzer
