import Dsac.Container.Graph.Graphviz.LexicalAnalyzer.Rendering
import Dsac.Container.Graph.Graphviz.SyntaxAnalyzer.Totality

namespace Dsac.Graphviz

open Grammar

/-- The text begins with a rendering of the tokens, and `leftover` follows it. -/
def Renders (tokens : List (Token × Text)) (text leftover : Text) : Prop :=
  ∃ items : List (Gap × Lexeme), items.map (fun item => item.2.token) = tokens ∧ Separated items ∧
    text = render leftover items

/-- The text is a rendering of a graph of the grammar, up to trailing blanks. -/
def Sentence (text : Text) : Prop :=
  ∃ (tree : Graph Node) (leftover : Text), Renders (tree.map some).tokens text leftover ∧ Blank leftover

/-- No node statement of the chain is missing. -/
def Grammar.Chain.Complete : Chain (Option Node) → Prop
  | last operand => operand.isSome
  | link operand _ others => operand.isSome ∧ others.Complete

/-- A graph whose statements are not empty. Node statements beside a connection may be
missing. -/
def Grammar.Graph.Loose (tree : Graph (Option Node)) : Prop :=
  ∀ chain ∈ tree.statements, chain ≠ .last none

def Grammar.Graph.Complete (tree : Graph (Option Node)) : Prop :=
  ∀ chain ∈ tree.statements, chain.Complete

theorem Grammar.Chain.exists_of_complete {chain : Chain (Option Node)} (complete : chain.Complete) :
    ∃ strict : Chain Node, chain = strict.map some := by
  induction chain with
  | last operand =>
      obtain ⟨node, rfl⟩ := Option.isSome_iff_exists.mp complete
      exact ⟨.last node, rfl⟩
  | link operand connection others ih =>
      obtain ⟨node, rfl⟩ := Option.isSome_iff_exists.mp complete.1
      obtain ⟨strict, rfl⟩ := ih complete.2
      exact ⟨.link node connection strict, rfl⟩

theorem Grammar.Chain.complete_map (strict : Chain Node) : (strict.map some).Complete := by
  induction strict with
  | last operand => rfl
  | link operand connection others ih => exact ⟨rfl, ih⟩

theorem Grammar.Graph.exists_of_complete {tree : Graph (Option Node)} (complete : tree.Complete) :
    ∃ strict : Graph Node, tree = strict.map some := by
  obtain ⟨kind, name, statements⟩ := tree
  suffices listed : ∃ stricts : List (Chain Node), statements = stricts.map (·.map some) by
    obtain ⟨stricts, rfl⟩ := listed
    exact ⟨⟨kind, name, stricts⟩, rfl⟩
  induction statements with
  | nil => exact ⟨[], rfl⟩
  | cons chain chains ih =>
      have complete := List.forall_mem_cons.mp complete
      obtain ⟨strict, rfl⟩ := Chain.exists_of_complete complete.1
      obtain ⟨stricts, rfl⟩ := ih complete.2
      exact ⟨strict :: stricts, rfl⟩

theorem Grammar.Graph.complete_map (tree : Graph Node) : (tree.map some).Complete := by
  intro chain member
  obtain ⟨strict, _, rfl⟩ := List.mem_map.mp member
  exact strict.complete_map

/-- Completeness shows in the syntax tree. -/
theorem Grammar.Chain.complete_of_toAst {chain other : Chain (Option Node)} (same : chain.toAst = other.toAst)
    (complete : other.Complete) : chain.Complete := by
  induction chain generalizing other with
  | last operand =>
      cases operand with
      | some node => rfl
      | none =>
          obtain ⟨strict, rfl⟩ := Chain.exists_of_complete complete
          cases strict with
          | last node => cases same
          | link node connection others => cases same
  | link operand connection others ih =>
      cases other with
      | last node =>
          obtain ⟨node, rfl⟩ := Option.isSome_iff_exists.mp complete
          cases same
      | link node connection further =>
          obtain ⟨_, left, right⟩ := Ast.Statement.edge.inj same
          refine ⟨?_, ih right complete.2⟩
          have shown := congrArg Option.isSome left
          rw [Option.isSome_map, Option.isSome_map] at shown
          rw [shown]
          exact complete.1

theorem Grammar.Graph.complete_of_toAst {tree other : Graph (Option Node)} (same : tree.toAst = other.toAst)
    (complete : other.Complete) : tree.Complete := by
  have statements : tree.statements.map Chain.toAst = other.statements.map Chain.toAst :=
    congrArg Ast.Graph.statements same
  intro chain member
  have listed : chain.toAst ∈ other.statements.map Chain.toAst :=
    statements ▸ List.mem_map_of_mem member
  obtain ⟨counterpart, found, equal⟩ := List.mem_map.mp listed
  exact Chain.complete_of_toAst equal.symm (complete counterpart found)

namespace LexicalAnalyzer

/-- The tokenizer reads what is rendered in front of it. -/
theorem reads_of_render {items : List (Gap × Lexeme)} {leftover : Text} (separated : Separated items)
    (closed : ∀ item ∈ items.getLast?, Ends item.2.type leftover) {lexer : LexicalAnalyzer}
    (shape : lexer.rest = render leftover items) :
    ∃ after, Reads (items.map fun item => item.2.token) lexer after ∧ after.rest = leftover := by
  induction items generalizing lexer with
  | nil => exact ⟨lexer, rfl, shape⟩
  | cons item items ih =>
      obtain ⟨gap, lexeme⟩ := item
      have last : items = [] → Ends lexeme.type leftover := by
        rintro rfl
        exact closed _ rfl
      obtain ⟨called, rest⟩ := getNextToken_render separated last shape
      have laterClosed : ∀ item ∈ items.getLast?, Ends item.2.type leftover := by
        intro item member
        apply closed item
        cases items with
        | nil => cases member
        | cons next items => rw [List.getLast?_cons_cons]; exact member
      obtain ⟨after, reads, left⟩ := ih separated.tail laterClosed rest
      exact ⟨after, ⟨congrArg Prod.fst called, reads⟩, left⟩

/-- What the tokenizer reads is rendered in front of it. -/
theorem render_of_reads {tokens : List (Token × Text)} {lexer after : LexicalAnalyzer}
    (reads : Reads tokens lexer after) (proper : ∀ token ∈ tokens, token.1 ≠ .eof) :
    Renders tokens lexer.rest after.rest := by
  induction tokens generalizing lexer with
  | nil =>
      cases reads
      exact ⟨[], rfl, .nil, rfl⟩
  | cons token tokens ih =>
      obtain ⟨rfl, later⟩ := reads
      have here := proper _ List.mem_cons_self
      obtain ⟨gap, blank, ⟨type, text, rest, spelled, ends, shape, called⟩ | ⟨rest, _, called⟩⟩ :=
        lexer.getNextToken_cases
      · obtain ⟨items, mapped, separated, rendered⟩ := ih later fun token member =>
          proper token (List.mem_cons_of_mem _ member)
        have left : lexer.getNextToken.2.rest = rest := by
          rw [called, rest_advance, shape, ← List.append_assoc, ← List.length_append, List.drop_left]
        have follows : rest = render after.rest items := left.symm.trans rendered
        let lexeme : Lexeme := ⟨type, text, spelled⟩
        have chained : Separated ((⟨gap, blank⟩, lexeme) :: items) := by
          cases items with
          | nil => exact .singleton _
          | cons item items =>
              obtain ⟨⟨between, blanks⟩, next⟩ := item
              apply List.IsChain.cons_cons _ separated
              rintro runs rfl
              rw [follows] at ends
              exact (lexeme.ends_iff next _).mp ends runs
        refine ⟨(⟨gap, blank⟩, lexeme) :: items, ?_, chained, ?_⟩
        · rw [List.map_cons, mapped]
          exact congrArg (· :: tokens) (congrArg Prod.fst called).symm
        · rw [shape, follows, render]
      · exact absurd (congrArg (fun result => result.1.1) called) here

/-- Where the tokenizer finds no token and no character is left, there were only blanks. -/
theorem blank_of_exhausted {lexer : LexicalAnalyzer} (eof : lexer.getNextToken.1 = kTokenFallback)
    (exhausted : lexer.getNextToken.2.rest = []) : Blank lexer.rest := by
  obtain ⟨gap, blank, ⟨type, text, rest, spelled, _, _, called⟩ | ⟨rest, shape, called⟩⟩ :=
    lexer.getNextToken_cases
  · rw [called] at eof
    cases eof
    exact spelled.elim
  · rw [called, rest_advance, shape, List.drop_left] at exhausted
    rw [shape, exhausted, List.append_nil]
    exact blank

end LexicalAnalyzer

theorem Grammar.Graph.proper_tokens (tree : Graph (Option Node)) : ∀ token ∈ tree.tokens, token.1 ≠ .eof := by
  intro token member
  simp only [Graph.tokens, List.mem_cons, List.mem_append, List.mem_flatMap, List.not_mem_nil, or_false] at member
  rcases member with rfl | rfl | rfl | ⟨chain, _, listed⟩ | rfl
  · exact nofun
  · exact nofun
  · exact nofun
  · exact SyntaxAnalyzer.proper_statement chain token listed
  · exact nofun

/-- `graphviz_syntax_analyzer(graphviz).parse()`. -/
def parse (graphviz : Text) : Outcome (Ast.Graph × SyntaxAnalyzer LexicalAnalyzer) :=
  (SyntaxAnalyzer.start ({ graphviz } : LexicalAnalyzer)).parse

/-- Of a text that begins with a loose graph the parser returns its syntax tree. -/
theorem parse_of_renders {tree : Graph (Option Node)} {text leftover : Text} (loose : tree.Loose)
    (renders : Renders tree.tokens text leftover) :
    ∃ after : LexicalAnalyzer, after.rest = leftover ∧
      parse text = .ok (tree.toAst, SyntaxAnalyzer.start after) := by
  obtain ⟨items, mapped, separated, rfl⟩ := renders
  have closed : ∀ item ∈ items.getLast?, Ends item.2.type leftover := by
    intro item last
    have token : item.2.token ∈ tree.tokens.getLast? := by
      rw [← mapped, List.getLast?_map, last]
      rfl
    have bracket : tree.tokens.getLast? = some (.punctuator, kCloseCurlyBracket) := by
      simp [Graph.tokens, List.getLast?_cons, List.getLast?_append]
    rw [bracket] at token
    have type : item.2.type = .punctuator := congrArg Prod.fst (Option.some.inj token).symm
    rw [type]
    trivial
  have shape : ({ graphviz := render leftover items } : LexicalAnalyzer).rest = render leftover items := rfl
  obtain ⟨after, reads, left⟩ := LexicalAnalyzer.reads_of_render separated closed shape
  rw [mapped] at reads
  exact ⟨after, left, SyntaxAnalyzer.parse_of_reads loose reads⟩

/-- `parse` returns a syntax tree for the texts that begin with a loose graph, and for all
the others it throws `unexpected_syntax`. -/
theorem parse_cases (text : Text) :
    (∃ (tree : Graph (Option Node)) (after : LexicalAnalyzer), tree.Loose ∧
        Renders tree.tokens text after.rest ∧ parse text = .ok (tree.toAst, SyntaxAnalyzer.start after)) ∨
      parse text = .error .unexpectedSyntax := by
  rcases SyntaxAnalyzer.parse_returns ({ graphviz := text } : LexicalAnalyzer) with
    ⟨_, after, returned, tree, rfl, loose, reads⟩ | thrown
  · exact Or.inl ⟨tree, after, loose, LexicalAnalyzer.render_of_reads reads tree.proper_tokens, returned⟩
  · exact Or.inr thrown

/-- `parse` returns a syntax tree only for a sentence, and throws `unexpected_syntax` for
any other text. -/
def AcceptsSentences (text : Text) : Prop :=
  (∀ result, parse text = .ok result → Sentence text) ∧
    (¬ Sentence text → parse text = .error .unexpectedSyntax)

/-- `parse` accepts nothing but sentences exactly if a loose graph that the text begins with
lacks no node statement and only blanks follow it. -/
theorem acceptsSentences_iff (text : Text) :
    AcceptsSentences text ↔
      ∀ (tree : Graph (Option Node)) (leftover : Text), tree.Loose → Renders tree.tokens text leftover →
        tree.Complete ∧ Blank leftover := by
  constructor
  · intro accepts tree leftover loose renders
    obtain ⟨after, rfl, returned⟩ := parse_of_renders loose renders
    obtain ⟨strict, rest, strictly, blank⟩ := accepts.1 _ returned
    obtain ⟨last, rfl, again⟩ := parse_of_renders (SyntaxAnalyzer.present_map strict) strictly
    obtain ⟨sameTree, sameState⟩ := Prod.mk.inj (Except.ok.inj (returned.symm.trans again))
    refine ⟨tree.complete_of_toAst sameTree strict.complete_map, ?_⟩
    have ended := LexicalAnalyzer.getNextToken_of_blank blank
    have sameToken : after.getNextToken.1 = last.getNextToken.1 :=
      congrArg SyntaxAnalyzer.currentToken sameState
    have sameSource : after.getNextToken.2 = last.getNextToken.2 :=
      congrArg SyntaxAnalyzer.tokenizer sameState
    apply LexicalAnalyzer.blank_of_exhausted
    · rw [sameToken, ended]
    · rw [sameSource, ended, LexicalAnalyzer.rest_advance, List.drop_length]
  · intro condition
    have sentence : ∀ result, parse text = .ok result → Sentence text := by
      intro result returned
      rcases parse_cases text with ⟨tree, after, loose, renders, _⟩ | thrown
      · obtain ⟨complete, blank⟩ := condition tree after.rest loose renders
        obtain ⟨strict, rfl⟩ := tree.exists_of_complete complete
        exact ⟨strict, after.rest, renders, blank⟩
      · cases returned.symm.trans thrown
    refine ⟨sentence, fun other => ?_⟩
    rcases parse_cases text with ⟨tree, after, _, _, returned⟩ | thrown
    · exact absurd (sentence _ returned) other
    · exact thrown

/-- The parser accepts the edge without a target in `digraph a{b ->;}`. -/
theorem acceptsSentences_missing_target :
    ¬ AcceptsSentences (kDirectGraph ++ [' ', 'a', '{', 'b', ' ', '-', '>', ';', '}']) := by
  intro accepts
  let tree : Graph (Option Node) := ⟨.direct, ['a'], [.link (some ⟨['b'], none⟩) .direct (.last none)]⟩
  have returned : (parse (kDirectGraph ++ [' ', 'a', '{', 'b', ' ', '-', '>', ';', '}'])).map Prod.fst =
      .ok tree.toAst := by decide
  obtain ⟨result, parsed⟩ : ∃ result, parse (kDirectGraph ++ [' ', 'a', '{', 'b', ' ', '-', '>', ';', '}']) =
      .ok result := ⟨_, rfl⟩
  obtain ⟨strict, rest, renders, _⟩ := accepts.1 result parsed
  obtain ⟨last, _, again⟩ := parse_of_renders (SyntaxAnalyzer.present_map strict) renders
  have same : tree.toAst = (strict.map some).toAst := by
    rw [again] at returned
    exact (Except.ok.inj returned).symm
  have complete := tree.complete_of_toAst same strict.complete_map _ List.mem_cons_self
  exact absurd complete.2 Bool.false_ne_true

end Dsac.Graphviz
