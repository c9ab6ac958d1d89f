import Dsac.Library.Action
import Dsac.Container.Graph.Graphviz.SyntaxAnalyzer.Totality

namespace Dsac.Graphviz

open Dsac.Library

/-! The parser once more, as it is left by a throw, and the calls of `get_next_token` that it has
made by then. -/

/-- `unexpected_syntax` -/
structure UnexpectedSyntax where
deriving DecidableEq, Repr

/-- The bound on the recursion depth or on the loop count is used up. -/
structure OutOfFuel where
deriving DecidableEq, Repr

abbrev Parsing (σ α : Type) := Action OutOfFuel (SyntaxAnalyzer σ) UnexpectedSyntax α

namespace Parsing

variable {σ α β : Type}

def currentToken : Parsing σ (Token × Text) := fun analyzer => .ok (.ok analyzer.currentToken, analyzer)

/-- A call outside of the parser, which returns or throws `unexpected_syntax`. -/
def ofOutcome : Outcome α → Parsing σ α
  | .ok value => pure value
  | .error _ => Action.throw {}

section

variable [Tokenizer σ]

/-- `std::exchange(current_token_, tokenizer_.get_next_token()).second` -/
def exchange : Parsing σ Text := fun analyzer =>
  .ok (.ok analyzer.currentToken.2, SyntaxAnalyzer.start analyzer.tokenizer)

def getToken (expected : Token) : Parsing σ Text := do
  if (← currentToken).1 = expected then exchange else Action.throw {}

def getTokenMaybe (expected : Token) : Parsing σ (Option Text) := do
  if (← currentToken).1 = expected then
    let text ← exchange
    return some text
  else
    return none

def attributeValue : Parsing σ Text := do
  match ← getTokenMaybe .identifier with
  | some value => return value
  | none =>
      match ← getTokenMaybe .literal with
      | some value => return value
      | none => Action.throw {}

def attribute' : Parsing σ (Option Ast.Attribute) := do
  if (← currentToken).1 ≠ .identifier then
    return none
  else
    let key ← getToken .identifier
    let assign ← getToken .operator
    if assign ≠ kAssignOperator then
      Action.throw {}
    else
      let value ← attributeValue
      return some ⟨key, value⟩

def attributes : Nat → Parsing σ (List Ast.Attribute)
  | 0 => Action.fault {}
  | fuel + 1 => do
      match ← attribute' with
      | none => return []
      | some attr =>
          let others ← attributes fuel
          return attr :: others

def attributesList (fuel : Nat) : Parsing σ (Option (List Ast.Attribute)) := do
  if (← currentToken).2 ≠ kOpenSquareBracket then
    return none
  else
    let _ ← getToken .punctuator
    let attrs ← attributes fuel
    let bracket ← getToken .punctuator
    if bracket ≠ kCloseSquareBracket then
      Action.throw {}
    else
      return some attrs

def nodeStatement (fuel : Nat) : Parsing σ (Option Ast.Node) := do
  match ← getTokenMaybe .identifier with
  | none => return none
  | some name =>
      let attrs ← attributesList fuel
      return some ⟨name, attrs⟩

def statement : Nat → Parsing σ Ast.Statement
  | 0 => Action.fault {}
  | fuel + 1 => do
      let leftNode ← nodeStatement fuel
      match ← getTokenMaybe .operator with
      | some operator =>
          let connection ← ofOutcome (getConnectionKind operator)
          let right ← statement fuel
          return .edge connection leftNode right
      | none => return .ofNode leftNode

def statementList : Nat → Parsing σ (List Ast.Statement)
  | 0 => Action.fault {}
  | fuel + 1 => do
      let stmt ← statement fuel
      if stmt = .empty then
        return []
      else
        let semicolon ← getToken .punctuator
        if semicolon ≠ kSemicolcon then
          Action.throw {}
        else
          let others ← statementList fuel
          return stmt :: others

def graph (fuel : Nat) : Parsing σ Ast.Graph := do
  let graphType ← getToken .keyword
  if graphType ∉ kGraphTypes then
    Action.throw {}
  else
    let graphName ← getToken .identifier
    let opening ← getToken .punctuator
    if opening ≠ kOpenCurlyBracket then
      Action.throw {}
    else
      let kind ← ofOutcome (getGraphKind graphType)
      let statements ← statementList fuel
      let closing ← getToken .punctuator
      if closing ≠ kCloseCurlyBracket then
        Action.throw {}
      else
        return ⟨kind, graphName, statements⟩

def parse : Parsing σ Ast.Graph := fun analyzer => graph (Tokenizer.unread analyzer.tokenizer + 1) analyzer

end

/-! Up to the state after a throw, the two parsers are the same. -/

def outcome (parsing : Parsing σ α) (analyzer : SyntaxAnalyzer σ) : Outcome (α × SyntaxAnalyzer σ) :=
  match parsing analyzer with
  | .error _ => .error .fuel
  | .ok (.error _, _) => .error .unexpectedSyntax
  | .ok (.ok value, analyzer) => .ok (value, analyzer)

theorem outcome_pure (value : α) (analyzer : SyntaxAnalyzer σ) :
    outcome (pure value : Parsing σ α) analyzer = .ok (value, analyzer) := rfl

theorem outcome_throw (analyzer : SyntaxAnalyzer σ) :
    outcome (Action.throw {} : Parsing σ α) analyzer = .error .unexpectedSyntax := rfl

theorem outcome_bind (parsing : Parsing σ α) (next : α → Parsing σ β) (analyzer : SyntaxAnalyzer σ) :
    outcome (parsing >>= next) analyzer = outcome parsing analyzer >>= fun result => outcome (next result.1) result.2 := by
  unfold outcome
  simp only [Bind.bind]
  cases parsing analyzer with
  | error fault => rfl
  | ok result =>
      obtain ⟨_ | value, after⟩ := result
      · rfl
      · rfl

theorem outcome_ite {condition : Prop} [Decidable condition] (one two : Parsing σ α) (analyzer : SyntaxAnalyzer σ) :
    outcome (if condition then one else two) analyzer =
      if condition then outcome one analyzer else outcome two analyzer := by
  split
  · rfl
  · rfl

theorem outcome_connectionKind (connection : Text) (analyzer : SyntaxAnalyzer σ) :
    outcome (ofOutcome (getConnectionKind connection)) analyzer =
      (getConnectionKind connection >>= fun kind => .ok (kind, analyzer)) := by
  by_cases listed : connection ∈ kConnectionOperator
  · rw [getConnectionKind, if_pos listed]
    rfl
  · rw [getConnectionKind, if_neg listed]
    rfl

theorem outcome_graphKind (graph : Text) (analyzer : SyntaxAnalyzer σ) :
    outcome (ofOutcome (getGraphKind graph)) analyzer = (getGraphKind graph >>= fun kind => .ok (kind, analyzer)) := by
  by_cases listed : graph ∈ kGraphTypes
  · rw [getGraphKind, if_pos listed]
    rfl
  · rw [getGraphKind, if_neg listed]
    rfl

/-- The routine preserves the invariant, whether it returns or throws. -/
def Preserves (invariant : SyntaxAnalyzer σ → Prop) (parsing : Parsing σ α) : Prop :=
  ∀ analyzer, invariant analyzer →
    Action.EndsOr True parsing analyzer (fun _ after => invariant after) fun _ after => invariant after

variable {invariant : SyntaxAnalyzer σ → Prop}

namespace Preserves

theorem pure (value : α) : Preserves invariant (pure value) := fun _ holds => holds

theorem throw : Preserves invariant (Action.throw {} : Parsing σ α) := fun _ holds => holds

theorem fault (reason : OutOfFuel) : Preserves invariant (Action.fault reason : Parsing σ α) := fun _ _ => trivial

theorem bind {parsing : Parsing σ α} {next : α → Parsing σ β} (first : Preserves invariant parsing)
    (later : ∀ value, Preserves invariant (next value)) : Preserves invariant (parsing >>= next) := by
  intro analyzer holds
  apply Action.EndsOr.bind
  exact (first analyzer holds).imp (fun value after holds => later value after holds) fun _ _ => id

theorem ite {condition : Prop} [Decidable condition] {one two : Parsing σ α} (first : Preserves invariant one)
    (second : Preserves invariant two) : Preserves invariant (if condition then one else two) := by
  split
  · exact first
  · exact second

end Preserves

theorem currentToken_preserves : Preserves invariant currentToken := fun _ holds => holds

theorem ofOutcome_preserves (call : Outcome α) : Preserves invariant (ofOutcome call) := by
  cases call with
  | error fault => exact .throw
  | ok value => exact .pure value

variable [Tokenizer σ]

theorem outcome_getToken (expected : Token) (analyzer : SyntaxAnalyzer σ) :
    outcome (getToken expected) analyzer = analyzer.getToken expected := by
  rw [getToken, outcome_bind]
  exact outcome_ite ..

theorem outcome_getTokenMaybe (expected : Token) (analyzer : SyntaxAnalyzer σ) :
    outcome (getTokenMaybe expected) analyzer = .ok (analyzer.getTokenMaybe expected) := by
  rw [getTokenMaybe, outcome_bind]
  refine (outcome_ite ..).trans ?_
  rw [SyntaxAnalyzer.getTokenMaybe, apply_ite Except.ok]
  rfl

theorem outcome_attributeValue (analyzer : SyntaxAnalyzer σ) :
    outcome attributeValue analyzer = analyzer.attributeValue := by
  rw [attributeValue, outcome_bind, outcome_getTokenMaybe, SyntaxAnalyzer.attributeValue, Outcome.ok_bind]
  obtain ⟨_ | value, after⟩ := analyzer.getTokenMaybe .identifier
  · simp only [outcome_bind, outcome_getTokenMaybe, Outcome.ok_bind]
    obtain ⟨_ | value, after⟩ := after.getTokenMaybe .literal
    · rfl
    · rfl
  · rfl

theorem outcome_attribute (analyzer : SyntaxAnalyzer σ) : outcome attribute' analyzer = analyzer.attribute' := by
  rw [attribute', outcome_bind]
  refine (outcome_ite ..).trans ?_
  rw [SyntaxAnalyzer.attribute']
  refine if_congr Iff.rfl rfl ?_
  simp only [outcome_bind, outcome_getToken, outcome_attributeValue, outcome_ite, outcome_pure, outcome_throw]

theorem outcome_attributes (fuel : Nat) (analyzer : SyntaxAnalyzer σ) :
    outcome (attributes fuel) analyzer = analyzer.attributes fuel := by
  induction fuel generalizing analyzer with
  | zero => rfl
  | succ fuel inductionHypothesis =>
      rw [attributes, outcome_bind, outcome_attribute, SyntaxAnalyzer.attributes]
      refine congrArg (analyzer.attribute' >>= ·) (funext fun result => ?_)
      obtain ⟨_ | attr, after⟩ := result
      · rfl
      · simp only [outcome_bind, inductionHypothesis, outcome_pure]

theorem outcome_attributesList (fuel : Nat) (analyzer : SyntaxAnalyzer σ) :
    outcome (attributesList fuel) analyzer = analyzer.attributesList fuel := by
  rw [attributesList, outcome_bind]
  refine (outcome_ite ..).trans ?_
  rw [SyntaxAnalyzer.attributesList]
  refine if_congr Iff.rfl rfl ?_
  simp only [outcome_bind, outcome_getToken, outcome_attributes, outcome_ite, outcome_pure, outcome_throw]

theorem outcome_nodeStatement (fuel : Nat) (analyzer : SyntaxAnalyzer σ) :
    outcome (nodeStatement fuel) analyzer = analyzer.nodeStatement fuel := by
  rw [nodeStatement, outcome_bind, outcome_getTokenMaybe, SyntaxAnalyzer.nodeStatement, Outcome.ok_bind]
  obtain ⟨_ | name, after⟩ := analyzer.getTokenMaybe .identifier
  · rfl
  · simp only [outcome_bind, outcome_attributesList, outcome_pure]

theorem outcome_statement (fuel : Nat) (analyzer : SyntaxAnalyzer σ) :
    outcome (statement fuel) analyzer = analyzer.statement fuel := by
  induction fuel generalizing analyzer with
  | zero => rfl
  | succ fuel inductionHypothesis =>
      rw [statement, outcome_bind, outcome_nodeStatement, SyntaxAnalyzer.statement]
      refine congrArg (analyzer.nodeStatement fuel >>= ·) (funext fun result => ?_)
      obtain ⟨leftNode, middle⟩ := result
      dsimp only
      rw [outcome_bind, outcome_getTokenMaybe, Outcome.ok_bind]
      obtain ⟨_ | operator, after⟩ := middle.getTokenMaybe .operator
      · rfl
      · simp only [outcome_bind, outcome_connectionKind, inductionHypothesis, outcome_pure, bind_assoc, Outcome.ok_bind]

theorem outcome_statementList (fuel : Nat) (analyzer : SyntaxAnalyzer σ) :
    outcome (statementList fuel) analyzer = analyzer.statementList fuel := by
  induction fuel generalizing analyzer with
  | zero => rfl
  | succ fuel inductionHypothesis =>
      simp only [statementList, SyntaxAnalyzer.statementList, outcome_bind, outcome_statement, outcome_ite,
        outcome_getToken, inductionHypothesis, outcome_pure, outcome_throw]

theorem outcome_graph (fuel : Nat) (analyzer : SyntaxAnalyzer σ) :
    outcome (graph fuel) analyzer = analyzer.graph fuel := by
  simp only [graph, SyntaxAnalyzer.graph, outcome_bind, outcome_getToken, outcome_ite, outcome_graphKind,
    outcome_statementList, outcome_pure, outcome_throw, bind_assoc, Outcome.ok_bind]

/-- The results of the two parsers are the same. -/
theorem outcome_parse (analyzer : SyntaxAnalyzer σ) : outcome parse analyzer = analyzer.parse := outcome_graph ..

/-! What fetching the token behind one that is no `eof` preserves is preserved by all routines: they
fetch no other. -/

def Fetches (invariant : SyntaxAnalyzer σ → Prop) : Prop :=
  ∀ analyzer, invariant analyzer → analyzer.currentToken.1 ≠ .eof → invariant (SyntaxAnalyzer.start analyzer.tokenizer)

theorem getToken_preserves (fetches : Fetches invariant) {expected : Token} (proper : expected ≠ .eof) :
    Preserves invariant (getToken expected) := by
  intro analyzer holds
  apply Action.EndsOr.bind
  show Action.EndsOr True (if analyzer.currentToken.1 = expected then exchange else Action.throw {}) analyzer _ _
  split_ifs with same
  · exact fetches analyzer holds (same ▸ proper)
  · exact holds

theorem getTokenMaybe_preserves (fetches : Fetches invariant) {expected : Token} (proper : expected ≠ .eof) :
    Preserves invariant (getTokenMaybe expected) := by
  intro analyzer holds
  apply Action.EndsOr.bind
  show Action.EndsOr True (if analyzer.currentToken.1 = expected then _ else _) analyzer _ _
  split_ifs with same
  · exact fetches analyzer holds (same ▸ proper)
  · exact holds

theorem attributeValue_preserves (fetches : Fetches invariant) : Preserves invariant attributeValue := by
  apply (getTokenMaybe_preserves fetches (by decide)).bind
  rintro (_ | value)
  · apply (getTokenMaybe_preserves fetches (by decide)).bind
    rintro (_ | value)
    · exact .throw
    · exact .pure _
  · exact .pure _

theorem attribute_preserves (fetches : Fetches invariant) : Preserves invariant attribute' := by
  refine currentToken_preserves.bind fun _ => .ite (.pure _) ?_
  apply (getToken_preserves fetches (by decide)).bind
  intro key
  apply (getToken_preserves fetches (by decide)).bind
  intro assign
  exact .ite .throw ((attributeValue_preserves fetches).bind fun _ => .pure _)

theorem attributes_preserves (fetches : Fetches invariant) (fuel : Nat) : Preserves invariant (attributes fuel) := by
  induction fuel with
  | zero => exact .fault _
  | succ fuel inductionHypothesis =>
      apply (attribute_preserves fetches).bind
      rintro (_ | attr)
      · exact .pure _
      · exact inductionHypothesis.bind fun _ => .pure _

theorem attributesList_preserves (fetches : Fetches invariant) (fuel : Nat) :
    Preserves invariant (attributesList fuel) := by
  refine currentToken_preserves.bind fun _ => .ite (.pure _) ?_
  apply (getToken_preserves fetches (by decide)).bind
  intro opening
  apply (attributes_preserves fetches fuel).bind
  intro attrs
  apply (getToken_preserves fetches (by decide)).bind
  intro bracket
  exact .ite .throw (.pure _)

theorem nodeStatement_preserves (fetches : Fetches invariant) (fuel : Nat) :
    Preserves invariant (nodeStatement fuel) := by
  apply (getTokenMaybe_preserves fetches (by decide)).bind
  rintro (_ | name)
  · exact .pure _
  · exact (attributesList_preserves fetches fuel).bind fun _ => .pure _

theorem statement_preserves (fetches : Fetches invariant) (fuel : Nat) : Preserves invariant (statement fuel) := by
  induction fuel with
  | zero => exact .fault _
  | succ fuel inductionHypothesis =>
      apply (nodeStatement_preserves fetches fuel).bind
      intro leftNode
      apply (getTokenMaybe_preserves fetches (by decide)).bind
      rintro (_ | operator)
      · exact .pure _
      · apply (ofOutcome_preserves _).bind
        intro connection
        exact inductionHypothesis.bind fun _ => .pure _

theorem statementList_preserves (fetches : Fetches invariant) (fuel : Nat) :
    Preserves invariant (statementList fuel) := by
  induction fuel with
  | zero => exact .fault _
  | succ fuel inductionHypothesis =>
      apply (statement_preserves fetches fuel).bind
      intro stmt
      refine .ite (.pure _) ?_
      apply (getToken_preserves fetches (by decide)).bind
      intro semicolon
      exact .ite .throw (inductionHypothesis.bind fun _ => .pure _)

theorem graph_preserves (fetches : Fetches invariant) (fuel : Nat) : Preserves invariant (graph fuel) := by
  apply (getToken_preserves fetches (by decide)).bind
  intro graphType
  refine .ite .throw ?_
  apply (getToken_preserves fetches (by decide)).bind
  intro graphName
  apply (getToken_preserves fetches (by decide)).bind
  intro opening
  refine .ite .throw ?_
  apply (ofOutcome_preserves _).bind
  intro kind
  apply (statementList_preserves fetches fuel).bind
  intro statements
  apply (getToken_preserves fetches (by decide)).bind
  intro closing
  exact .ite .throw (.pure _)

/-- `parse` ends with the invariant. -/
theorem parse_preserves (fetches : Fetches invariant) {analyzer : SyntaxAnalyzer σ} (holds : invariant analyzer) :
    Action.EndsOr True parse analyzer (fun _ after => invariant after) fun _ after => invariant after :=
  graph_preserves fetches _ analyzer holds

end Parsing

/-! The calls of `get_next_token`. -/

structure TokenCall (σ : Type) where
  before : σ
  token : Token × Text
  after : σ

/-- A tokenizer with the calls that were made. -/
structure Logged (σ : Type) where
  source : σ
  calls : List (TokenCall σ) := []

instance {σ : Type} [Tokenizer σ] : Tokenizer (Logged σ) where
  getNextToken logged :=
    let next := Tokenizer.getNextToken logged.source
    (next.1, ⟨next.2, logged.calls ++ [⟨logged.source, next.1, next.2⟩]⟩)
  unread logged := Tokenizer.unread logged.source
  unread_lt logged found := Tokenizer.unread_lt logged.source found

/-- The call returns `eof`, or it moves the position by at least the length of the non-empty token that
it returns, within the text. -/
structure TokenCall.Advances (text : Text) (call : TokenCall LexicalAnalyzer) : Prop where
  source : call.before.graphviz = text
  kept : call.after.graphviz = text
  called : (call.token, call.after) = call.before.getNextToken
  inside : call.after.sp ≤ text.length
  advances : call.token.1 = .eof ∨
    call.token.2 ≠ [] ∧ call.before.sp + call.token.2.length ≤ call.after.sp

theorem LexicalAnalyzer.getNextToken_advances {lexer : LexicalAnalyzer} (inside : lexer.sp ≤ lexer.graphviz.length) :
    TokenCall.Advances lexer.graphviz ⟨lexer, lexer.getNextToken.1, lexer.getNextToken.2⟩ := by
  have rest : lexer.rest.length = lexer.graphviz.length - lexer.sp := List.length_drop
  obtain ⟨gap, _, ⟨type, text, after, spelled, _, shape, called⟩ | ⟨after, shape, called⟩⟩ := lexer.getNextToken_cases
  · have length := congrArg List.length shape
    simp only [List.length_append] at length
    obtain ⟨first, others, rfl, _⟩ := spelled.starts
    refine ⟨rfl, ?_, rfl, ?_, Or.inr ⟨?_, ?_⟩⟩
    · rw [called]
      rfl
    · rw [called]
      show lexer.sp + (gap.length + (first :: others).length) ≤ lexer.graphviz.length
      omega
    · rw [called]
      exact List.cons_ne_nil first others
    · rw [called]
      show lexer.sp + (first :: others).length ≤ lexer.sp + (gap.length + (first :: others).length)
      omega
  · have length := congrArg List.length shape
    rw [List.length_append] at length
    refine ⟨rfl, ?_, rfl, ?_, Or.inl ?_⟩
    · rw [called]
      rfl
    · rw [called]
      show lexer.sp + gap.length ≤ lexer.graphviz.length
      omega
    · rw [called]
      rfl

/-- Before the token behind the current one is fetched, one call is left for it and for each character
that is not read. -/
structure Logged.Within (text : Text) (analyzer : SyntaxAnalyzer (Logged LexicalAnalyzer)) : Prop where
  source : analyzer.tokenizer.source.graphviz = text
  inside : analyzer.tokenizer.source.sp ≤ text.length
  advance : ∀ call ∈ analyzer.tokenizer.calls, call.Advances text
  calls : analyzer.tokenizer.calls.length ≤ text.length + 1
  left : analyzer.currentToken.1 ≠ .eof →
    analyzer.tokenizer.calls.length + analyzer.tokenizer.source.rest.length ≤ text.length

theorem Logged.within_start {text : Text} {logged : Logged LexicalAnalyzer} (source : logged.source.graphviz = text)
    (inside : logged.source.sp ≤ text.length) (advance : ∀ call ∈ logged.calls, call.Advances text)
    (left : logged.calls.length + logged.source.rest.length ≤ text.length) :
    Logged.Within text (SyntaxAnalyzer.start logged) := by
  subst source
  have next := LexicalAnalyzer.getNextToken_advances inside
  have before : logged.source.rest.length = logged.source.graphviz.length - logged.source.sp := List.length_drop
  have after : logged.source.getNextToken.2.rest.length =
      logged.source.getNextToken.2.graphviz.length - logged.source.getNextToken.2.sp := List.length_drop
  have kept : logged.source.getNextToken.2.graphviz = logged.source.graphviz := next.kept
  have within : logged.source.getNextToken.2.sp ≤ logged.source.graphviz.length := next.inside
  refine ⟨kept, within, ?_, ?_, fun found => ?_⟩
  · exact List.forall_mem_append.mpr ⟨advance, List.forall_mem_singleton.mpr next⟩
  · show (logged.calls ++ [_]).length ≤ _
    rw [List.length_append, List.length_singleton]
    omega
  · have further : logged.source.sp + logged.source.getNextToken.1.2.length ≤ logged.source.getNextToken.2.sp :=
      (next.advances.resolve_left found).2
    have nonempty := List.length_pos_of_ne_nil (next.advances.resolve_left found).1
    show (logged.calls ++ [_]).length + logged.source.getNextToken.2.rest.length ≤ _
    rw [List.length_append, List.length_singleton, after, kept]
    change 0 < logged.source.getNextToken.1.2.length at nonempty
    omega

theorem Logged.within_fetches (text : Text) : Parsing.Fetches (Logged.Within text) := fun _ within found =>
  within_start within.source within.inside within.advance (within.left found)

/-- **Parsing ends after few calls of `get_next_token`.** For every text the parser returns or throws
after at most one call more than the text has characters, and each call that does not return `eof` moves
the position by at least the length of its non-empty token. -/
theorem parse_calls (text : Text) :
    ∃ result after, Parsing.parse (SyntaxAnalyzer.start (⟨{ graphviz := text }, []⟩ : Logged LexicalAnalyzer)) =
        .ok (result, after) ∧
      after.tokenizer.calls.length ≤ text.length + 1 ∧ ∀ call ∈ after.tokenizer.calls, call.Advances text := by
  have within : Logged.Within text (SyntaxAnalyzer.start (⟨{ graphviz := text }, []⟩ : Logged LexicalAnalyzer)) :=
    Logged.within_start rfl (Nat.zero_le _) (List.forall_mem_nil _) (by simp [LexicalAnalyzer.rest])
  have ends := Parsing.parse_preserves (Logged.within_fetches text) within
  have same := Parsing.outcome_parse (SyntaxAnalyzer.start (⟨{ graphviz := text }, []⟩ : Logged LexicalAnalyzer))
  unfold Action.EndsOr at ends
  unfold Parsing.outcome at same
  cases ran : Parsing.parse (SyntaxAnalyzer.start (⟨{ graphviz := text }, []⟩ : Logged LexicalAnalyzer)) with
  | error fault =>
      rw [ran] at same
      rcases SyntaxAnalyzer.parse_returns (⟨{ graphviz := text }, []⟩ : Logged LexicalAnalyzer) with
        ⟨ast, after, returned, _⟩ | thrown
      · rw [returned] at same
        cases same
      · rw [thrown] at same
        cases same
  | ok ended =>
      obtain ⟨_ | ast, after⟩ := ended
      · rw [ran] at ends
        exact ⟨_, after, rfl, ends.calls, ends.advance⟩
      · rw [ran] at ends
        exact ⟨_, after, rfl, ends.calls, ends.advance⟩

end Dsac.Graphviz
