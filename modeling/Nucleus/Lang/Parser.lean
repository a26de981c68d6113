import Nucleus.Lang.Ast
import Nucleus.Lang.TokenSource
import Nucleus.Lib.Prog

/-!
# `Nucleus.Lang.Parser`: the recursive-descent parser

The functions of `lang/parser.h`, one definition a function, as programs on the parser's
state. A call that can fail stops the caller with the callee's error, which is
`NULANG_ERROR_CHECK`. The one call whose error the source drops, the closing parenthesis in
`nulang__parse_insert_or_singleton`, is under `Prog.ignoreError`.

`nulang__parse_expr` and `nulang__parse_stmt` are declared at the head of the source file and
called by the productions above their bodies, and `nulang__parse_primary` calls itself. The
model reaches these three through the record `Productions`, and `productions` ties the knot:
its argument is the fuel. A production's own fuel `n` bounds the turns of its loops.

An uninitialised `nulang__node_id_t` local holds `Parser.uninit`, which is arbitrary.
`parseStmt` returns `none` where the source returns `NULANG_ERROR_NONE` and leaves `*node`
as it was.
-/

set_option autoImplicit false

namespace Nucleus.Lang

open Nucleus.Lib

/-- `nulang__error_data_t`, the part that the parser and the resolvers store. -/
structure ErrorData where
  span : Span
  tokenExpect : TokenType
  tokenGot : TokenType

/-- `nulang__parser_t`, with the value of an uninitialised node id. -/
structure Parser (L : Type) where
  lexer : L
  ast : Ast
  error : ErrorData
  uninit : NodeId

/-- A function of the parser. -/
abbrev ParserM (L : Type) : Type → Type := Prog (Parser L) Error

/-- The forward-declared productions. -/
structure Productions (L : Type) where
  parseExpr : (minPrecedence : Nat) → ParserM L NodeId
  parsePrimary : ParserM L NodeId
  parseStmt : ParserM L (Option NodeId)

/-! ### Errors and the arena -/

section
variable {L : Type}

/-- Store into the error data. -/
def report (f : ErrorData → ErrorData) : ParserM L Unit :=
  Prog.modify fun p => { p with error := f p.error }

/-- `nulang__add_node(parser->ast, &id)`. -/
def parserAddNode : ParserM L NodeId := fun p =>
  match addNode p.ast with
  | none => some (.error .outOfNode, p)
  | some (id, ast) => some (.ok id, { p with ast })

/-- Store into `parser->ast->nodes[id]`. -/
def setNode (id : NodeId) (f : Node → Node) : ParserM L Unit :=
  Prog.modify fun p => { p with ast := p.ast.modifyNode id f }

/-- `nulang__append_child(parser->ast, parent, child)`. -/
def parserAppendChild (parent child : NodeId) : ParserM L Unit :=
  Prog.modify fun p => { p with ast := appendChild p.ast parent child }

/-- `nulang__add_compound`. -/
def addCompound (parent : NodeId) : ParserM L NodeId := do
  let compound ← parserAddNode
  let span ← Prog.gets fun p => (p.ast.nodes parent).span
  setNode compound fun n => { n with type := .astCompound, span := span }
  parserAppendChild parent compound
  pure compound

end

section
variable {L : Type} [TokenSource L]

/-! ### Tokens -/

/-- A call of the lexer: its error code stops the caller, and its span, if it has one, goes
into the error data. Where the call never returns, neither does the caller. -/
def fromLexer (call : L → LexResult × L) : ParserM L Token := fun p =>
  match call p.lexer with
  | (.ok tok, lexer) => some (.ok tok, { p with lexer })
  | (.error ⟨some code, span⟩, lexer) =>
      some (.error code,
        { p with lexer, error := { p.error with span := span.getD p.error.span } })
  | (.error ⟨none, _⟩, _) => none

/-- `nulang__parser_peek`. -/
def parserPeek (lookahead : Nat) : ParserM L Token :=
  fromLexer fun l => TokenSource.peek l lookahead

/-- `nulang__parser_consume`. -/
def parserConsume : ParserM L Token := fromLexer TokenSource.next

/-- `nulang__parser_expect`. -/
def parserExpect (type : TokenType) : ParserM L Token := do
  let tok ← parserConsume
  if tok.type ≠ type then do
    -- the token is consumed even if it is not the expected one
    report fun e => { e with tokenGot := tok.type, tokenExpect := type, span := tok.span }
    Prog.fail .unexpectedToken
  else pure tok

/-- `nulang__parser_accept`: the token if it was found. -/
def parserAccept (type : TokenType) : ParserM L (Option Token) := do
  let tok ← parserPeek 0
  if tok.type = type then do
    let token ← parserConsume
    pure (some token)
  else pure none

/-! ### Types -/

/-- `nulang__parse_vartype`. -/
def parseVartype : ParserM L Vartype := do
  let _ ← parserExpect .tokenColon
  match ← parserAccept .tokenPrimitive with
  | some tok => pure ⟨tok.value.toPrimitive, none, none⟩
  | none =>
      match ← parserAccept .tokenIdentifier with
      | some tok => pure ⟨.entity, some archetypeNull, some tok.value.toIdentifier⟩
      | none => do
          -- the error blames the token, which is consumed
          let tok ← parserConsume
          report fun e => { e with span := tok.span }
          Prog.fail .invalidVartype

/-- `nulang__try_parse_vartype`: the type, and whether there was one. -/
def tryParseVartype : ParserM L (Vartype × Bool) := do
  let tok ← parserPeek 0
  if tok.type = .tokenColon then do
    let vartype ← parseVartype
    pure (vartype, true)
  else pure (⟨.unknown, none, none⟩, false)

/-! ### Symbols and member chains -/

/-- The switch of `nulang__parse_member_chain` on the child's node: a member above a symbol
or a member, or a constructor promoted to a builtin function in place. -/
def memberNode (child : NodeId) (tok : Token) : ParserM L NodeId := do
  let pchild ← Prog.gets fun p => p.ast.nodes child
  match pchild.type with
  | .astMember | .astSymref => do
      let node ← parserAddNode
      setNode node fun n =>
        { n with span := tok.span, type := .astMember, value := .member tok.value.toIdentifier }
      parserAppendChild node child
      pure node
  | .astBuiltin =>
      match pchild.value with
      | .builtin (.builtinConstructor primitive) =>
          match findBuiltinFunction primitive tok.value.toIdentifier with
          | none => do
              report fun e => { e with span := tok.span }
              Prog.fail .unknownSymbolType
          | some function => do
              setNode child fun n => { n with value := .builtin (.builtinFunction function) }
              pure child
      | _ => do
          report fun e => { e with span := tok.span }
          Prog.fail .unknownSymbolType
  -- no other case stores a node
  | _ => Prog.gets (·.uninit)

/-- `nulang__parse_member_chain`. -/
def parseMemberChain : Nat → NodeId → ParserM L NodeId
  | 0, _ => Prog.diverge
  | n + 1, child => do
      let _ ← parserExpect .tokenDot
      let tok ← parserExpect .tokenIdentifier
      let node ← memberNode child tok
      let tok ← parserPeek 0
      if tok.type = .tokenDot then parseMemberChain n node else pure node

/-- `nulang__try_parse_member_chain`. -/
def tryParseMemberChain (n : Nat) (node : NodeId) : ParserM L NodeId := do
  let tok ← parserPeek 0
  if tok.type = .tokenDot then parseMemberChain n node else pure node

/-- `nulang__parse_symbol`. -/
def parseSymbol : ParserM L NodeId := do
  let tok ← parserExpect .tokenIdentifier
  let node ← parserAddNode
  setNode node fun n =>
    { n with
        type := .astSymref
        value := .symref nodeNull tok.value.toIdentifier
        span := tok.span }
  pure node

/-! ### Calls and atoms -/

/-- The first argument of `nulang__parse_call`, unless the list closes at once. -/
def parseFirstArg (self : Productions L) (node : NodeId) : ParserM L Unit := do
  let tok ← parserPeek 0
  if tok.type ≠ .tokenRparen then do
    let expr ← self.parseExpr 0
    parserAppendChild node expr
  else pure ()

/-- One turn of the loop of `nulang__parse_call`: a comma and an argument. -/
def parseNextArg (self : Productions L) (node : NodeId) (_ : Unit) :
    ParserM L (ForInStep Unit) := do
  match ← parserAccept .tokenComma with
  | none => pure (.done ())
  | some _ => do
      let expr ← self.parseExpr 0
      parserAppendChild node expr
      pure (.yield ())

/-- `nulang__parse_call`. -/
def parseCall (n : Nat) (self : Productions L) (ident : NodeId) : ParserM L NodeId := do
  let node ← parserAddNode
  setNode node fun n => { n with type := .astCall }
  parserAppendChild node ident
  let _ ← parserExpect .tokenLparen
  parseFirstArg self node
  Prog.loop (parseNextArg self node) n ()
  let _ ← parserExpect .tokenRparen
  pure node

/-- `nulang__try_parse_call`. -/
def tryParseCall (n : Nat) (self : Productions L) (node : NodeId) : ParserM L NodeId := do
  let tok ← parserPeek 0
  if tok.type = .tokenLparen then parseCall n self node else pure node

/-- `nulang__parse_insert_or_singleton`. -/
def parseInsertOrSingleton (type : NodeType) : ParserM L NodeId := do
  let _ ← parserConsume
  let _ ← parserExpect .tokenLparen
  let tok ← parserExpect .tokenIdentifier
  let id ← parserAddNode
  setNode id fun n =>
    { n with
        type := type
        span := tok.span
        value :=
          if type = .astInsert then .insert archetypeNull tok.value.toIdentifier
          else .singleton archetypeNull tok.value.toIdentifier }
  -- the error of this call is dropped
  Prog.ignoreError (parserExpect .tokenRparen)
  pure id

/-- The primitive case of `nulang__parse_atom` up to its node. -/
def parseConstructor : ParserM L NodeId := do
  let tok ← parserExpect .tokenPrimitive
  let node ← parserAddNode
  setNode node fun n =>
    { n with
        type := .astBuiltin
        span := tok.span
        value := .builtin (.builtinConstructor tok.value.toPrimitive) }
  pure node

/-- The literal case of `nulang__parse_atom`. -/
def parseLiteral : ParserM L NodeId := do
  let tok ← parserConsume
  let node ← parserAddNode
  setNode node fun n =>
    { n with type := .astLiteral, span := tok.span, value := .literal tok.value.toLiteral }
  pure node

/-- `nulang__parse_atom`. -/
def parseAtom (n : Nat) (self : Productions L) : ParserM L NodeId := do
  let tok ← parserPeek 0
  match tok.type with
  | .tokenIdentifier => do
      let node ← parseSymbol
      let node ← tryParseMemberChain n node
      tryParseCall n self node
  | .tokenInsert => parseInsertOrSingleton .astInsert
  | .tokenSingleton => parseInsertOrSingleton .astSingleton
  | .tokenPrimitive => do
      let node ← parseConstructor
      let node ← tryParseMemberChain n node
      tryParseCall n self node
  | .tokenLiteral => parseLiteral
  | _ => do
      report fun e => { e with span := tok.span, tokenGot := tok.type }
      Prog.fail .invalidAtomExpression

/-! ### Expressions -/

/-- `nulang__parse_primary`. -/
def parsePrimary (n : Nat) (self : Productions L) : ParserM L NodeId := do
  let tok ← parserPeek 0
  if tok.type = .tokenLparen then do
    let _ ← parserConsume
    -- inside parentheses the precedence starts at 1
    let node ← self.parseExpr 1
    let _ ← parserExpect .tokenRparen
    pure node
  else if isUnop tok.type then do
    let tok ← parserConsume
    let expr ← self.parsePrimary
    let node ← parserAddNode
    setNode node fun n =>
      { n with type := .astUnop, value := .unop (unopFromToken tok.type), span := tok.span }
    parserAppendChild node expr
    pure node
  else if isBinop tok.type then do
    report fun e => { e with span := tok.span }
    Prog.fail .unexpectedBinop
  else parseAtom n self

/-- The precedence that the right operand of `t` starts with. -/
def nextMinAssoc (t : TokenType) : Nat :=
  if binopIsLeftAssociative t then binopPrecedence t + 1 else binopPrecedence t

/-- One turn of the loop of `nulang__parse_expr`: an operator that binds at least as tightly
as `minPrecedence`, and its right operand. -/
def parseBinop (self : Productions L) (minPrecedence : Nat) (lhs : NodeId) :
    ParserM L (ForInStep NodeId) := do
  let tok ← parserPeek 0
  if isBinop tok.type then
    if binopPrecedence tok.type < minPrecedence then pure (.done lhs)
    else do
      let nextMin := nextMinAssoc tok.type
      let tok ← parserConsume
      let rhs ← self.parseExpr nextMin
      let opNode ← parserAddNode
      setNode opNode fun n =>
        { n with type := .astBinop, value := .binop (binopFromToken tok.type), span := tok.span }
      parserAppendChild opNode lhs
      parserAppendChild opNode rhs
      pure (.yield opNode)
  else pure (.done lhs)

/-- `nulang__parse_expr`. -/
def parseExpr (n : Nat) (self : Productions L) (minPrecedence : Nat) : ParserM L NodeId := do
  let lhs ← parsePrimary n self
  Prog.loop (parseBinop self minPrecedence) n lhs

/-! ### Statements -/

/-- `nulang__parse_vardecl`. -/
def parseVardecl (self : Productions L) : ParserM L NodeId := do
  let _ ← parserExpect .tokenLet
  let ident ← parserExpect .tokenIdentifier
  let vartype ← tryParseVartype
  let _ ← parserExpect .tokenAssign
  let expr ← self.parseExpr 0
  let node ← parserAddNode
  setNode node fun n =>
    { n with
        type := .astVardecl
        span := ident.span
        value := .vardecl ident.value.toIdentifier vartype.1 }
  parserAppendChild node expr
  pure node

/-- One turn of a loop over the statements of `parent`, which a token in `stop` ends. -/
def parseBodyStmt (self : Productions L) (stop : List TokenType) (parent : NodeId) (_ : Unit) :
    ParserM L (ForInStep Unit) := do
  let tok ← parserPeek 0
  if tok.type ∈ stop then pure (.done ())
  else do
    let stmt ← self.parseStmt
    let uninit ← Prog.gets (·.uninit)
    -- a statement that stores nothing leaves the local as it was declared
    parserAppendChild parent (stmt.getD uninit)
    pure (.yield ())

/-- The tokens that end a branch of an `if`. -/
def ifBodyStop : List TokenType := [.tokenEnd, .tokenElse, .tokenElif]

/-- The token that ends the body of a `while` or a function. -/
def endStop : List TokenType := [.tokenEnd]

/-- `nulang__parse_and_append_if_body`. -/
def parseAndAppendIfBody (n : Nat) (self : Productions L) (ifNode : NodeId) :
    ParserM L Unit := do
  let body ← addCompound ifNode
  Prog.loop (parseBodyStmt self ifBodyStop body) n ()

/-- A condition, `then` and the body below it: the head of an `if` and of an `elif`. -/
def parseBranch (n : Nat) (self : Productions L) (node : NodeId) : ParserM L Unit := do
  let condition ← self.parseExpr 0
  parserAppendChild node condition
  let _ ← parserExpect .tokenThen
  parseAndAppendIfBody n self node

/-- One turn of the `elif` loop of `nulang__parse_if_stmt`. -/
def parseElif (n : Nat) (self : Productions L) (node : NodeId) (_ : Unit) :
    ParserM L (ForInStep Unit) := do
  match ← parserAccept .tokenElif with
  | none => pure (.done ())
  | some _ => do
      parseBranch n self node
      pure (.yield ())

/-- The `else` of `nulang__parse_if_stmt`, if there is one. -/
def parseElse (n : Nat) (self : Productions L) (node : NodeId) : ParserM L Unit := do
  match ← parserAccept .tokenElse with
  | none => pure ()
  | some _ => parseAndAppendIfBody n self node

/-- `nulang__parse_if_stmt`. -/
def parseIfStmt (n : Nat) (self : Productions L) : ParserM L NodeId := do
  let tok ← parserExpect .tokenIf
  let node ← parserAddNode
  setNode node fun n => { n with type := .astIf, span := tok.span }
  parseBranch n self node
  Prog.loop (parseElif n self node) n ()
  parseElse n self node
  let _ ← parserExpect .tokenEnd
  pure node

/-- `nulang__parse_assign_stmt`. -/
def parseAssignStmt (self : Productions L) (ident : NodeId) : ParserM L NodeId := do
  let tok ← parserExpect .tokenAssign
  let expr ← self.parseExpr 0
  let node ← parserAddNode
  setNode node fun n => { n with type := .astAssign, span := tok.span }
  parserAppendChild node ident
  parserAppendChild node expr
  pure node

/-- `nulang__parse_while_stmt`. -/
def parseWhileStmt (n : Nat) (self : Productions L) : ParserM L NodeId := do
  let tok ← parserExpect .tokenWhile
  let expr ← self.parseExpr 0
  let node ← parserAddNode
  setNode node fun n => { n with type := .astWhile, span := tok.span }
  parserAppendChild node expr
  let _ ← parserExpect .tokenDo
  let compound ← addCompound node
  Prog.loop (parseBodyStmt self endStop compound) n ()
  let _ ← parserExpect .tokenEnd
  pure node

/-- One turn of the argument loop of `nulang__parse_fundecl`. -/
def parseArgdecl (node : NodeId) (_ : Unit) : ParserM L (ForInStep Unit) := do
  let tok ← parserExpect .tokenIdentifier
  let type ← parseVartype
  let arg ← parserAddNode
  setNode arg fun n =>
    { n with
        type := .astArgdecl, span := tok.span, value := .argdecl tok.value.toIdentifier type }
  parserAppendChild node arg
  match ← parserAccept .tokenComma with
  | none => pure (.done ())
  | some _ => pure (.yield ())

/-- The arguments of `nulang__parse_fundecl`, unless the list closes at once. -/
def parseArgdecls (n : Nat) (node : NodeId) : ParserM L Unit := do
  let tok ← parserPeek 0
  if tok.type ≠ .tokenRparen then Prog.loop (parseArgdecl node) n () else pure ()

/-- `node.value.fundecl.return_type = type`. -/
def setReturnType (type : Vartype) (n : Node) : Node :=
  match n.value with
  | .fundecl name _ exported => { n with value := .fundecl name type exported }
  | _ => n

/-- The return type of `nulang__parse_fundecl`, if there is one. -/
def parseReturnType (node : NodeId) : ParserM L Unit := do
  let type ← tryParseVartype
  if type.2 then setNode node (setReturnType type.1) else pure ()

/-- `nulang__parse_fundecl`. -/
def parseFundecl (n : Nat) (self : Productions L) (exported : Bool) : ParserM L NodeId := do
  let _ ← parserExpect .tokenFunction
  let tok ← parserExpect .tokenIdentifier
  let node ← parserAddNode
  setNode node fun n =>
    { n with
        type := .astFundecl
        span := tok.span
        value := .fundecl tok.value.toIdentifier ⟨.unknown, none, none⟩ exported }
  let _ ← parserExpect .tokenLparen
  parseArgdecls n node
  let _ ← parserExpect .tokenRparen
  parseReturnType node
  let compound ← addCompound node
  Prog.loop (parseBodyStmt self endStop compound) n ()
  let _ ← parserExpect .tokenEnd
  pure node

/-- `nulang__parse_return_stmt`. -/
def parseReturnStmt (self : Productions L) : ParserM L NodeId := do
  let tok ← parserExpect .tokenReturn
  let expr ← self.parseExpr 0
  let node ← parserAddNode
  setNode node fun n => { n with type := .astReturn, span := tok.span }
  parserAppendChild node expr
  pure node

/-- The identifier case of `nulang__parse_stmt`: an assignment or a call. -/
def parseIdentStmt (n : Nat) (self : Productions L) : ParserM L NodeId := do
  let ident ← parseSymbol
  let ident ← tryParseMemberChain n ident
  let tok ← parserPeek 0
  if tok.type = .tokenAssign then parseAssignStmt self ident
  else if tok.type = .tokenLparen then parseCall n self ident
  else do
    report fun e => { e with span := tok.span }
    Prog.fail .identifierAsStatement

/-- `nulang__parse_stmt`. The cases for `export`, `for`, `break` and `continue` are empty in
the source: they succeed with the token still ahead and `*node` unset. -/
def parseStmt (n : Nat) (self : Productions L) : ParserM L (Option NodeId) := do
  let tok ← parserPeek 0
  match tok.type with
  | .tokenLet => some <$> parseVardecl self
  | .tokenExport => pure none
  | .tokenFunction => some <$> parseFundecl n self false
  | .tokenReturn => some <$> parseReturnStmt self
  | .tokenIf => some <$> parseIfStmt n self
  | .tokenFor => pure none
  | .tokenWhile => some <$> parseWhileStmt n self
  | .tokenBreak => pure none
  | .tokenContinue => pure none
  | .tokenIdentifier => some <$> parseIdentStmt n self
  | _ => do
      report fun e => { e with span := tok.span, tokenGot := tok.type }
      Prog.fail .nonStatementToken

/-! ### The module -/

/-- The productions with `fuel` levels of recursion. -/
def productions : Nat → Productions L
  | 0 => ⟨fun _ => Prog.diverge, Prog.diverge, Prog.diverge⟩
  | n + 1 =>
      ⟨parseExpr n (productions n), parsePrimary n (productions n), parseStmt n (productions n)⟩

/-- One turn of the first loop of `nulang__parse`. The branches for `import` and `from` are
empty in the source. -/
def parseHeader (_ : Unit) : ParserM L (ForInStep Unit) := do
  let tok ← parserPeek 0
  if tok.type = .tokenImport then pure (.yield ())
  else if tok.type = .tokenFrom then pure (.yield ())
  else pure (.done ())

/-- One turn of the second loop of `nulang__parse`. The local `stmt` lives outside the loop:
a statement that stores nothing leaves the last one in it. -/
def parseModuleStmt (self : Productions L) (stmt : NodeId) : ParserM L (ForInStep NodeId) := do
  let tok ← parserPeek 0
  if tok.type = .tokenEof then pure (.done stmt)
  else do
    let node ← self.parseStmt
    let stmt := node.getD stmt
    let root ← Prog.gets (·.ast.root)
    parserAppendChild root stmt
    pure (.yield stmt)

/-- `nulang__parse`. -/
def parse (fuel : Nat) : ParserM L Unit := do
  Prog.loop parseHeader fuel ()
  let stmt ← Prog.gets (·.uninit)
  let _ ← Prog.loop (parseModuleStmt (productions fuel)) fuel stmt
  let _ ← parserExpect .tokenEof
  pure ()

end

/-- The parser's state at the start of `nulang__parse` on `source`. -/
def parserStart (source : Source) (ast : Ast) (error : ErrorData) (uninit : NodeId) :
    Parser Lexer :=
  { lexer := lexerInit source, ast, error, uninit }

end Nucleus.Lang
