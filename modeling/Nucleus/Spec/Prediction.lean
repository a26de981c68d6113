import Nucleus.Lib.Metered
import Nucleus.Spec.Grammar

/-!
# `Nucleus.Spec.Prediction`: the table of the language

The grammar without its attributes, as a predictive machine: `Goal` is what is still to be read, and
the table chooses by one token what a goal is replaced by. `Codes` relates the productions of the
grammar to the goals. Two things of the attributes stay, as the language depends on them: the least
precedence of an expression, and what stands in front of a member chain (`Designator`): a member of
a primitive is one of its builtin functions, and these have no members.

Where the language has a choice the table follows the parser: the idle tokens begin no statement,
the place of the closing parenthesis of `insert(name)` and `singleton(name)` is skipped, and a goal
`.node` stands where the tree gets its next node.

The run of the table on the results of a source, with a budget of one for each free node of the
arena, says how the parser ends. It stands still where the table does (`Halting`), it stores no
position where the table comes to an end without one (`EndsBlind`), and its error is at the item
where the table has no choice (`Names`). `BlamesFirst` is what this item says about the source: it
is the first one that no module continues with.
-/

set_option autoImplicit false

namespace Nucleus.Spec

open Nucleus.Lib
open Nucleus.Lang
open Nucleus.Vm (Primitive)

/-- What a member chain and a call can start from. -/
inductive Designator where
  | place
  | constructor (primitive : Primitive)
  | function
  deriving DecidableEq, Repr

/-- The designator of a kind. -/
def Kind.designator : Kind → Option Designator
  | .symref _ | .member _ => some .place
  | .builtin (.builtinConstructor primitive) => some (.constructor primitive)
  | .builtin (.builtinFunction _) => some .function
  | _ => none

/-- What a member of a designator is: a place has places, and a primitive builtin functions. -/
def Designator.next : Designator → Designator
  | .place => .place
  | _ => .function

/-- The nodes that a member adds: a builtin function takes the node of its primitive. -/
def Designator.nodes : Designator → Nat
  | .place => 1
  | _ => 0

/-- The designator has a member of this name. -/
def Designator.hasMember : Designator → SourceString → Bool
  | .place, _ => true
  | .constructor primitive, name => (findBuiltinFunction primitive name).isSome
  | .function, _ => false

/-- What is still to be read. The goal `.node` reads nothing: a node of the tree is due. -/
inductive Goal where
  | node
  | tok (t : TokenType)
  | member (d : Designator)
  | typeName
  | skip
  | chain (d : Designator)
  | callOpt
  | call
  | firstArg
  | args
  | atom
  | primary
  | expr (minPrecedence : Nat)
  | climb (minPrecedence : Nat)
  | type
  | typeOpt
  | params
  | paramsRest
  | paramsOpt
  | branch
  | elifs
  | elseOpt
  | stmt
  | identRest
  | body (stop : List TokenType)
  deriving DecidableEq, Repr

/-- The token of a result, that of the end behind the last one, and none for a lexical error. -/
def ahead : Option LexResult → Option Token
  | none => some Token.eof
  | some (.ok token) => some token
  | some (.error _) => none

/-- The choice that takes the token. -/
def take : Option (Bool × List Goal) := some (true, [])

/-- The choice that leaves the token, and replaces the goal. -/
def expand (gs : List Goal) : Option (Bool × List Goal) := some (false, gs)

/-- The choices that do not depend on the token. What is skipped has to come, whatever it is. -/
def Goal.always : Goal → Option LexResult → Option (Bool × List Goal)
  | .skip, h => if endless h then none else take
  | .node, _ => expand []
  | .call, _ => expand [.node, .tok .tokenLparen, .firstArg, .args, .tok .tokenRparen]
  | .expr m, _ => expand [.primary, .climb m]
  | .type, _ => expand [.tok .tokenColon, .typeName]
  | .params, _ => expand [.tok .tokenIdentifier, .type, .node, .paramsRest]
  | .branch, _ => expand [.expr 0, .tok .tokenThen, .node, .body ifBodyStop]
  | _, _ => none

/-- A statement, by its first token. -/
def stmtTable (t : Token) : Option (Bool × List Goal) :=
  match t.type with
  | .tokenLet =>
      expand [.tok .tokenLet, .tok .tokenIdentifier, .typeOpt, .tok .tokenAssign, .expr 0, .node]
  | .tokenFunction =>
      expand [.tok .tokenFunction, .tok .tokenIdentifier, .node, .tok .tokenLparen, .paramsOpt,
        .tok .tokenRparen, .typeOpt, .node, .body endStop, .tok .tokenEnd]
  | .tokenReturn => expand [.tok .tokenReturn, .expr 0, .node]
  | .tokenIf => expand [.tok .tokenIf, .node, .branch, .elifs, .elseOpt, .tok .tokenEnd]
  | .tokenWhile =>
      expand [.tok .tokenWhile, .expr 0, .node, .tok .tokenDo, .node, .body endStop, .tok .tokenEnd]
  | .tokenIdentifier => expand [.tok .tokenIdentifier, .node, .chain .place, .identRest]
  | _ => none

/-- `let` begins a declaration. -/
theorem stmtTable_let {t : Token} (h : t.type = .tokenLet) :
    stmtTable t = expand [.tok .tokenLet, .tok .tokenIdentifier, .typeOpt, .tok .tokenAssign,
      .expr 0, .node] := by
  unfold stmtTable; rw [h]

/-- `function` begins a function. -/
theorem stmtTable_function {t : Token} (h : t.type = .tokenFunction) :
    stmtTable t = expand [.tok .tokenFunction, .tok .tokenIdentifier, .node, .tok .tokenLparen,
      .paramsOpt, .tok .tokenRparen, .typeOpt, .node, .body endStop, .tok .tokenEnd] := by
  unfold stmtTable; rw [h]

/-- `return` begins a return. -/
theorem stmtTable_return {t : Token} (h : t.type = .tokenReturn) :
    stmtTable t = expand [.tok .tokenReturn, .expr 0, .node] := by
  unfold stmtTable; rw [h]

/-- `if` begins a conditional. -/
theorem stmtTable_if {t : Token} (h : t.type = .tokenIf) :
    stmtTable t = expand [.tok .tokenIf, .node, .branch, .elifs, .elseOpt, .tok .tokenEnd] := by
  unfold stmtTable; rw [h]

/-- `while` begins a loop. -/
theorem stmtTable_while {t : Token} (h : t.type = .tokenWhile) :
    stmtTable t = expand [.tok .tokenWhile, .expr 0, .node, .tok .tokenDo, .node, .body endStop,
      .tok .tokenEnd] := by
  unfold stmtTable; rw [h]

/-- A name begins an assignment or a call. -/
theorem stmtTable_identifier {t : Token} (h : t.type = .tokenIdentifier) :
    stmtTable t = expand [.tok .tokenIdentifier, .node, .chain .place, .identRest] := by
  unfold stmtTable; rw [h]

/-- An atom, by its first token. -/
def atomTable (t : Token) : Option (Bool × List Goal) :=
  match t.type with
  | .tokenIdentifier => expand [.tok .tokenIdentifier, .node, .chain .place, .callOpt]
  | .tokenPrimitive =>
      expand [.tok .tokenPrimitive, .node, .chain (.constructor t.value.toPrimitive), .callOpt]
  | .tokenLiteral => some (true, [.node])
  | .tokenInsert =>
      expand [.tok .tokenInsert, .tok .tokenLparen, .tok .tokenIdentifier, .node, .skip]
  | .tokenSingleton =>
      expand [.tok .tokenSingleton, .tok .tokenLparen, .tok .tokenIdentifier, .node, .skip]
  | _ => none

/-- A name begins a chain of members. -/
theorem atomTable_identifier {t : Token} (h : t.type = .tokenIdentifier) :
    atomTable t = expand [.tok .tokenIdentifier, .node, .chain .place, .callOpt] := by
  unfold atomTable; rw [h]

/-- A primitive begins a constructor or a builtin function. -/
theorem atomTable_primitive {t : Token} (h : t.type = .tokenPrimitive) :
    atomTable t = expand [.tok .tokenPrimitive, .node, .chain (.constructor t.value.toPrimitive),
      .callOpt] := by
  unfold atomTable; rw [h]

/-- A literal is an atom by itself. -/
theorem atomTable_literal {t : Token} (h : t.type = .tokenLiteral) :
    atomTable t = some (true, [.node]) := by
  unfold atomTable; rw [h]

/-- `insert` has the name of an archetype in parentheses. -/
theorem atomTable_insert {t : Token} (h : t.type = .tokenInsert) :
    atomTable t = expand [.tok .tokenInsert, .tok .tokenLparen, .tok .tokenIdentifier, .node,
      .skip] := by
  unfold atomTable; rw [h]

/-- `singleton` has the name of an archetype in parentheses. -/
theorem atomTable_singleton {t : Token} (h : t.type = .tokenSingleton) :
    atomTable t = expand [.tok .tokenSingleton, .tok .tokenLparen, .tok .tokenIdentifier, .node,
      .skip] := by
  unfold atomTable; rw [h]

/-- The other choices, by the next token. -/
def Goal.table : Goal → Token → Option (Bool × List Goal)
  | .tok a, t => if t.type = a then take else none
  | .member d, t =>
      if t.type = .tokenIdentifier ∧ d.hasMember t.value.toIdentifier then
        some (true, List.replicate d.nodes .node)
      else none
  | .typeName, t =>
      if t.type = .tokenPrimitive ∨ t.type = .tokenIdentifier then take else none
  | .chain d, t =>
      if t.type = .tokenDot then some (true, [.member d, .chain d.next]) else expand []
  | .callOpt, t => if t.type = .tokenLparen then expand [.call] else expand []
  | .firstArg, t => if t.type = .tokenRparen then expand [] else expand [.expr 0]
  | .args, t =>
      if t.type = .tokenComma then expand [.tok .tokenComma, .expr 0, .args] else expand []
  | .atom, t => atomTable t
  | .primary, t =>
      if t.type = .tokenLparen then expand [.tok .tokenLparen, .expr 1, .tok .tokenRparen]
      else if isUnop t.type then expand [.tok t.type, .primary, .node]
      else if isBinop t.type then none
      else expand [.atom]
  | .climb m, t =>
      if isBinop t.type ∧ m ≤ binopPrecedence t.type then
        expand [.tok t.type, .expr (nextMinAssoc t.type), .node, .climb m]
      else expand []
  | .typeOpt, t => if t.type = .tokenColon then expand [.type] else expand []
  | .paramsRest, t =>
      if t.type = .tokenComma then expand [.tok .tokenComma, .params] else expand []
  | .paramsOpt, t => if t.type = .tokenRparen then expand [] else expand [.params]
  | .elifs, t =>
      if t.type = .tokenElif then expand [.tok .tokenElif, .branch, .elifs] else expand []
  | .elseOpt, t =>
      if t.type = .tokenElse then expand [.tok .tokenElse, .node, .body ifBodyStop] else expand []
  | .stmt, t => stmtTable t
  | .identRest, t =>
      if t.type = .tokenAssign then expand [.tok .tokenAssign, .expr 0, .node]
      else if t.type = .tokenLparen then expand [.call]
      else none
  | .body stop, t => if t.type ∈ stop then expand [] else expand [.stmt, .body stop]
  | _, _ => none

/-- The table. -/
def parserTable : Predictive LexResult Goal where
  select g h := g.always h <|> (ahead h).bind g.table

/-- The syntax in hand is a designator. -/
def IsDesignated (o : Syn) (d : Designator) : Prop :=
  ∃ k cs, o = .tree k cs ∧ k.designator = some d

/-- The goal that stands for a production. -/
inductive Codes : Cat → Goal → Prop where
  | chain {o : Syn} {d : Designator} : IsDesignated o d → Codes (.chain o) (.chain d)
  | callOpt {o : Syn} : Codes (.callOpt o) .callOpt
  | call {o : Syn} : Codes (.call o) .call
  | args : Codes .args .args
  | atom : Codes .atom .atom
  | primary : Codes .primary .primary
  | expr {m : Nat} : Codes (.expr m) (.expr m)
  | climb {m : Nat} {l : Syn} : Codes (.climb m l) (.climb m)
  | params : Codes .params .params
  | paramsOpt : Codes .paramsOpt .paramsOpt
  | branch : Codes .branch .branch
  | elifs : Codes .elifs .elifs
  | elseOpt : Codes .elseOpt .elseOpt
  | stmt : Codes .stmt .stmt
  | body {stop : List TokenType} : Codes (.body stop) (.body stop)

/-! ### Completions -/

/-- A token of the type `t`, with a value that the type has. -/
def sampleToken (t : TokenType) : Token where
  type := t
  span := Token.eof.span
  value :=
    match t with
    | .tokenIdentifier => .identifier ⟨['x'], 1⟩
    | .tokenPrimitive => .primitive .int
    | .tokenLiteral => .literal (.literalInt 0)
    | _ => .none

/-- The name of a builtin function. -/
def sampleMember : Token :=
  ⟨.tokenIdentifier, Token.eof.span, .identifier ⟨['n', 'o', 'r', 'm'], 4⟩⟩

/-- Something short that a goal reads. -/
def Goal.sample : Goal → List Token
  | .tok t => [sampleToken t]
  | .member _ => [sampleMember]
  | .typeName => [sampleToken .tokenPrimitive]
  | .skip => [sampleToken .tokenRparen]
  | .call | .identRest => [sampleToken .tokenLparen, sampleToken .tokenRparen]
  | .atom | .primary | .expr _ => [sampleToken .tokenLiteral]
  | .type => [sampleToken .tokenColon, sampleToken .tokenPrimitive]
  | .params =>
      [sampleToken .tokenIdentifier, sampleToken .tokenColon, sampleToken .tokenPrimitive]
  | .branch => [sampleToken .tokenLiteral, sampleToken .tokenThen]
  | .stmt => [sampleToken .tokenReturn, sampleToken .tokenLiteral]
  | _ => []

/-- A token that no expression, type or list goes on with. -/
def isClosing (t : TokenType) : Bool :=
  t ∉ [.tokenDot, .tokenLparen, .tokenComma, .tokenColon] ∧ ¬ isBinop t

/-- Designators that have a member. Only one primitive has builtin functions. -/
def Designator.HasMembers (d : Designator) : Prop := d = .place ∨ d = .constructor .vec2

instance (d : Designator) : Decidable d.HasMembers := inferInstanceAs (Decidable (_ ∨ _))

/-- The tokens that may follow the sample of a goal. -/
def Goal.follows : Goal → TokenType → Bool
  | .node, _ | .tok _, _ | .typeName, _ | .skip, _ | .type, _ | .call, _ => true
  | .member d, _ => d.HasMembers
  | .chain _, t => t ≠ .tokenDot
  | .firstArg, t | .args, t | .paramsOpt, t => t = .tokenRparen
  | .branch, t | .elifs, t | .elseOpt, t => t = .tokenEnd
  | .body stop, t => t ∈ stop ∧ isClosing t
  | _, t => isClosing t

/-- A member of a designator without members: it has no name that could be read. -/
def NoMember (gs : List Goal) : Prop := ∃ d rest, gs = .member d :: rest ∧ ¬ d.HasMembers

/-! ### The run of a source -/

/-- A stack of goals and the results ahead. -/
abbrev Config : Type := List Goal × List LexResult

/-- The span that a dropped error leaves in the error data, if there is an error: what stands in the
place of the closing parenthesis is another token, or the lexer fails there. -/
def droppedSpan : Option LexResult → Option Span
  | none => some Token.eof.span
  | some (.ok token) => if token.type = .tokenRparen then none else some token.span
  | some (.error e) => e.span

/-- A node costs one, and where an item is skipped the span of the dropped error is noted. -/
def parserTariff : Tariff LexResult Goal Span where
  price
    | .node => 1
    | _ => 0
  remark
    | .skip, h => droppedSpan h
    | _, _ => none

/-- With `k` free nodes the parser comes from the beginning of the results `rs` to `c`, and the last
error that it dropped has left the span of the ledger, if there is one. -/
def Comes (rs : List LexResult) (k : Nat) (c : Config) (l : Ledger Span) : Prop :=
  parserTable.PaidRuns parserTariff (([.body moduleStop], rs), ⟨k, none⟩) (c, l)

/-- The parser gets no further: it waits for a result that never comes, or a statement begins with
an idle token. -/
def Standstill (c : Config) : Prop :=
  parserTable.Blocked c ∧ endless c.2.head? = true ∨
    ∃ gs t, c.1 = .stmt :: gs ∧ lookahead c.2 = some t ∧ t ∈ idleTokens

/-- The parser stands still nowhere in the results `rs` with `k` free nodes: there is no header
token at the start, and it comes to no standstill. -/
structure Halting (rs : List LexResult) (k : Nat) : Prop where
  header : ∀ t, lookahead rs = some t → t ∉ headerTokens
  goes : ∀ c l, Comes rs k c l → ¬ Standstill c

/-- The parser stops here without a position: a node is due and none is free, or the lexer fails
without a span. -/
def BlindExit (c : Config) (l : Ledger Span) : Prop :=
  (∃ gs, c.1 = .node :: gs ∧ l.budget = 0) ∨
    parserTable.Blocked c ∧ ∃ code rest, c.2 = .error ⟨some code, none⟩ :: rest

/-- The parser comes to an exit without a position, and no error that it dropped before has left
one. -/
def EndsBlind (rs : List LexResult) (k : Nat) : Prop :=
  ∃ c budget, Comes rs k c ⟨budget, none⟩ ∧ BlindExit c ⟨budget, none⟩

/-! ### The error -/

/-- The error data of the error `e` name the first of the results `rest`, or the end. A lone `!` is
an error of the lexer without a span. -/
def Names (e : Error) (d : ErrorData) : List LexResult → Prop
  | [] => d.span = Token.eof.span
  | .ok token :: _ => d.span = token.span
  | .error x :: _ => x.code = some e ∧ ∀ s, x.span = some s → d.span = s

/-- A module begins with these results. -/
def Viable (us : List LexResult) : Prop := ∃ ws s, DerivesModule (us ++ ws) s

/-- The results `rs` are those of no module, and the error is where this shows: the items in front
of it are the beginning of a module, and with the item that it names (or with the end) they are not.
There is one exception: behind a builtin function and behind a primitive that has none the dot is
already too much, and the error is at the item behind the dot. -/
structure BlamesFirst (e : Error) (d : ErrorData) (rs us rest : List LexResult) : Prop where
  split : rs = us ++ rest
  names : Names e d rest
  first : ∀ ws s, ws.head? = rest.head? → ¬ DerivesModule (us ++ ws) s
  viable : Viable us ∨ ∃ vs dot, us = vs ++ [.ok dot] ∧ dot.type = .tokenDot ∧ Viable vs

end Nucleus.Spec
