import Nucleus.Lang.Parser
import Nucleus.Spec.Syntax

/-!
# `Nucleus.Spec.Grammar`: the language the parser accepts

`Derives c rs s rs'` is the grammar: from the lexer results `rs`, the production `c` reads the
syntax `s` and leaves the results `rs'`. The rules speak of tokens and abstract syntax only.
The productions that continue a piece of syntax already read (`chain`, `callOpt`, `call`,
`climb`) carry it in the category.

The rules are those of the language with one exception, which is the code's: `insert(name)` and
`singleton(name)` skip whatever stands in the place of the closing parenthesis (`rs.tail`).
-/

set_option autoImplicit false

namespace Nucleus.Spec

open Nucleus.Lib
open Nucleus.Vm
open Nucleus.Lang

/-- The type of the next token, `none` at a lexical error. -/
def lookahead : List LexResult → Option TokenType
  | [] => some .tokenEof
  | .ok tok :: _ => some tok.type
  | .error _ :: _ => none

/-- The next result never comes: the call of the lexer that reads it does not return. -/
def endless : Option LexResult → Bool
  | some (.error e) => e.code.isNone
  | _ => false

/-- The productions. -/
inductive Cat where
  | chain (object : Syn)
  | callOpt (callee : Syn)
  | call (callee : Syn)
  | args
  | atom
  | primary
  | expr (minPrecedence : Nat)
  | climb (minPrecedence : Nat) (lhs : Syn)
  | params
  | paramsOpt
  | branch
  | elifs
  | elseOpt
  | stmt
  | body (stop : List TokenType)

/-- The syntax that a production has in hand when it starts. -/
def Cat.before : Cat → Syn
  | .chain o => o
  | .callOpt o => o
  | .call o => o
  | .climb _ l => l
  | _ => .nil

/-- `: type`. -/
inductive DerivesType : List LexResult → Vartype → List LexResult → Prop where
  | primitive {c t : Token} {rs : List LexResult} :
      c.type = .tokenColon → t.type = .tokenPrimitive →
      DerivesType (.ok c :: .ok t :: rs) ⟨t.value.toPrimitive, none, none⟩ rs
  | archetype {c t : Token} {rs : List LexResult} :
      c.type = .tokenColon → t.type = .tokenIdentifier →
      DerivesType (.ok c :: .ok t :: rs)
        ⟨.entity, some archetypeNull, some t.value.toIdentifier⟩ rs

/-- The type of a variable or a function that has none. -/
def noType : Vartype := ⟨.unknown, none, none⟩

/-- An optional `: type`. -/
inductive DerivesTypeOpt : List LexResult → Vartype → List LexResult → Prop where
  | absent {t : TokenType} {rs : List LexResult} :
      lookahead rs = some t → t ≠ .tokenColon → DerivesTypeOpt rs noType rs
  | present {ty : Vartype} {rs rs' : List LexResult} :
      DerivesType rs ty rs' → DerivesTypeOpt rs ty rs'

/-- `object.name`: a member of a symbol or a member, or the builtin function of a constructor's
primitive. -/
def memberOf (object : Syn) (name : SourceString) : Option Syn :=
  match object with
  | .nil => none
  | .cons k cs _ =>
      match k with
      | .symref _ | .member _ => some (.tree (.member name) object)
      | .builtin (.builtinConstructor primitive) =>
          (findBuiltinFunction primitive name).map fun f =>
            .tree (.builtin (.builtinFunction f)) cs
      | _ => none

/-- The operator `t` continues an expression of the precedence `minPrecedence`. -/
def Continues (minPrecedence : Nat) (t : TokenType) : Prop :=
  isBinop t = true ∧ minPrecedence ≤ binopPrecedence t

/-- The grammar. -/
inductive Derives : Cat → List LexResult → Syn → List LexResult → Prop where
  | chainEnd {o : Syn} {t : TokenType} {rs : List LexResult} :
      lookahead rs = some t → t ≠ .tokenDot → Derives (.chain o) rs o rs
  | chainDot {o o' s : Syn} {d m : Token} {rs rs' : List LexResult} :
      d.type = .tokenDot → m.type = .tokenIdentifier →
      memberOf o m.value.toIdentifier = some o' → Derives (.chain o') rs s rs' →
      Derives (.chain o) (.ok d :: .ok m :: rs) s rs'
  | callOptEnd {o : Syn} {t : TokenType} {rs : List LexResult} :
      lookahead rs = some t → t ≠ .tokenLparen → Derives (.callOpt o) rs o rs
  | callOptCall {o s : Syn} {rs rs' : List LexResult} :
      Derives (.call o) rs s rs' → Derives (.callOpt o) rs s rs'
  | callNone {o : Syn} {l r : Token} {rs : List LexResult} :
      l.type = .tokenLparen → r.type = .tokenRparen →
      Derives (.call o) (.ok l :: .ok r :: rs) (.tree .call o) rs
  | callSome {o e as : Syn} {l r : Token} {t : TokenType} {rs rs₁ rs' : List LexResult} :
      l.type = .tokenLparen → lookahead rs = some t → t ≠ .tokenRparen →
      Derives (.expr 0) rs e rs₁ → Derives .args rs₁ as (.ok r :: rs') →
      r.type = .tokenRparen →
      Derives (.call o) (.ok l :: rs) (.tree .call (o ++ (e ++ as))) rs'
  | argsEnd {t : TokenType} {rs : List LexResult} :
      lookahead rs = some t → t ≠ .tokenComma → Derives .args rs .nil rs
  | argsComma {e as : Syn} {c : Token} {rs rs₁ rs' : List LexResult} :
      c.type = .tokenComma → Derives (.expr 0) rs e rs₁ → Derives .args rs₁ as rs' →
      Derives .args (.ok c :: rs) (e ++ as) rs'
  | symbol {o s : Syn} {i : Token} {rs rs₁ rs' : List LexResult} :
      i.type = .tokenIdentifier →
      Derives (.chain (.leaf (.symref i.value.toIdentifier))) rs o rs₁ →
      Derives (.callOpt o) rs₁ s rs' → Derives .atom (.ok i :: rs) s rs'
  | constructor {o s : Syn} {i : Token} {rs rs₁ rs' : List LexResult} :
      i.type = .tokenPrimitive →
      Derives (.chain (.leaf (.builtin (.builtinConstructor i.value.toPrimitive)))) rs o rs₁ →
      Derives (.callOpt o) rs₁ s rs' → Derives .atom (.ok i :: rs) s rs'
  | literal {i : Token} {rs : List LexResult} :
      i.type = .tokenLiteral → Derives .atom (.ok i :: rs) (.leaf (.literal i.value.toLiteral)) rs
  | insert {i l n : Token} {rs : List LexResult} :
      i.type = .tokenInsert → l.type = .tokenLparen → n.type = .tokenIdentifier →
      endless rs.head? = false →
      Derives .atom (.ok i :: .ok l :: .ok n :: rs) (.leaf (.insert n.value.toIdentifier)) rs.tail
  | singleton {i l n : Token} {rs : List LexResult} :
      i.type = .tokenSingleton → l.type = .tokenLparen → n.type = .tokenIdentifier →
      endless rs.head? = false →
      Derives .atom (.ok i :: .ok l :: .ok n :: rs) (.leaf (.singleton n.value.toIdentifier))
        rs.tail
  | paren {s : Syn} {l r : Token} {rs rs' : List LexResult} :
      l.type = .tokenLparen → Derives (.expr 1) rs s (.ok r :: rs') → r.type = .tokenRparen →
      Derives .primary (.ok l :: rs) s rs'
  | unop {s : Syn} {u : Token} {rs rs' : List LexResult} :
      isUnop u.type = true → Derives .primary rs s rs' →
      Derives .primary (.ok u :: rs) (.tree (.unop (unopFromToken u.type)) s) rs'
  | atom {s : Syn} {rs rs' : List LexResult} : Derives .atom rs s rs' → Derives .primary rs s rs'
  | expr {m : Nat} {l s : Syn} {rs rs₁ rs' : List LexResult} :
      Derives .primary rs l rs₁ → Derives (.climb m l) rs₁ s rs' → Derives (.expr m) rs s rs'
  | climbEnd {m : Nat} {l : Syn} {t : TokenType} {rs : List LexResult} :
      lookahead rs = some t → ¬ Continues m t → Derives (.climb m l) rs l rs
  | climbOp {m : Nat} {l r s : Syn} {o : Token} {rs rs₁ rs' : List LexResult} :
      Continues m o.type → Derives (.expr (nextMinAssoc o.type)) rs r rs₁ →
      Derives (.climb m (.tree (.binop (binopFromToken o.type)) (l ++ r))) rs₁ s rs' →
      Derives (.climb m l) (.ok o :: rs) s rs'
  | paramsLast {ty : Vartype} {i : Token} {t : TokenType} {rs rs' : List LexResult} :
      i.type = .tokenIdentifier → DerivesType rs ty rs' → lookahead rs' = some t →
      t ≠ .tokenComma → Derives .params (.ok i :: rs) (.leaf (.argdecl i.value.toIdentifier ty)) rs'
  | paramsComma {ty : Vartype} {ps : Syn} {i c : Token} {rs rs₁ rs' : List LexResult} :
      i.type = .tokenIdentifier → DerivesType rs ty (.ok c :: rs₁) → c.type = .tokenComma →
      Derives .params rs₁ ps rs' →
      Derives .params (.ok i :: rs) (.leaf (.argdecl i.value.toIdentifier ty) ++ ps) rs'
  | paramsNone {rs : List LexResult} :
      lookahead rs = some .tokenRparen → Derives .paramsOpt rs .nil rs
  | paramsSome {ps : Syn} {t : TokenType} {rs rs' : List LexResult} :
      lookahead rs = some t → t ≠ .tokenRparen → Derives .params rs ps rs' →
      Derives .paramsOpt rs ps rs'
  | branch {c b : Syn} {t : Token} {rs rs₁ rs' : List LexResult} :
      Derives (.expr 0) rs c (.ok t :: rs₁) → t.type = .tokenThen →
      Derives (.body ifBodyStop) rs₁ b rs' → Derives .branch rs (c ++ .tree .compound b) rs'
  | elifsEnd {t : TokenType} {rs : List LexResult} :
      lookahead rs = some t → t ≠ .tokenElif → Derives .elifs rs .nil rs
  | elifsElif {b es : Syn} {i : Token} {rs rs₁ rs' : List LexResult} :
      i.type = .tokenElif → Derives .branch rs b rs₁ → Derives .elifs rs₁ es rs' →
      Derives .elifs (.ok i :: rs) (b ++ es) rs'
  | elseNone {t : TokenType} {rs : List LexResult} :
      lookahead rs = some t → t ≠ .tokenElse → Derives .elseOpt rs .nil rs
  | elseSome {b : Syn} {i : Token} {rs rs' : List LexResult} :
      i.type = .tokenElse → Derives (.body ifBodyStop) rs b rs' →
      Derives .elseOpt (.ok i :: rs) (.tree .compound b) rs'
  | vardecl {ty : Vartype} {e : Syn} {l i a : Token} {rs rs₁ rs' : List LexResult} :
      l.type = .tokenLet → i.type = .tokenIdentifier → DerivesTypeOpt rs ty (.ok a :: rs₁) →
      a.type = .tokenAssign → Derives (.expr 0) rs₁ e rs' →
      Derives .stmt (.ok l :: .ok i :: rs) (.tree (.vardecl i.value.toIdentifier ty) e) rs'
  | fundecl {ty : Vartype} {ps b : Syn} {f i l r e : Token} {rs rs₁ rs₂ rs' : List LexResult} :
      f.type = .tokenFunction → i.type = .tokenIdentifier → l.type = .tokenLparen →
      Derives .paramsOpt rs ps (.ok r :: rs₁) → r.type = .tokenRparen →
      DerivesTypeOpt rs₁ ty rs₂ → Derives (.body endStop) rs₂ b (.ok e :: rs') →
      e.type = .tokenEnd →
      Derives .stmt (.ok f :: .ok i :: .ok l :: rs)
        (.tree (.fundecl i.value.toIdentifier ty false) (ps ++ .tree .compound b)) rs'
  | returnStmt {e : Syn} {r : Token} {rs rs' : List LexResult} :
      r.type = .tokenReturn → Derives (.expr 0) rs e rs' →
      Derives .stmt (.ok r :: rs) (.tree .returnStmt e) rs'
  | ifStmt {b es l : Syn} {i e : Token} {rs rs₁ rs₂ rs' : List LexResult} :
      i.type = .tokenIf → Derives .branch rs b rs₁ → Derives .elifs rs₁ es rs₂ →
      Derives .elseOpt rs₂ l (.ok e :: rs') → e.type = .tokenEnd →
      Derives .stmt (.ok i :: rs) (.tree .ifStmt (b ++ (es ++ l))) rs'
  | whileStmt {c b : Syn} {w d e : Token} {rs rs₁ rs' : List LexResult} :
      w.type = .tokenWhile → Derives (.expr 0) rs c (.ok d :: rs₁) → d.type = .tokenDo →
      Derives (.body endStop) rs₁ b (.ok e :: rs') → e.type = .tokenEnd →
      Derives .stmt (.ok w :: rs) (.tree .whileStmt (c ++ .tree .compound b)) rs'
  | assign {o e : Syn} {i a : Token} {rs rs₁ rs' : List LexResult} :
      i.type = .tokenIdentifier →
      Derives (.chain (.leaf (.symref i.value.toIdentifier))) rs o (.ok a :: rs₁) →
      a.type = .tokenAssign → Derives (.expr 0) rs₁ e rs' →
      Derives .stmt (.ok i :: rs) (.tree .assign (o ++ e)) rs'
  | callStmt {o s : Syn} {i : Token} {rs rs₁ rs' : List LexResult} :
      i.type = .tokenIdentifier →
      Derives (.chain (.leaf (.symref i.value.toIdentifier))) rs o rs₁ →
      Derives (.call o) rs₁ s rs' → Derives .stmt (.ok i :: rs) s rs'
  | bodyEnd {stop : List TokenType} {t : TokenType} {rs : List LexResult} :
      lookahead rs = some t → t ∈ stop → Derives (.body stop) rs .nil rs
  | bodyStmt {stop : List TokenType} {s b : Syn} {t : TokenType} {rs rs₁ rs' : List LexResult} :
      lookahead rs = some t → t ∉ stop → Derives .stmt rs s rs₁ →
      Derives (.body stop) rs₁ b rs' → Derives (.body stop) rs (s ++ b) rs'

/-- The tokens whose case in `nulang__parse_stmt` is empty. -/
def idleTokens : List TokenType := [.tokenExport, .tokenFor, .tokenBreak, .tokenContinue]

/-- The tokens whose case in the first loop of `nulang__parse` is empty. -/
def headerTokens : List TokenType := [.tokenImport, .tokenFrom]

/-- The token that ends a module. -/
def moduleStop : List TokenType := [.tokenEof]

/-- A whole source: statements up to its end, and no header token at its start. -/
structure DerivesModule (rs : List LexResult) (s : Syn) : Prop where
  header : ∀ t, lookahead rs = some t → t ∉ headerTokens
  body : Derives (.body moduleStop) rs s []

end Nucleus.Spec
