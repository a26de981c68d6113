import Nucleus.Lang.Lexer

/-!
# `Nucleus.Lang.TokenSource`: what the parser reads tokens from

The parser reads its tokens with `nulang__lexer_peek` and `nulang__lexer_next` only. The class
`TokenSource` is this interface, the parser of the model is generic in it, and the lexer is its
instance.

`LawfulTokenSource` says what the parser relies on. `Reads l rs` means that repeated calls of
`next` on `l` give the results `rs` and then the end of the source for ever, and the laws say
that a peek at depth 0 shows the head of this sequence. A lexical error is a result too: a
peek that meets one consumes it.
-/

set_option autoImplicit false

namespace Nucleus.Lang

/-- The two calls of the lexer that the parser makes. -/
class TokenSource (L : Type) where
  /-- `nulang__lexer_peek`. -/
  peek : L → Nat → LexResult × L
  /-- `nulang__lexer_next`. -/
  next : L → LexResult × L

instance : TokenSource Lexer := ⟨lexerPeek, lexerNext⟩

/-- What the lexer guarantees of a token before the end: it is not the end, and a primitive
token carries one of the primitives that have a name. -/
def Token.Valid (t : Token) : Prop :=
  t.type ≠ .tokenEof ∧
    (t.type = .tokenPrimitive → t.value.toPrimitive ≠ .unknown ∧ t.value.toPrimitive ≠ .entity)

instance (t : Token) : Decidable t.Valid := by
  unfold Token.Valid
  infer_instance

/-- A token source whose calls follow a sequence of results, with the end of the source after
it for ever. -/
class LawfulTokenSource (L : Type) [TokenSource L] where
  /-- The results still to come, without the end. -/
  Reads : L → List LexResult → Prop
  next_nil : ∀ {l : L}, Reads l [] →
    (TokenSource.next l).1 = .ok Token.eof ∧ Reads (TokenSource.next l).2 []
  next_cons : ∀ {l : L} {r : LexResult} {rs : List LexResult}, Reads l (r :: rs) →
    (TokenSource.next l).1 = r ∧ Reads (TokenSource.next l).2 rs
  peek_nil : ∀ {l : L}, Reads l [] →
    (TokenSource.peek l 0).1 = .ok Token.eof ∧ Reads (TokenSource.peek l 0).2 []
  peek_ok : ∀ {l : L} {t : Token} {rs : List LexResult}, Reads l (.ok t :: rs) →
    (TokenSource.peek l 0).1 = .ok t ∧ Reads (TokenSource.peek l 0).2 (.ok t :: rs)
  peek_error : ∀ {l : L} {e : LexError} {rs : List LexResult}, Reads l (.error e :: rs) →
    (TokenSource.peek l 0).1 = .error e ∧ Reads (TokenSource.peek l 0).2 rs
  /-- The results are tokens of the language. -/
  valid : ∀ {l : L} {rs : List LexResult} {t : Token}, Reads l rs → .ok t ∈ rs → t.Valid

end Nucleus.Lang
