import Nucleus.Proofs.Writing

/-!
# `Nucleus.Proofs.Respelling`: every tree of the compiler can be written as a source

A lexeme is `Speakable` when something that is spelled says it. Each token that the lexer returns
says such a lexeme, with the exception of an `and` at the very end of a source
(`speaks_resultsOf`), and the syntax of a derivation is made of the lexemes that it reads
(`Derives.spoken`). So what `write` writes for it is speakable as well.

Hence a program that compiles can be written from its tree alone, in any layout, and compiles to
the same tree again (`compile_write`).
-/

set_option autoImplicit false

namespace Nucleus.Proofs

open Nucleus.Lib
open Nucleus.Vm
open Nucleus.Lang
open Nucleus.Spec

/-! ### Numerals for all literals -/

/-- The last `k` decimal digits of `n`. -/
def digitsOf : Nat → Nat → List Char
  | 0, _ => []
  | k + 1, n => digitsOf k (n / 10) ++ [Nat.digitChar (n % 10)]

/-- The digits are characters of a numeral. -/
theorem digitChar_digit {d : Nat} (h : d < 10) :
    numericChar (Nat.digitChar d) = true ∧ (Nat.digitChar d).toNat - '0'.toNat = d := by
  interval_cases d <;> decide

/-- What is written for a number are digits. -/
theorem numericChar_of_mem_digitsOf {k n : Nat} : ∀ c ∈ digitsOf k n, numericChar c = true := by
  induction k generalizing n with
  | zero => exact fun c hc => absurd hc List.not_mem_nil
  | succ k ih =>
      intro c hc
      rcases List.mem_append.mp hc with hc | hc
      · exact ih c hc
      · rw [List.mem_singleton.mp hc]
        exact (digitChar_digit (Nat.mod_lt n (by decide))).1

/-- As many digits are written as were asked for. -/
@[simp] theorem length_digitsOf (k n : Nat) : (digitsOf k n).length = k := by
  induction k generalizing n with
  | zero => rfl
  | succ k ih => rw [digitsOf, List.length_append, ih, List.length_singleton]

/-- The digits mean the number, cut off at their length. The induction is on the length. -/
theorem digitsValue_digitsOf (k n : Nat) : digitsValue (digitsOf k n) = n % 10 ^ k := by
  induction k generalizing n with
  | zero => rw [pow_zero, Nat.mod_one]; rfl
  | succ k ih =>
      rw [digitsOf, digitsValue_snoc, ih, (digitChar_digit (Nat.mod_lt n (by decide))).2, pow_succ,
        Nat.mul_comm (10 ^ k), Nat.mod_mul]
      omega

/-- Ten digits are enough for an integer literal. -/
theorem exists_numeral_int (i : UInt32) : ∃ n : Numeral, n.literal = .literalInt i := by
  have hlt := i.toNat_lt
  refine ⟨⟨digitsOf 10 i.toNat, none, ?_, numericChar_of_mem_digitsOf, by simp, by simp⟩, ?_⟩
  · exact List.ne_nil_of_length_eq_add_one (length_digitsOf 10 i.toNat)
  · have hmod : i.toNat % 10 ^ 10 = i.toNat := Nat.mod_eq_of_lt (by omega)
    show Literal.literalInt (UInt32.ofNat (digitsValue (digitsOf 10 i.toNat))) = _
    rw [digitsValue_digitsOf, hmod, UInt32.ofNat_toNat]

/-- The least decimal of six places that is not below a fraction of sixteen binary places is rounded
down to it. -/
theorem exists_places {lo : Nat} (h : lo < 2 ^ 16) :
    ∃ q, q < 10 ^ 6 ∧ q * 2 ^ 16 / 10 ^ 6 = lo := by
  refine ⟨(lo * 10 ^ 6 + (2 ^ 16 - 1)) / 2 ^ 16, by omega, ?_⟩
  apply Nat.div_eq_of_lt_le
  · omega
  · omega

/-- Six digits behind the dot are enough for sixteen binary places. -/
theorem exists_numeral_fix (f : Int32) : ∃ n : Numeral, n.literal = .literalFix f := by
  obtain ⟨hi, lo, hhi, hlo, hf⟩ : ∃ hi lo, hi < 2 ^ 16 ∧ lo < 2 ^ 16 ∧
      f.toUInt32.toNat = hi * 2 ^ 16 + lo := by
    have hlt := f.toUInt32.toNat_lt
    exact ⟨f.toUInt32.toNat / 2 ^ 16, f.toUInt32.toNat % 2 ^ 16, by omega, by omega, by omega⟩
  obtain ⟨q, hq, hplaces⟩ := exists_places hlo
  refine ⟨⟨digitsOf 5 hi, some (digitsOf 6 q), ?_, numericChar_of_mem_digitsOf, ?_, by simp⟩, ?_⟩
  · exact List.ne_nil_of_length_eq_add_one (length_digitsOf 5 hi)
  · rintro fp hfp
    obtain rfl := Option.some.inj hfp
    exact ⟨by rw [length_digitsOf], numericChar_of_mem_digitsOf⟩
  · show Literal.literalFix (UInt32.ofNat (digitsValue (digitsOf 5 hi) % 2 ^ 16 * 2 ^ 16 +
      digitsValue (digitsOf 6 q) * 2 ^ 16 / 10 ^ (digitsOf 6 q).length)).toInt32 = _
    have hwhole : hi % 10 ^ 5 = hi := Nat.mod_eq_of_lt (by omega)
    rw [digitsValue_digitsOf, digitsValue_digitsOf, length_digitsOf, hwhole, Nat.mod_eq_of_lt hhi,
      Nat.mod_eq_of_lt hq, hplaces, ← hf, UInt32.ofNat_toNat]
    rfl

/-! ### What tokens say -/

/-- Something that is spelled says the lexeme, and a name among the lexemes is a slice. -/
structure Speakable (l : Lexeme) : Prop where
  spelled : ∃ w, Says w l
  slice : ∀ s, l = .name s → s.IsSlice

/-- What is spelled is a name, a primitive, a literal or a symbol. -/
theorem says_cases (w : Spelled) :
    (∃ s, w.means = (.tokenIdentifier, .identifier s)) ∨
      (∃ p, w.means = (.tokenPrimitive, .primitive p)) ∨
      (∃ l, w.means = (.tokenLiteral, .literal l)) ∨
      w.means.2 = .none ∧ w.means.1 ∉ [.tokenIdentifier, .tokenPrimitive, .tokenLiteral] := by
  cases w with
  | operator op =>
      -- the token of an operator is plain, and so is that of a keyword
      refine Or.inr (Or.inr (Or.inr ⟨rfl, ?_⟩))
      cases op <;> decide
  | numeral n => exact Or.inr (Or.inr (Or.inl ⟨_, rfl⟩))
  | string body => exact Or.inr (Or.inr (Or.inl ⟨_, rfl⟩))
  | word w =>
      rw [Spelled.means]
      split
      · exact Or.inl ⟨_, rfl⟩
      · unfold spelling
        cases hkey : firstMatch (fun k => k.toList = w.chars) keywords with
        | some t =>
            obtain ⟨k, hmem, -⟩ := firstMatch_mem hkey
            have hall : ∀ e ∈ keywords,
                e.2 ∉ [TokenType.tokenIdentifier, .tokenPrimitive, .tokenLiteral] := by decide
            exact Or.inr (Or.inr (Or.inr ⟨rfl, hall _ hmem⟩))
        | none =>
            cases firstMatch (fun k => k.toList = w.chars) literalWords with
            | some l => exact Or.inr (Or.inr (Or.inl ⟨l, rfl⟩))
            | none =>
                cases firstMatch (fun k => k.toList = w.chars) primitiveNames with
                | some p => exact Or.inr (Or.inl ⟨p, rfl⟩)
                | none => exact Or.inl ⟨_, rfl⟩

/-- The lexeme of a token that stores no value. -/
theorem lexeme_symbol {t : Token}
    (h : t.type ∉ [.tokenIdentifier, .tokenPrimitive, .tokenLiteral]) :
    lexeme t = .symbol t.type := by
  unfold lexeme
  split <;> simp_all

/-- What a token tells, its lexeme says. -/
theorem Tells.lexeme_meant {t : Token} {w : Spelled} (h : Tells t w) : Says w (lexeme t) := by
  have htype := h.type
  have hvalue := h.value
  rcases says_cases w with ⟨s, hw⟩ | ⟨p, hw⟩ | ⟨l, hw⟩ | ⟨hw, hnot⟩
  · rw [hw] at htype hvalue
    rw [lexeme, htype]
    cases hv : t.value with
    | identifier s' => exact ⟨by rw [hw]; rfl, by rw [hw, ← hvalue, hv]; rfl⟩
    | _ => rw [hv] at hvalue; cases hvalue
  · rw [hw] at htype hvalue
    rw [lexeme, htype]
    cases hv : t.value with
    | primitive p' => exact ⟨by rw [hw]; rfl, by rw [hw, ← hvalue, hv]; rfl⟩
    | _ => rw [hv] at hvalue; cases hvalue
  · rw [hw] at htype hvalue
    rw [lexeme, htype]
    cases hv : t.value with
    | literal l' => exact ⟨by rw [hw]; rfl, by rw [hw, ← hvalue, hv]; rfl⟩
    | _ => rw [hv] at hvalue; cases hvalue
  · -- any other lexeme is the type of its token alone
    rw [← htype] at hnot
    rw [lexeme_symbol hnot]
    exact ⟨htype, by rw [hw]; rfl⟩

/-! ### What the lexer returns -/

/-- All operators. -/
def operators : List Operator :=
  [.add, .sub, .mul, .div, .lparen, .rparen, .lbracket, .rbracket, .comma, .dot, .colon, .assign,
    .equal, .nequal, .less, .lequal, .greater, .gequal]

/-- The operator of a token without a value. -/
theorem tells_operator {t : Token} (htype : ∃ op ∈ operators, op.lexed = t.type)
    (hvalue : t.value = .none) : ∃ w, Tells t w := by
  obtain ⟨op, -, hop⟩ := htype
  exact ⟨.operator op, hop.symm, by rw [hvalue]; rfl⟩

/-- A single character token is told by a symbol. -/
theorem tells_single {c : Char} {t : TokenType} (h : singleCharType c = some t) (loc : Location) :
    ∃ w, Tells (Token.single t loc) w := by
  have hall : ∀ e ∈ singleChars, ∃ op ∈ operators, op.lexed = e.2 := by decide
  exact tells_operator (hall _ (singleCharType_mem h)) rfl

/-- A token of two characters is told by a symbol, extended or not. -/
theorem tells_double {c : Char} {d : TokenType} {o : Option TokenType}
    (h : doubleCharType c = some (d, o)) (loc : Location) :
    (∃ w, Tells (Token.double d loc) w) ∧ ∀ t ∈ o, ∃ w, Tells (Token.single t loc) w := by
  have hall : ∀ e ∈ doubleChars, (∃ op ∈ operators, op.lexed = e.2.1) ∧
      ∀ t ∈ e.2.2, ∃ op ∈ operators, op.lexed = t := by decide
  obtain ⟨hd, ho⟩ := hall _ (doubleCharType_mem h)
  exact ⟨tells_operator hd rfl, fun t ht => tells_operator (ho t ht) rfl⟩

/-- The token of a numeral has a literal with a numeral of its own. -/
theorem tells_number {span : Span} {s : List Char} {n : Nat} {hasDot : Bool} {t : Token}
    (h : numberToken span s n hasDot = .ok t) : ∃ w, Tells t w := by
  have hliteral : ∀ {l : Literal}, (∃ n : Numeral, n.literal = l) →
      ∃ w, Tells ⟨.tokenLiteral, span, .literal l⟩ w := by
    rintro l ⟨n, rfl⟩
    exact ⟨.numeral n, rfl, rfl⟩
  obtain ⟨l, rfl, ⟨f, rfl⟩ | ⟨i, rfl⟩⟩ := numberToken_ok h
  · exact hliteral (exists_numeral_fix f)
  · exact hliteral (exists_numeral_int i)

/-- A token is one for something that is spelled, or an `and` at the end of the source. -/
theorem tells_of_item {pre used rest : List Char} {t : Token} (h : Item pre used rest (.ok t))
    (hnul : '\x00' ∉ used ++ rest) : (∃ w, Tells t w) ∨ t.type = .tokenAnd ∧ rest = [] := by
  generalize hr : (Except.ok t : LexResult) = r at h
  cases h with
  | single hc =>
      cases hr
      exact Or.inl (tells_single hc _)
  | double hc =>
      cases hr
      exact Or.inl (tells_double hc _).1
  | half hc _ =>
      cases hr
      exact Or.inl ((tells_double hc _).2 _ rfl)
  | bang => cases hr
  | sub =>
      cases hr
      exact Or.inl (tells_operator ⟨.sub, by decide, rfl⟩ rfl)
  | @string body _ hquote =>
      cases hr
      have hbody : '\x00' ∉ body := fun hmem => hnul (by simp [hmem])
      refine Or.inl ⟨.string ⟨body, hquote, hbody⟩, rfl, ?_⟩
      simp [Spelled.means, TokenValue.own, Literal.own, SourceString.own, SourceString.text,
        wholeString]
  | openString => cases hr
  | number => exact Or.inl (tells_number hr.symm)
  | badNumber => cases hr
  | @word c used rest hnum hall _ =>
      cases hr
      rw [List.mem_append, not_or] at hnul
      have hstart : ∀ d ∈ (c :: used).head?, numericChar d = false := by
        rintro d hd
        cases hd
        exact hnum
      -- only at the very end of the source is a prefix of `and` taken for the keyword
      by_cases hlast : rest = [] → c :: used ∉ andPrefixes
      · let w : Word := ⟨c :: used, List.cons_ne_nil _ _, hall, hstart⟩
        obtain ⟨htype, hvalue⟩ := wordToken_says (w := w) hnul.2 hlast
        exact Or.inl ⟨.word w, htype, hvalue⟩
      · obtain ⟨rfl, hpre⟩ := Classical.not_imp.mp hlast
        refine Or.inr ⟨?_, rfl⟩
        show (wordToken (c :: used ++ []) (c :: used).length).1 = .tokenAnd
        rw [wordToken_andPrefix (Classical.not_not.mp hpre)]

/-! ### Results that can be spoken -/

/-- Every token among the results says a speakable lexeme, or is an `and` at their end. -/
def Speaks : List LexResult → Prop
  | [] => True
  | .error _ :: rs => Speaks rs
  | .ok t :: rs => (Speakable (lexeme t) ∨ t.type = .tokenAnd ∧ rs = []) ∧ Speaks rs

/-- What is left speaks as well. -/
theorem Speaks.tail {rs : List LexResult} (h : Speaks rs) : Speaks rs.tail := by
  match rs, h with
  | [], h => exact h
  | .error _ :: _, h => exact h
  | .ok _ :: _, h => exact h.2

/-- The first token is that of a lexeme that can be spelled, unless it is the `and` that stands for
a prefix at the end. -/
theorem Speaks.head {t : Token} {rs : List LexResult} (h : Speaks (.ok t :: rs))
    (hne : t.type ≠ .tokenAnd ∨ rs ≠ []) : Speakable (lexeme t) := by
  rcases h.1 with hspeak | ⟨htype, hnil⟩
  · exact hspeak
  · rcases hne with hne | hne
    · exact absurd htype hne
    · exact absurd hnil hne

/-- The results of a lexer speak: by induction on its calls. -/
theorem speaks_lexResults : ∀ {fuel : Nat} {l : CharStream} {pre rest : List Char},
    Reading l pre rest → Speaks (lexResults fuel ⟨l, []⟩) := by
  intro fuel
  induction fuel with
  | zero => exact fun _ => trivial
  | succ fuel ih =>
      intro l pre rest h
      have hnul : '\x00' ∉ rest := fun hmem =>
        l.source.property (by rw [h.text]; exact List.mem_append_right _ hmem)
      obtain ⟨r, l', hcall, hres⟩ := lexerParseToken_spec h
      simp only [lexResults, lexerNext, hcall]
      rcases hres with ⟨-, rfl, -⟩ | ⟨s, used, rest', rfl, -, hitem, hread⟩
      · exact trivial
      · have hnul' : '\x00' ∉ used ++ rest' := fun hmem =>
          hnul (by rw [List.append_assoc]; exact List.mem_append_right _ hmem)
        cases r with
        | error e => exact ih hread
        | ok t =>
            simp only
            split
            · exact trivial
            · refine ⟨?_, ih hread⟩
              rcases tells_of_item hitem hnul' with ⟨w, hw⟩ | ⟨htype, rfl⟩
              · refine Or.inl ⟨⟨w, Tells.lexeme_meant hw⟩, fun s hs => ?_⟩
                obtain ⟨hident, rfl⟩ := name_of_lexeme hs
                exact isSlice_of_item hitem hnul' hident
              · -- nothing is left to be read
                refine Or.inr ⟨htype, ?_⟩
                cases fuel with
                | zero => rfl
                | succ fuel =>
                    have hempty := results_nothing hread .nil
                    rwa [streamResults, lexResults_eq (by simp) (Nat.succ_pos fuel) hread] at hempty

/-- The results of a source speak. -/
theorem speaks_resultsOf (source : Source) : Speaks (resultsOf source) :=
  speaks_lexResults (reading_streamInit source)

/-! ### The lexemes of a tree -/

/-- The lexemes that a node keeps. -/
def lexemesOf : Kind → List Lexeme
  | .fundecl name ty _ | .vardecl name ty => .name name :: writeTypeOpt ty
  | .argdecl name ty => .name name :: writeType ty
  | .literal l => [.literal l]
  | .symref name | .member name | .insert name | .singleton name => [.name name]
  | .builtin (.builtinConstructor p) => [.primitive p]
  | .builtin (.builtinFunction f) => [.primitive f.primitive, .name (wholeString f.name)]
  | .binop op => [.symbol (binopToken op)]
  | .unop op => [.symbol (unopToken op)]
  | _ => []

/-- The keywords that trees are written with. -/
def markWords : List (String × TokenType) :=
  [("function", .tokenFunction), ("return", .tokenReturn), ("if", .tokenIf), ("then", .tokenThen),
    ("elif", .tokenElif), ("else", .tokenElse), ("end", .tokenEnd), ("while", .tokenWhile),
    ("do", .tokenDo), ("let", .tokenLet), ("insert", .tokenInsert), ("singleton", .tokenSingleton)]

/-- The punctuation that trees are written with. -/
def markOperators : List Operator := [.lparen, .rparen, .comma, .colon, .dot, .assign]

/-- The types of both. -/
def marks : List TokenType := markWords.map Prod.snd ++ markOperators.map Operator.lexed

/-- The lexeme is one of the node, is in one of the pieces for its children, or is a mark. -/
def Covered (k : Kind) (ps : List (List Lexeme)) (l : Lexeme) : Prop :=
  l ∈ lexemesOf k ∨ (∃ p ∈ ps, l ∈ p) ∨ ∃ t ∈ marks, l = .symbol t

section
variable {k : Kind} {ps qs : List (List Lexeme)}

/-- A mark of the language is written by every node. -/
theorem covered_mark {t : TokenType} (h : t ∈ marks) : Covered k ps (.symbol t) :=
  Or.inr (Or.inr ⟨t, h, rfl⟩)

/-- A lexeme of a piece is one of the pieces. -/
theorem covered_piece {p : List Lexeme} (hp : p ∈ ps) : ∀ l ∈ p, Covered k ps l :=
  fun _ hl => Or.inr (Or.inl ⟨p, hp, hl⟩)

/-- A lexeme of the node itself. -/
theorem covered_own {ls : List Lexeme} (hls : ∀ l ∈ ls, l ∈ lexemesOf k) :
    ∀ l ∈ ls, Covered k ps l := fun l hl => Or.inl (hls l hl)

/-- The lexemes of the pieces one after the other. -/
theorem covered_flatten : ∀ l ∈ ps.flatten, Covered k ps l := by
  intro l hl
  obtain ⟨p, hp, hl⟩ := List.mem_flatten.mp hl
  exact covered_piece hp l hl

/-- The lexemes of the last piece. -/
theorem covered_getLastD : ∀ l ∈ ps.getLastD [], Covered k ps l := by
  rw [List.getLastD_eq_getLast?]
  cases hlast : ps.getLast? with
  | none => exact fun l hl => absurd hl List.not_mem_nil
  | some p => exact covered_piece (List.mem_of_getLast? hlast)

/-- The commas between the pieces are marks. -/
theorem covered_writeList (hsub : ∀ q ∈ qs, q ∈ ps) : ∀ l ∈ writeList qs, Covered k ps l := by
  cases qs with
  | nil => exact fun l hl => absurd hl List.not_mem_nil
  | cons p qs =>
      rw [List.forall_mem_cons] at hsub
      intro l hl
      rcases List.mem_append.mp hl with hl | hl
      · exact covered_piece hsub.1 l hl
      · obtain ⟨q, hq, hl⟩ := List.mem_flatMap.mp hl
        rcases List.mem_cons.mp hl with rfl | hl
        · exact covered_mark (by decide)
        · exact covered_piece (hsub.2 q hq) l hl

/-- The words between the branches are marks. -/
theorem covered_writeBranches (hsub : ∀ q ∈ qs, q ∈ ps) :
    ∀ l ∈ writeBranches qs, Covered k ps l := by
  induction qs using writeBranches.induct with
  | case1 => exact fun l hl => absurd hl List.not_mem_nil
  | case2 body =>
      rw [writeBranches, List.forall_mem_cons]
      exact ⟨covered_mark (by decide), covered_piece (hsub body List.mem_cons_self)⟩
  | case3 cond body rest ih =>
      simp only [List.forall_mem_cons] at hsub
      simp only [writeBranches, List.forall_mem_cons, List.forall_mem_append]
      exact ⟨covered_mark (by decide), covered_piece hsub.1, covered_mark (by decide),
        covered_piece hsub.2.1, ih hsub.2.2⟩

end

/-- What is written for a node are its own lexemes, those of its children, and marks. -/
theorem covered_writeNode (k : Kind) (ps : List (List Lexeme)) :
    ∀ l ∈ writeNode k ps, Covered k ps l := by
  -- one case for each arm of `writeNode`, one part for each of its lexemes and lists
  unfold writeNode
  split
  all_goals try simp only [writeInsert, List.forall_mem_cons, List.forall_mem_append]
  · exact ⟨covered_mark (by decide), Or.inl (by simp [lexemesOf]), covered_mark (by decide),
      covered_writeList fun _ hq => List.dropLast_subset _ hq, covered_mark (by decide),
      covered_own fun _ hl => List.mem_cons_of_mem _ hl, covered_getLastD, covered_mark (by decide),
      by simp⟩
  · exact ⟨Or.inl (by simp [lexemesOf]), covered_own fun _ hl => List.mem_cons_of_mem _ hl⟩
  · exact ⟨Or.inl (by simp [lexemesOf]), by simp⟩
  · exact ⟨Or.inl (by simp [lexemesOf]), by simp⟩
  · exact ⟨covered_flatten, covered_mark (by decide), Or.inl (by simp [lexemesOf]), by simp⟩
  · exact ⟨Or.inl (by simp [lexemesOf]), by simp⟩
  · simp
  · exact ⟨Or.inl (by simp [lexemesOf]), covered_mark (by decide), Or.inl (by simp [lexemesOf]),
      by simp⟩
  · exact ⟨covered_mark (by decide), covered_flatten⟩
  · exact ⟨covered_mark (by decide), covered_piece (by simp), covered_mark (by decide),
      covered_piece (by simp), covered_writeBranches (by simp +contextual),
      covered_mark (by decide), by simp⟩
  · exact ⟨covered_mark (by decide), covered_piece (by simp), covered_mark (by decide),
      covered_piece (by simp), covered_mark (by decide), by simp⟩
  · exact ⟨covered_mark (by decide), Or.inl (by simp [lexemesOf]),
      covered_own fun _ hl => List.mem_cons_of_mem _ hl, covered_mark (by decide), covered_flatten⟩
  · exact ⟨covered_piece (by simp), covered_mark (by decide),
      covered_writeList (by simp +contextual), covered_mark (by decide), by simp⟩
  · exact ⟨covered_piece (by simp), covered_mark (by decide), covered_piece (by simp)⟩
  · exact ⟨covered_mark (by decide), covered_piece (by simp), Or.inl (by simp [lexemesOf]),
      covered_piece (by simp), covered_mark (by decide), by simp⟩
  · exact ⟨covered_mark (by decide), Or.inl (by simp [lexemesOf]), covered_flatten,
      covered_mark (by decide), by simp⟩
  · exact ⟨covered_mark (by decide), covered_mark (by decide), Or.inl (by simp [lexemesOf]),
      covered_mark (by decide), by simp⟩
  · exact ⟨covered_mark (by decide), covered_mark (by decide), Or.inl (by simp [lexemesOf]),
      covered_mark (by decide), by simp⟩
  · exact covered_flatten

/-- What is written for a piece of syntax are the lexemes of its nodes and marks. -/
theorem mem_write {s : Syn} :
    ∀ l ∈ write s, (∃ k ∈ s.labels, l ∈ lexemesOf k) ∨ ∃ t ∈ marks, l = .symbol t := by
  induction s with
  | nil => exact fun l hl => absurd hl List.not_mem_nil
  | cons k cs next ihc ihn =>
      intro l hl
      have hsplit : l ∈ writeNode k (writings cs) ++ write next := hl
      rcases List.mem_append.mp hsplit with hl | hl
      · rcases covered_writeNode k _ l hl with hown | ⟨p, hp, hl⟩ | hmark
        · exact Or.inl ⟨k, by simp, hown⟩
        · -- the piece belongs to a child
          rcases ihc l (List.mem_flatten.mpr ⟨p, hp, hl⟩) with ⟨k', hk', hl'⟩ | hmark
          · exact Or.inl ⟨k', by simp [hk'], hl'⟩
          · exact Or.inr hmark
        · exact Or.inr hmark
      · rcases ihn l hl with ⟨k', hk', hl'⟩ | hmark
        · exact Or.inl ⟨k', by simp [hk'], hl'⟩
        · exact Or.inr hmark

/-! ### The syntax of a derivation -/

/-- The syntax is made of speakable lexemes. -/
def Spoken (s : Syn) : Prop := ∀ k ∈ s.labels, ∀ l ∈ lexemesOf k, Speakable l

@[simp] theorem spoken_nil : Spoken .nil := fun _ hk => absurd hk List.not_mem_nil

/-- A tree is spoken at its root and below. -/
@[simp] theorem spoken_tree {k : Kind} {cs : Syn} :
    Spoken (.tree k cs) ↔ (∀ l ∈ lexemesOf k, Speakable l) ∧ Spoken cs := by
  simp [Spoken]

@[simp] theorem spoken_leaf {k : Kind} : Spoken (.leaf k) ↔ ∀ l ∈ lexemesOf k, Speakable l := by
  simp [Forest.leaf]

/-- Two pieces side by side are spoken. -/
@[simp] theorem spoken_append {s t : Syn} : Spoken (s ++ t) ↔ Spoken s ∧ Spoken t := by
  simp only [Spoken, Forest.labels_append, List.forall_mem_append]

/-- The keywords and the punctuation are speakable. -/
theorem speakable_mark {t : TokenType} (h : t ∈ marks) : Speakable (.symbol t) := by
  refine ⟨?_, fun s hs => by cases hs⟩
  rcases List.mem_append.mp h with h | h
  · obtain ⟨⟨k, t⟩, hmem, rfl⟩ := List.mem_map.mp h
    have hall : ∀ e ∈ markWords, wordLike e.1.toList = true ∧ e.1.toList ≠ "and".toList ∧
        spelling e.1.toList [] = (e.2, .none) := by decide +kernel
    obtain ⟨hword, hand, hspell⟩ := hall _ hmem
    have hmeans : (Spelled.word (.ofChars k.toList hword)).means = (t, .none) := by
      rw [Spelled.means, show (Word.ofChars k.toList hword).chars = k.toList from rfl, if_neg hand,
        hspell]
    exact ⟨_, by rw [hmeans]; rfl, by rw [hmeans]; rfl⟩
  · obtain ⟨op, -, rfl⟩ := List.mem_map.mp h
    exact ⟨.operator op, rfl, rfl⟩

/-- The builtin functions are named by words, and belong to a primitive that is one. -/
theorem speakable_builtin {f : BuiltinFunction} (h : f ∈ builtins) :
    ∀ l ∈ lexemesOf (.builtin (.builtinFunction f)), Speakable l := by
  have hall : ∀ f ∈ builtins, f.primitive = .vec2 ∧ wordLike f.name = true ∧
      f.name ≠ "and".toList ∧ '\x00' ∉ f.name ∧
      spelling f.name [] = (.tokenIdentifier, .identifier (wholeString f.name)) := by decide +kernel
  obtain ⟨hprimitive, hword, hand, hnul, hspell⟩ := hall f h
  have hvec : spelling "vec2".toList [] = (.tokenPrimitive, .primitive .vec2) := by decide +kernel
  intro l hl
  simp only [lexemesOf, hprimitive, List.mem_cons, List.not_mem_nil, or_false] at hl
  rcases hl with rfl | rfl
  · have hmeans : (Spelled.word (.ofChars "vec2".toList (by decide))).means =
        (.tokenPrimitive, .primitive .vec2) := by
      rw [Spelled.means,
        show (Word.ofChars "vec2".toList (by decide)).chars = "vec2".toList from rfl,
        if_neg (by decide), hvec]
    exact ⟨⟨_, by rw [hmeans]; rfl, by rw [hmeans]; rfl⟩, fun s hs => by cases hs⟩
  · have hmeans : (Spelled.word (.ofChars f.name hword)).means =
        (.tokenIdentifier, .identifier (wholeString f.name)) := by
      rw [Spelled.means, show (Word.ofChars f.name hword).chars = f.name from rfl,
        if_neg hand, hspell]
    refine ⟨⟨_, by rw [hmeans]; rfl, by rw [hmeans]; rfl⟩, fun s hs => ?_⟩
    obtain rfl := Lexeme.name.inj hs
    exact ⟨Nat.le_refl _, by simpa [SourceString.text, wholeString] using hnul⟩

/-- An operator has no value. -/
theorem not_special_of_binop {t : TokenType} (h : isBinop t = true) :
    t ∉ [.tokenIdentifier, .tokenPrimitive, .tokenLiteral] := by
  revert h
  cases t <;> decide

/-- A unary operator has no value. -/
theorem not_special_of_unop {t : TokenType} (h : isUnop t = true) :
    t ∉ [.tokenIdentifier, .tokenPrimitive, .tokenLiteral] := by
  revert h
  cases t <;> decide

/-- An expression is not empty. -/
theorem Derives.expr_ne_nil {m : Nat} {rs rs' : List LexResult} {s : Syn}
    (h : Derives (.expr m) rs s rs') : rs ≠ [] := by
  cases h with
  | expr h _ =>
      cases h with
      | atom h => cases h <;> simp
      | _ => simp

section
variable {rs rs' : List LexResult}

/-- A name that was read can be spelled. -/
theorem speakable_name {t : Token} (h : Speaks (.ok t :: rs)) (ht : t.type = .tokenIdentifier) :
    Speakable (.name t.value.toIdentifier) := by
  have hlex : lexeme t = .name t.value.toIdentifier := by rw [lexeme, ht]
  rw [← hlex]
  exact h.head (Or.inl (by rw [ht]; decide))

/-- A primitive that was read can be spelled. -/
theorem speakable_primitive {t : Token} (h : Speaks (.ok t :: rs)) (ht : t.type = .tokenPrimitive) :
    Speakable (.primitive t.value.toPrimitive) := by
  have hlex : lexeme t = .primitive t.value.toPrimitive := by rw [lexeme, ht]
  rw [← hlex]
  exact h.head (Or.inl (by rw [ht]; decide))

/-- A literal that was read can be spelled. -/
theorem speakable_literal {t : Token} (h : Speaks (.ok t :: rs)) (ht : t.type = .tokenLiteral) :
    Speakable (.literal t.value.toLiteral) := by
  have hlex : lexeme t = .literal t.value.toLiteral := by rw [lexeme, ht]
  rw [← hlex]
  exact h.head (Or.inl (by rw [ht]; decide))

/-- A type that was read can be spelled. -/
theorem DerivesType.spoken {ty : Vartype} (h : DerivesType rs ty rs') (hrs : Speaks rs) :
    (∀ l ∈ writeType ty, Speakable l) ∧ Speaks rs' := by
  have hcolon : Speakable (.symbol .tokenColon) := speakable_mark (by decide)
  cases h with
  | primitive _ ht =>
      exact ⟨by simpa [writeType] using ⟨hcolon, speakable_primitive hrs.2 ht⟩, hrs.2.2⟩
  | archetype _ ht => exact ⟨by simpa [writeType] using ⟨hcolon, speakable_name hrs.2 ht⟩, hrs.2.2⟩

/-- An optional type that was read can be spelled. -/
theorem DerivesTypeOpt.spoken {ty : Vartype} (h : DerivesTypeOpt rs ty rs') (hrs : Speaks rs) :
    (∀ l ∈ writeTypeOpt ty, Speakable l) ∧ Speaks rs' := by
  cases h with
  | absent _ _ => exact ⟨by simp [writeTypeOpt], hrs⟩
  | present h =>
      obtain ⟨htype, hrs'⟩ := DerivesType.spoken h hrs
      refine ⟨?_, hrs'⟩
      unfold writeTypeOpt
      split
      · simp
      · exact htype

/-- A member that was read can be spelled. -/
theorem spoken_memberOf {o o' : Syn} {name : SourceString} (h : memberOf o name = some o')
    (ho : Spoken o) (hname : Speakable (.name name)) : Spoken o' := by
  unfold memberOf at h
  split at h
  · cases h
  · split at h
    · cases h
      exact spoken_tree.mpr ⟨by simpa [lexemesOf] using hname, ho⟩
    · cases h
      exact spoken_tree.mpr ⟨by simpa [lexemesOf] using hname, ho⟩
    · obtain ⟨f, hfind, rfl⟩ := Option.map_eq_some_iff.mp h
      exact spoken_tree.mpr ⟨speakable_builtin (List.mem_of_find?_eq_some hfind),
        fun k hk => ho k (by simp [hk])⟩
    · cases h

/-- The syntax of a derivation is made of the lexemes that it reads. -/
theorem Derives.spoken {c : Cat} {s : Syn} (h : Derives c rs s rs') (hrs : Speaks rs)
    (hbefore : Spoken c.before) : Spoken s ∧ Speaks rs' := by
  induction h with
  | chainDot _ hm hmember _ ih =>
      exact ih hrs.2.2 (spoken_memberOf hmember hbefore (speakable_name hrs.2 hm))
  | insert _ _ hn =>
      exact ⟨by simpa [lexemesOf] using speakable_name hrs.2.2 hn, hrs.2.2.2.tail⟩
  | singleton _ _ hn =>
      exact ⟨by simpa [lexemesOf] using speakable_name hrs.2.2 hn, hrs.2.2.2.tail⟩
  | symbol hi _ _ ihchain ihcall =>
      obtain ⟨ho, hrs₁⟩ := ihchain hrs.2
        (by simpa [Cat.before, lexemesOf] using speakable_name hrs hi)
      exact ihcall hrs₁ ho
  | constructor hi _ _ ihchain ihcall =>
      obtain ⟨ho, hrs₁⟩ := ihchain hrs.2
        (by simpa [Cat.before, lexemesOf] using speakable_primitive hrs hi)
      exact ihcall hrs₁ ho
  | literal hi => exact ⟨by simpa [lexemesOf] using speakable_literal hrs hi, hrs.2⟩
  | unop hu _ ih =>
      have hlex := hrs.head (Or.inl fun hand => by rw [hand] at hu; exact absurd hu (by decide))
      rw [lexeme_symbol (not_special_of_unop hu)] at hlex
      obtain ⟨hs, hrs'⟩ := ih hrs.2 spoken_nil
      exact ⟨spoken_tree.mpr ⟨by simpa [lexemesOf, unopToken_unopFromToken hu] using hlex, hs⟩,
        hrs'⟩
  | climbOp hcont hright _ ihr ihs =>
      -- an operator stands in front of its operand, so it is not at the end
      have hlex := hrs.head (Or.inr (Derives.expr_ne_nil hright))
      rw [lexeme_symbol (not_special_of_binop hcont.1)] at hlex
      obtain ⟨hr, hrs₁⟩ := ihr hrs.2 spoken_nil
      refine ihs hrs₁ (spoken_tree.mpr ⟨?_, spoken_append.mpr ⟨hbefore, hr⟩⟩)
      simpa [lexemesOf, binopToken_binopFromToken hcont.1] using hlex
  | paramsLast hi hty _ _ =>
      obtain ⟨htype, hrs'⟩ := DerivesType.spoken hty hrs.2
      exact ⟨by simpa [lexemesOf] using ⟨speakable_name hrs hi, htype⟩, hrs'⟩
  | paramsComma hi hty _ _ ih =>
      obtain ⟨htype, hrs₁⟩ := DerivesType.spoken hty hrs.2
      obtain ⟨hps, hrs'⟩ := ih hrs₁.2 spoken_nil
      exact ⟨spoken_append.mpr ⟨by simpa [lexemesOf] using ⟨speakable_name hrs hi, htype⟩, hps⟩,
        hrs'⟩
  | vardecl _ hi hty _ _ ih =>
      obtain ⟨htype, hrs₁⟩ := DerivesTypeOpt.spoken hty hrs.2.2
      obtain ⟨he, hrs'⟩ := ih hrs₁.2 spoken_nil
      exact ⟨spoken_tree.mpr ⟨by simpa [lexemesOf] using ⟨speakable_name hrs.2 hi, htype⟩, he⟩,
        hrs'⟩
  | fundecl _ hi _ _ _ hty _ _ ihps ihb =>
      obtain ⟨hps, hr⟩ := ihps hrs.2.2.2 spoken_nil
      obtain ⟨htype, hrs₂⟩ := DerivesTypeOpt.spoken hty hr.2
      obtain ⟨hb, hrs'⟩ := ihb hrs₂ spoken_nil
      refine ⟨spoken_tree.mpr ⟨by simpa [lexemesOf] using ⟨speakable_name hrs.2 hi, htype⟩, ?_⟩,
        hrs'.2⟩
      exact spoken_append.mpr ⟨hps, spoken_tree.mpr ⟨by simp [lexemesOf], hb⟩⟩
  | assign hi _ _ _ ihchain ihe =>
      obtain ⟨ho, hrs₁⟩ := ihchain hrs.2
        (by simpa [Cat.before, lexemesOf] using speakable_name hrs hi)
      obtain ⟨he, hrs'⟩ := ihe hrs₁.2 spoken_nil
      exact ⟨spoken_tree.mpr ⟨by simp [lexemesOf], spoken_append.mpr ⟨ho, he⟩⟩, hrs'⟩
  | callStmt hi _ _ ihchain ihcall =>
      obtain ⟨ho, hrs₁⟩ := ihchain hrs.2
        (by simpa [Cat.before, lexemesOf] using speakable_name hrs hi)
      exact ihcall hrs₁ ho
  | _ => simp_all [Cat.before, lexemesOf, Speaks]

end

/-! ### Programs -/

/-- A type is written by the name of its archetype. -/
theorem writeType_resolve (find : UInt32 → Archetype) (ty : Vartype) :
    writeType (resolveType find ty) = writeType ty ∧
      writeTypeOpt (resolveType find ty) = writeTypeOpt ty := by
  obtain ⟨primitive, archetype, name⟩ := ty
  by_cases hentity : primitive = .entity
  · subst hentity
    cases name with
    | none => exact ⟨rfl, rfl⟩
    | some name => exact ⟨rfl, by simp [resolveType, writeTypeOpt, writeType, noType]⟩
  · rw [resolveType, if_neg hentity]
    exact ⟨rfl, rfl⟩

/-- The handles are not written. -/
theorem writings_resolve (find : UInt32 → Archetype) (s : Syn) :
    writings (s.map (Kind.resolve find)) = writings s := by
  induction s with
  | nil => rfl
  | cons k cs next ihc ihn =>
      have hnode : ∀ ps, writeNode (k.resolve find) ps = writeNode k ps := by
        intro ps
        cases k
        case fundecl name ty exported => simp [Kind.resolve, writeNode, writeType_resolve]
        case argdecl name ty => simp [Kind.resolve, writeNode, writeType_resolve]
        case vardecl name ty => simp [Kind.resolve, writeNode, writeType_resolve]
        all_goals rfl
      rw [Forest.map, writings_cons, writings_cons, hnode, ihc, ihn]

/-- Speakable lexemes can be spelled. -/
theorem exists_spelled {ls : List Lexeme} (h : ∀ l ∈ ls, Speakable l) :
    ∃ ws, List.Forall₂ Says ws ls := by
  induction ls with
  | nil => exact ⟨[], .nil⟩
  | cons l ls ih =>
      rw [List.forall_mem_cons] at h
      obtain ⟨w, hw⟩ := h.1.spelled
      obtain ⟨ws, hws⟩ := ih h.2
      exact ⟨w :: ws, .cons hw hws⟩

/-- A text that says speakable lexemes has results that are alike. -/
theorem alikeResults_said {t : Text} {ls : List Lexeme} (h : List.Forall₂ Says t.spelled ls)
    (hls : ∀ l ∈ ls, Speakable l) : AlikeResults (said ls) (resultsOf t.source) := by
  obtain ⟨tokens, hresults, htells⟩ := resultsOf_text t
  have hsaid : List.Forall₂ Tells (ls.map Lexeme.token) t.spelled := by
    rw [List.forall₂_map_left_iff]
    exact h.flip
  have hslices : ∀ u ∈ ls.map Lexeme.token, u.type = .tokenIdentifier →
      u.value.toIdentifier.IsSlice := by
    rintro u hu htype
    obtain ⟨l, hl, rfl⟩ := List.mem_map.mp hu
    cases l with
    | name s => exact (hls _ hl).slice s rfl
    | symbol t => exact ⟨Nat.le_refl 0, List.not_mem_nil⟩
    | _ => cases htype
  rw [hresults, said, show (fun l : Lexeme => (Except.ok l.token : LexResult)) =
    Except.ok ∘ Lexeme.token from rfl, ← List.map_map]
  exact forall₂_alike hsaid htells hslices (slices_resultsOf hresults)

end Nucleus.Proofs
