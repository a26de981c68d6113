import Nucleus.Proofs.Shapes
import Nucleus.Proofs.Spelling
import Nucleus.Proofs.Tree
import Nucleus.Spec.Unparse

/-!
# `Nucleus.Proofs.Unparse`: nothing in a source is lost

`Written u rest ls`: the results `u`, which a production reads in front of `rest`, close at most as
many parentheses as they open. If an `insert` has lost its closing parenthesis they close fewer,
else each has its partner and the results say the lexemes `ls`. `Spells rs ls rs'` says this of the
results between `rs` and `rs'`, and `Derives.spells` proves it of every derivation, with `ls` the
lexemes that the derivation adds to the syntax.

`parse_saidBy_iff` is the consequence for `nulang__parse`.
-/

set_option autoImplicit false

namespace Nucleus.Spec

open Nucleus.Lib
open Nucleus.Vm
open Nucleus.Lang
open Nucleus.Proofs

/-! ### Parentheses and inserts -/

/-- The number of opening parentheses. -/
def opens (u : List LexResult) : Nat := u.countP (isToken .tokenLparen)

/-- The number of closing parentheses. -/
def closes (u : List LexResult) : Nat := u.countP (isToken .tokenRparen)

/-- The opening parentheses of two pieces add up. -/
theorem opens_append (u v : List LexResult) : opens (u ++ v) = opens u + opens v :=
  List.countP_append

/-- The closing parentheses of two pieces add up. -/
theorem closes_append (u v : List LexResult) : closes (u ++ v) = closes u + closes v :=
  List.countP_append

/-- A result is a token of one type. -/
theorem isToken_unique {t t' : TokenType} {r : LexResult} (h : isToken t r = true) (hne : t ≠ t') :
    isToken t' r = false := by
  cases r with
  | error e => rfl
  | ok tok =>
      obtain rfl : tok.type = t := by simpa [isToken] using h
      simpa [isToken] using hne

/-- An opening parenthesis goes one deeper. -/
theorem depthAfter_open {r : LexResult} (h : isToken .tokenLparen r = true) (d : Nat)
    (rs : List LexResult) : depthAfter d (r :: rs) = depthAfter (d + 1) rs := by
  cases d <;> simp [depthAfter, h]

/-- A closing parenthesis comes back by one. -/
theorem depthAfter_close {r : LexResult} (h : isToken .tokenRparen r = true) (d : Nat)
    (rs : List LexResult) : depthAfter (d + 1) (r :: rs) = depthAfter d rs := by
  have hl : isToken .tokenLparen r = false := isToken_unique h (by decide)
  simp [depthAfter, hl, h]

/-- No other result changes the depth. -/
theorem depthAfter_other {r : LexResult} (hl : isToken .tokenLparen r = false)
    (hr : isToken .tokenRparen r = false) (d : Nat) (rs : List LexResult) :
    depthAfter d (r :: rs) = depthAfter d rs := by
  cases d <;> simp [depthAfter, hl, hr]

/-- The depth behind some results tells their parentheses. It is defined only where none is closed
too often. -/
theorem depthAfter_count : ∀ {rs : List LexResult} {d e : Nat}, depthAfter d rs = some e →
    d + opens rs = e + closes rs := by
  intro rs
  induction rs with
  | nil =>
      intro d e h
      cases h
      rfl
  | cons r rs ih =>
      intro d e h
      unfold opens closes
      rw [List.countP_cons, List.countP_cons]
      unfold depthAfter at h
      by_cases hl : isToken .tokenLparen r = true
      · rw [if_pos hl] at h
        rw [if_pos hl, isToken_unique hl (by decide)]
        have := ih h
        unfold opens closes at this
        simp only [Bool.false_eq_true, if_false]
        omega
      · rw [if_neg hl] at h
        rw [if_neg hl]
        by_cases hr : isToken .tokenRparen r = true
        · rw [if_pos hr] at h
          rw [if_pos hr]
          cases d with
          | zero => cases h
          | succ d =>
              have := ih h
              unfold opens closes at this
              omega
        · rw [if_neg hr] at h
          rw [if_neg hr]
          exact ih h

/-- Balanced results close as many parentheses as they open. -/
theorem Balanced.closes_eq {rs : List LexResult} (h : Balanced rs) : closes rs = opens rs := by
  have := depthAfter_count h
  omega

/-- The parentheses of `u` match, whatever is open before. -/
def Nests (u : List LexResult) : Prop :=
  ∀ d rest, depthAfter d (u ++ rest) = depthAfter d rest

/-- Two nested pieces are nested. -/
theorem Nests.append {u v : List LexResult} (hu : Nests u) (hv : Nests v) : Nests (u ++ v) := by
  intro d rest
  rw [List.append_assoc, hu, hv]

/-- What nests is balanced. -/
theorem Nests.balanced {u : List LexResult} (h : Nests u) : Balanced u := by
  have := h 0 []
  rwa [List.append_nil] at this

/-- A name in parentheses at the start stays there. -/
theorem startsWithParenName_append {u v : List LexResult} (h : startsWithParenName u = true) :
    startsWithParenName (u ++ v) = true := by
  match u, h with
  | _ :: _ :: _ :: _, h => exact h

/-- Two pieces whose inserts are closed. -/
theorem InsertsClosed.append {u v : List LexResult} (hu : InsertsClosed u) (hv : InsertsClosed v) :
    InsertsClosed (u ++ v) := by
  induction u with
  | nil => exact hv
  | cons r u ih => exact ⟨fun h => startsWithParenName_append (hu.1 h), ih hu.2⟩

/-- The inserts of the second piece are closed when all are. -/
theorem InsertsClosed.of_append {u v : List LexResult} (h : InsertsClosed (u ++ v)) :
    InsertsClosed v := by
  induction u with
  | nil => exact h
  | cons r u ih => exact ih h.2

/-! ### Results that say lexemes -/

/-- The results `u` are tokens that say `ls`, with their parentheses matched. -/
structure Faithful (u : List LexResult) (ls : List Lexeme) : Prop where
  tokens : ∀ r ∈ u, ∃ tok, r = .ok tok
  inserts : InsertsClosed u
  nests : Nests u
  content : content u = ls

/-- Two pieces that say their lexemes say them together. -/
theorem Faithful.append {u v : List LexResult} {l m : List Lexeme} (hu : Faithful u l)
    (hv : Faithful v m) : Faithful (u ++ v) (l ++ m) where
  tokens := by
    intro r hr
    rcases List.mem_append.mp hr with hr | hr
    · exact hu.tokens r hr
    · exact hv.tokens r hr
  inserts := hu.inserts.append hv.inserts
  nests := hu.nests.append hv.nests
  content := by rw [Spec.content, List.flatMap_append, ← Spec.content, ← Spec.content, hu.content,
    hv.content]

/-- The results `u` in front of `rest` close at most as many parentheses as they open, and fewer
only if an `insert` lacks its `( name )`. If they close as many they say `ls`. -/
structure Written (u rest : List LexResult) (ls : List Lexeme) : Prop where
  le : closes u ≤ opens u
  closed : InsertsClosed (u ++ rest) → closes u = opens u
  faithful : closes u = opens u → (∀ tok, .ok tok ∈ u → tok.Valid) → Faithful u ls

/-- Results that are faithful in any case. -/
theorem Faithful.written {u rest : List LexResult} {ls : List Lexeme} (h : Faithful u ls) :
    Written u rest ls := by
  have heq := h.nests.balanced.closes_eq
  exact ⟨Nat.le_of_eq heq, fun _ => heq, fun _ _ => h⟩

/-- Two pieces that were read one behind the other. -/
theorem Written.append {u v rest : List LexResult} {l m : List Lexeme}
    (hu : Written u (v ++ rest) l) (hv : Written v rest m) : Written (u ++ v) rest (l ++ m) := by
  have hle := hu.le
  have hle' := hv.le
  refine ⟨?_, ?_, ?_⟩
  · rw [opens_append, closes_append]
    omega
  · intro h
    rw [List.append_assoc] at h
    rw [opens_append, closes_append, hu.closed h, hv.closed h.of_append]
  · intro heq hvalid
    rw [opens_append, closes_append] at heq
    exact (hu.faithful (by omega) fun tok htok => hvalid tok (List.mem_append_left _ htok)).append
      (hv.faithful (by omega) fun tok htok => hvalid tok (List.mem_append_right _ htok))

/-- Nothing says nothing. -/
theorem faithful_nil : Faithful [] [] where
  tokens := by simp
  inserts := trivial
  nests := fun _ _ => rfl
  content := rfl

/-- A token that is neither a parenthesis nor an `insert`. -/
theorem faithful_token {tok : Token} (hl : tok.type ≠ .tokenLparen) (hr : tok.type ≠ .tokenRparen)
    (hi : isInsert (.ok tok) = false) : Faithful [.ok tok] (resultContent (.ok tok)) where
  tokens := by simp
  inserts := ⟨fun h => absurd h (by simp [hi]), trivial⟩
  nests := by
    intro d rest
    exact depthAfter_other (by simpa [isToken] using hl) (by simpa [isToken] using hr) d rest
  content := by rw [content, List.flatMap_singleton]

/-- Results in parentheses say what they say without. -/
theorem Written.paren {u rest : List LexResult} {ls : List Lexeme} {l r : Token}
    (hl : l.type = .tokenLparen) (hr : r.type = .tokenRparen) (h : Written u (.ok r :: rest) ls) :
    Written (.ok l :: (u ++ [.ok r])) rest ls := by
  have hopens : opens (.ok l :: (u ++ [.ok r])) = opens u + 1 := by
    simp [opens, isToken, hl, hr]
  have hcloses : closes (.ok l :: (u ++ [.ok r])) = closes u + 1 := by
    simp [closes, isToken, hl, hr]
  have hle := h.le
  refine ⟨?_, ?_, ?_⟩
  · omega
  · -- both counts go up by one, so a lost parenthesis is still missing
    intro hclosed
    have := h.closed (by simpa using hclosed.2)
    omega
  · intro heq hvalid
    obtain ⟨htokens, hinserts, hnests, hcontent⟩ :=
      h.faithful (by omega) fun tok htok => hvalid tok (by simp [htok])
    refine ⟨?_, ?_, ?_, ?_⟩
    · intro q hq
      simp only [List.mem_cons, List.mem_append, List.not_mem_nil, or_false] at hq
      rcases hq with rfl | hq | rfl
      · exact ⟨l, rfl⟩
      · exact htokens q hq
      · exact ⟨r, rfl⟩
    · refine ⟨fun hi => ?_, hinserts.append ⟨fun hi => ?_, trivial⟩⟩
      · simp [isInsert, isToken, hl] at hi
      · simp [isInsert, isToken, hr] at hi
    · intro d rest
      rw [List.cons_append, depthAfter_open (by simp [isToken, hl]), List.append_assoc, hnests,
        List.singleton_append, depthAfter_close (by simp [isToken, hr])]
    · have hmark : resultContent (.ok l) = [] ∧ resultContent (.ok r) = [] := by
        simp [resultContent, isMark, hl, hr]
      simp [content, hmark.1, hmark.2] at hcontent ⊢
      exact hcontent

/-! ### Rules -/

/-- From `rs` to `rs'` the results are written `ls`. -/
def Spells (rs : List LexResult) (ls : List Lexeme) (rs' : List LexResult) : Prop :=
  ∃ u, rs = u ++ rs' ∧ Written u rs' ls

/-- Nothing is read. -/
theorem Spells.refl (rs : List LexResult) : Spells rs [] rs := ⟨[], rfl, faithful_nil.written⟩

/-- What is read in two parts. -/
theorem Spells.trans {rs rs₁ rs' : List LexResult} {l m : List Lexeme} (h : Spells rs l rs₁)
    (h' : Spells rs₁ m rs') : Spells rs (l ++ m) rs' := by
  obtain ⟨u, rfl, hu⟩ := h
  obtain ⟨v, rfl, hv⟩ := h'
  exact ⟨u ++ v, (List.append_assoc u v rs').symm, hu.append hv⟩

/-- The types of the tokens that stand for themselves. -/
def isPlain (t : TokenType) : Bool :=
  t ∉ [.tokenIdentifier, .tokenPrimitive, .tokenLiteral, .tokenLparen, .tokenRparen, .tokenComma,
    .tokenInsert, .tokenSingleton]

/-- A token that is neither a parenthesis nor an `insert` says its content. -/
theorem Spells.token (tok : Token) {rs rs' : List LexResult} {ls : List Lexeme}
    (hl : tok.type ≠ .tokenLparen) (hr : tok.type ≠ .tokenRparen)
    (hi : isInsert (.ok tok) = false) (h : Spells rs ls rs') :
    Spells (.ok tok :: rs) (resultContent (.ok tok) ++ ls) rs' :=
  Spells.trans ⟨[.ok tok], rfl, (faithful_token hl hr hi).written⟩ h

/-- The content of a plain token is its type. -/
theorem resultContent_symbol {tok : Token} {t : TokenType} (ht : tok.type = t)
    (hplain : isPlain t = true) : resultContent (.ok tok) = [.symbol t] := by
  obtain ⟨type, span, value⟩ := tok
  obtain rfl : type = t := ht
  cases type
  all_goals first
    | rfl
    | cases hplain

/-- A token of a plain type is neither a parenthesis nor an `insert`. -/
theorem isPlain_ne {t : TokenType} (h : isPlain t = true) :
    t ≠ .tokenLparen ∧ t ≠ .tokenRparen ∧ t ≠ .tokenInsert ∧ t ≠ .tokenSingleton := by
  simp only [isPlain, List.mem_cons, List.not_mem_nil, or_false, not_or, decide_eq_true_eq] at h
  tauto

/-- A plain token. -/
theorem Spells.symbol {tok : Token} {t : TokenType} {rs rs' : List LexResult} {ls : List Lexeme}
    (ht : tok.type = t) (hplain : isPlain t = true) (h : Spells rs ls rs') :
    Spells (.ok tok :: rs) (.symbol t :: ls) rs' := by
  obtain ⟨hl, hr, hi, hs⟩ := isPlain_ne hplain
  have hrule := h.token tok (ht ▸ hl) (ht ▸ hr) (by simp [isInsert, isToken, ht, hi, hs])
  rwa [resultContent_symbol ht hplain] at hrule

/-- A name. -/
theorem Spells.name {tok : Token} {rs rs' : List LexResult} {ls : List Lexeme}
    (ht : tok.type = .tokenIdentifier) (h : Spells rs ls rs') :
    Spells (.ok tok :: rs) (nameLexeme tok.value.toIdentifier.text :: ls) rs' := by
  have hcontent : resultContent (.ok tok) = [nameLexeme tok.value.toIdentifier.text] := by
    simp [resultContent, ownLexeme, lexeme, isMark, ht]
  have hrule := h.token tok (by simp [ht]) (by simp [ht]) (by simp [isInsert, isToken, ht])
  rwa [hcontent] at hrule

/-- The name of a primitive. -/
theorem Spells.primitive {tok : Token} {rs rs' : List LexResult} {ls : List Lexeme}
    (ht : tok.type = .tokenPrimitive) (h : Spells rs ls rs') :
    Spells (.ok tok :: rs) (.primitive tok.value.toPrimitive :: ls) rs' := by
  have hcontent : resultContent (.ok tok) = [.primitive tok.value.toPrimitive] := by
    simp [resultContent, ownLexeme, lexeme, isMark, ht]
  have hrule := h.token tok (by simp [ht]) (by simp [ht]) (by simp [isInsert, isToken, ht])
  rwa [hcontent] at hrule

/-- A literal. -/
theorem Spells.literal {tok : Token} {rs rs' : List LexResult} {ls : List Lexeme}
    (ht : tok.type = .tokenLiteral) (h : Spells rs ls rs') :
    Spells (.ok tok :: rs) (.literal tok.value.toLiteral :: ls) rs' := by
  have hcontent : resultContent (.ok tok) = [.literal tok.value.toLiteral] := by
    simp [resultContent, ownLexeme, lexeme, isMark, ht]
  have hrule := h.token tok (by simp [ht]) (by simp [ht]) (by simp [isInsert, isToken, ht])
  rwa [hcontent] at hrule

/-- A comma says nothing. -/
theorem Spells.comma {tok : Token} {rs rs' : List LexResult} {ls : List Lexeme}
    (ht : tok.type = .tokenComma) (h : Spells rs ls rs') : Spells (.ok tok :: rs) ls rs' := by
  have hcontent : resultContent (.ok tok) = [] := by
    simp [resultContent, isMark, ht]
  have hrule := h.token tok (by simp [ht]) (by simp [ht]) (by simp [isInsert, isToken, ht])
  rwa [hcontent] at hrule

/-- Two parentheses that are partners say nothing. -/
theorem Spells.paren {l r : Token} {rs rs' : List LexResult} {ls : List Lexeme}
    (hl : l.type = .tokenLparen) (hr : r.type = .tokenRparen) (h : Spells rs ls (.ok r :: rs')) :
    Spells (.ok l :: rs) ls rs' := by
  obtain ⟨u, rfl, hu⟩ := h
  exact ⟨.ok l :: (u ++ [.ok r]), by simp, hu.paren hl hr⟩

/-- `insert` and `singleton` skip what stands in the place of the closing parenthesis. Unless it
is one, an opening parenthesis stays open. -/
theorem Spells.insert {i l n : Token} {t : TokenType} {rs : List LexResult} (hi : i.type = t)
    (ht : t = .tokenInsert ∨ t = .tokenSingleton) (hl : l.type = .tokenLparen)
    (hn : n.type = .tokenIdentifier) :
    Spells (.ok i :: .ok l :: .ok n :: rs)
      [.symbol t, nameLexeme n.value.toIdentifier.text] rs.tail := by
  have hinsert : isInsert (.ok i) = true := by
    rcases ht with rfl | rfl <;> simp [isInsert, isToken, hi]
  have hmark : isMark i.type = false ∧ i.type ≠ .tokenLparen ∧ i.type ≠ .tokenRparen := by
    rcases ht with rfl | rfl <;> simp [hi, isMark]
  have hcontent : resultContent (.ok i) = [.symbol t] ∧ resultContent (.ok l) = [] ∧
      resultContent (.ok n) = [nameLexeme n.value.toIdentifier.text] := by
    rcases ht with rfl | rfl <;> simp [resultContent, isMark, ownLexeme, lexeme, hi, hl, hn]
  have hopens : ∀ u, opens (.ok i :: .ok l :: .ok n :: u) = opens u + 1 := by
    intro u
    simp [opens, isToken, hmark.2.1, hl, hn]
  have hcloses : ∀ u, closes (.ok i :: .ok l :: .ok n :: u) = closes u := by
    intro u
    simp [closes, isToken, hmark.2.2, hl, hn]
  cases rs with
  | nil =>
      -- the source ends in the place of the closing parenthesis
      refine ⟨[.ok i, .ok l, .ok n], rfl, ?_, ?_, ?_⟩
      · rw [hopens, hcloses]
        exact Nat.zero_le 1
      · intro hclosed
        exact absurd (hclosed.1 hinsert) (by simp [startsWithParenName])
      · intro heq
        rw [hopens, hcloses] at heq
        cases heq
  | cons r rs =>
      refine ⟨[.ok i, .ok l, .ok n, r], rfl, ?_, ?_, ?_⟩
      · rw [hopens, hcloses]
        exact (List.countP_le_length).trans (Nat.le_add_left 1 _)
      · intro hclosed
        have hr : isToken .tokenRparen r = true := by
          have hparen : (isToken .tokenLparen (.ok l) && isToken .tokenIdentifier (.ok n) &&
              isToken .tokenRparen r) = true := hclosed.1 hinsert
          rw [Bool.and_eq_true] at hparen
          exact hparen.2
        have hrl : isToken .tokenLparen r = false := isToken_unique hr (by decide)
        rw [hopens, hcloses]
        simp [opens, closes, hr, hrl]
      · intro heq _
        rw [hopens, hcloses] at heq
        have hr : isToken .tokenRparen r = true := by
          by_contra hr
          simp [opens, closes, hr] at heq
        have hrl : isToken .tokenLparen r = false := isToken_unique hr (by decide)
        obtain ⟨q, rfl⟩ : ∃ q, r = .ok q := by
          cases r with
          | error e => cases hr
          | ok q => exact ⟨q, rfl⟩
        have hq : q.type = .tokenRparen := by simpa [isToken] using hr
        refine ⟨by simp, ⟨fun _ => ?_, ?_, ?_, ?_, trivial⟩, ?_, ?_⟩
        · simp [startsWithParenName, isToken, hl, hn, hq]
        · simp [isInsert, isToken, hl]
        · simp [isInsert, isToken, hn]
        · simp [isInsert, isToken, hq]
        · intro d rest
          simp only [List.cons_append, List.nil_append]
          rw [depthAfter_other (by simp [isToken, hmark.2.1]) (by simp [isToken, hmark.2.2]),
            depthAfter_open (by simp [isToken, hl]),
            depthAfter_other (by simp [isToken, hn]) (by simp [isToken, hn]), depthAfter_close hr]
        · have hmark' : resultContent (.ok q) = [] := by simp [resultContent, isMark, hq]
          simp [content, hcontent.1, hcontent.2.1, hcontent.2.2, hmark']

/-- `: type`. -/
theorem DerivesType.spells {rs rs' : List LexResult} {ty : Vartype} (h : DerivesType rs ty rs') :
    Spells rs (unparseType ty) rs' := by
  cases h with
  | @primitive c t _ hc ht =>
      obtain ⟨u, hu, hw⟩ := Spells.symbol hc rfl (Spells.primitive ht (Spells.refl rs'))
      refine ⟨u, hu, hw.le, hw.closed, fun heq hvalid => ?_⟩
      -- a primitive of a source has a name, so it is not taken for a missing type
      have hne : t.value.toPrimitive ≠ .unknown := by
        have hmem : (.ok t : LexResult) ∈ u := by
          obtain rfl : u = [.ok c, .ok t] := by
            have happend : ([.ok c, .ok t] : List LexResult) ++ rs' = u ++ rs' := hu
            exact (List.append_cancel_right happend).symm
          simp
        exact ((hvalid t hmem).2 ht).1
      have hty : unparseType ⟨t.value.toPrimitive, none, none⟩ =
          [.symbol .tokenColon, .primitive t.value.toPrimitive] := if_neg hne
      rw [hty]
      exact hw.faithful heq hvalid
  | archetype hc ht => exact Spells.symbol hc rfl (Spells.name ht (Spells.refl rs'))

/-- A type that may be absent says its lexemes. -/
theorem DerivesTypeOpt.spells {rs rs' : List LexResult} {ty : Vartype}
    (h : DerivesTypeOpt rs ty rs') : Spells rs (unparseType ty) rs' := by
  cases h with
  | absent _ _ => exact Spells.refl rs
  | present h => exact h.spells

/-! ### The syntax of a derivation -/

/-- The token of a binary operator is found again. -/
theorem binopToken_binopFromToken {t : TokenType} (h : isBinop t = true) :
    binopToken (binopFromToken t) = t := by
  cases t
  all_goals first
    | rfl
    | cases h

/-- The token of a unary operator is found again. -/
theorem unopToken_unopFromToken {t : TokenType} (h : isUnop t = true) :
    unopToken (unopFromToken t) = t := by
  cases t
  all_goals first
    | rfl
    | cases h

/-- Operators are plain tokens. -/
theorem isPlain_of_operator {t : TokenType} (h : isBinop t = true ∨ isUnop t = true) :
    isPlain t = true := by
  cases t
  all_goals first
    | rfl
    | exact absurd h (by decide)

/-- A builtin function that is found has the primitive and the name it was looked for with. -/
theorem findBuiltinFunction_eq {primitive : Primitive} {name : SourceString}
    {f : BuiltinFunction} (h : findBuiltinFunction primitive name = some f) :
    f.primitive = primitive ∧ f.name = name.text := by
  have hmem : f ∈ builtins := List.mem_of_find?_eq_some h
  have hnul : ∀ g ∈ builtins, '\x00' ∉ g.name := by decide
  have hfound := List.find?_some h
  simp only [sourceStringEquals, decide_eq_true_eq, Bool.decide_and, Bool.and_eq_true] at hfound
  obtain ⟨hprimitive, hlen, hcmp⟩ := hfound
  rw [hlen, strlen_eq (hnul f hmem), strncmp_prefix (hnul f hmem)] at hcmp
  refine ⟨hprimitive, ?_⟩
  rw [SourceString.text, hlen, strlen_eq (hnul f hmem)]
  exact List.prefix_iff_eq_take.mp hcmp

/-- A member is written behind its object. -/
theorem pieces_memberOf {o o' : Syn} {name : SourceString} {l : List Lexeme}
    (h : memberOf o name = some o') (ho : pieces o = [l]) :
    pieces o' = [l ++ [.symbol .tokenDot, nameLexeme name.text]] := by
  unfold memberOf at h
  cases o with
  | nil => cases h
  | cons k cs next =>
      simp only at h
      split at h
      · cases h
        simp [ho]
      · cases h
        simp [ho]
      · rename_i primitive
        obtain ⟨f, hfind, rfl⟩ := Option.map_eq_some_iff.mp h
        -- a function of a primitive is written as the primitive and the name it was found by
        obtain ⟨hprimitive, hname⟩ := findBuiltinFunction_eq hfind
        rw [pieces, List.cons.injEq] at ho
        rw [pieces_tree, ← ho.1, unparseNode_function, unparseNode_constructor, hprimitive, hname]
        rfl
      · cases h

/-- A parameter is written in front of the rest of the function. -/
theorem unparseFunction_cons (ty : Vartype) (param : List Lexeme) {rest : List (List Lexeme)}
    (h : rest ≠ []) : unparseFunction ty (param :: rest) = param ++ unparseFunction ty rest := by
  cases rest with
  | nil => exact absurd rfl h
  | cons p rest => rfl

/-- What a production adds to the syntax it has in hand, in lexemes: the syntax `s` that it gives
is written `ls` behind what it continues. -/
def Cat.Adds : Cat → Syn → List Lexeme → Prop
  | .chain o, s, ls => ∀ l, pieces o = [l] → pieces s = [l ++ ls]
  | .callOpt o, s, ls => ∀ l, pieces o = [l] → pieces s = [l ++ ls]
  | .call o, s, ls => ∀ l, pieces o = [l] → pieces s = [l ++ ls]
  | .climb _ o, s, ls => ∀ l, pieces o = [l] → pieces s = [l ++ ls]
  | .atom, s, ls => pieces s = [ls]
  | .primary, s, ls => pieces s = [ls]
  | .expr _, s, ls => pieces s = [ls]
  | .stmt, s, ls => pieces s = [ls]
  | .args, s, ls => unparse s = ls
  | .params, s, ls | .paramsOpt, s, ls =>
      ∀ ty body, unparseFunction ty (pieces s ++ [body]) = ls ++ unparseType ty ++ body
  | .body _, s, ls => unparse s = ls
  | .branch, s, ls => ∃ cond body, pieces s = [cond, body] ∧ ls = cond ++ .symbol .tokenThen :: body
  | .elifs, s, ls => ∀ ps, unparseBranches (pieces s ++ ps) = ls ++ unparseBranches ps
  | .elseOpt, s, ls => unparseBranches (pieces s) = ls

/-- The production reads what the syntax says. -/
def SpellsOut (c : Cat) (rs : List LexResult) (s : Syn) (rs' : List LexResult) : Prop :=
  ∃ ls, Spells rs ls rs' ∧ c.Adds s ls

section
variable {rs rs₁ rs₂ rs' : List LexResult} {ty : Vartype}

/-! ### Member chains and calls -/

/-- One more member of a chain. -/
theorem spellsOut_chainDot {o o' s : Syn} {d m : Token} (hd : d.type = .tokenDot)
    (hm : m.type = .tokenIdentifier) (hmember : memberOf o m.value.toIdentifier = some o')
    (ih : SpellsOut (.chain o') rs s rs') : SpellsOut (.chain o) (.ok d :: .ok m :: rs) s rs' := by
  obtain ⟨ls, hls, hadds⟩ := ih
  refine ⟨_, Spells.symbol hd rfl (Spells.name hm hls), fun l ho => ?_⟩
  rw [hadds _ (pieces_memberOf hmember ho)]
  simp

/-- A call without arguments. -/
theorem spellsOut_callNone {o : Syn} {l r : Token} (hl : l.type = .tokenLparen)
    (hr : r.type = .tokenRparen) :
    SpellsOut (.call o) (.ok l :: .ok r :: rs) (.tree .call o) rs := by
  refine ⟨[], Spells.paren hl hr (Spells.refl _), fun l ho => ?_⟩
  simp [ho]

/-- A call with arguments. -/
theorem spellsOut_callSome {o e as : Syn} {l r : Token} (hl : l.type = .tokenLparen)
    (hr : r.type = .tokenRparen) (ihe : SpellsOut (.expr 0) rs e rs₁)
    (ihas : SpellsOut .args rs₁ as (.ok r :: rs')) :
    SpellsOut (.call o) (.ok l :: rs) (.tree .call (o ++ (e ++ as))) rs' := by
  obtain ⟨le, hle, (he : pieces e = [le])⟩ := ihe
  obtain ⟨las, hlas, (has : (pieces as).flatten = las)⟩ := ihas
  refine ⟨_, Spells.paren hl hr (hle.trans hlas), fun l ho => ?_⟩
  simp [ho, he, has]

/-- One more argument. -/
theorem spellsOut_argsComma {e as : Syn} {c : Token} (hc : c.type = .tokenComma)
    (ihe : SpellsOut (.expr 0) rs e rs₁) (ihas : SpellsOut .args rs₁ as rs') :
    SpellsOut .args (.ok c :: rs) (e ++ as) rs' := by
  obtain ⟨le, hle, (he : pieces e = [le])⟩ := ihe
  obtain ⟨las, hlas, (has : (pieces as).flatten = las)⟩ := ihas
  refine ⟨_, Spells.comma hc (hle.trans hlas), ?_⟩
  show (pieces _).flatten = _
  simp [he, has]

/-! ### Expressions -/

/-- What a production adds to a member chain stands behind the lexemes that it starts with. -/
theorem SpellsOut.behind {k : Kind} {o s : Syn} {l : List Lexeme}
    (h : SpellsOut (.chain (.leaf k)) rs o rs₁) (hk : pieces (.leaf k) = [l])
    (hs : ∃ ls, Spells rs₁ ls rs' ∧ ∀ l, pieces o = [l] → pieces s = [l ++ ls]) :
    ∃ ls, Spells rs ls rs' ∧ pieces s = [l ++ ls] := by
  obtain ⟨lo, hlo, ho⟩ := h
  obtain ⟨ls, hls, hs⟩ := hs
  refine ⟨lo ++ ls, hlo.trans hls, ?_⟩
  rw [hs _ (ho l hk), List.append_assoc]

/-- An operand that begins with a name. -/
theorem spellsOut_symbol {o s : Syn} {i : Token} (hi : i.type = .tokenIdentifier)
    (iho : SpellsOut (.chain (.leaf (.symref i.value.toIdentifier))) rs o rs₁)
    (ihs : SpellsOut (.callOpt o) rs₁ s rs') : SpellsOut .atom (.ok i :: rs) s rs' := by
  obtain ⟨ls, hls, hs⟩ := iho.behind rfl ihs
  exact ⟨_, Spells.name hi hls, hs⟩

/-- An operand that begins with a primitive. -/
theorem spellsOut_constructor {o s : Syn} {i : Token} (hi : i.type = .tokenPrimitive)
    (iho : SpellsOut (.chain (.leaf (.builtin (.builtinConstructor i.value.toPrimitive)))) rs o rs₁)
    (ihs : SpellsOut (.callOpt o) rs₁ s rs') : SpellsOut .atom (.ok i :: rs) s rs' := by
  obtain ⟨ls, hls, hs⟩ := iho.behind rfl ihs
  exact ⟨_, Spells.primitive hi hls, hs⟩

/-- An expression in parentheses. -/
theorem spellsOut_paren {s : Syn} {l r : Token} (hl : l.type = .tokenLparen)
    (hr : r.type = .tokenRparen) (ih : SpellsOut (.expr 1) rs s (.ok r :: rs')) :
    SpellsOut .primary (.ok l :: rs) s rs' := by
  -- parentheses say nothing themselves
  obtain ⟨ls, hls, hadds⟩ := ih
  exact ⟨ls, Spells.paren hl hr hls, hadds⟩

/-- A prefix operator. -/
theorem spellsOut_unop {s : Syn} {u : Token} (hu : isUnop u.type = true)
    (ih : SpellsOut .primary rs s rs') :
    SpellsOut .primary (.ok u :: rs) (.tree (.unop (unopFromToken u.type)) s) rs' := by
  obtain ⟨ls, hls, (hadds : pieces s = [ls])⟩ := ih
  refine ⟨_, Spells.symbol rfl (isPlain_of_operator (Or.inr hu)) hls, ?_⟩
  show pieces _ = [_]
  simp [hadds, unopToken_unopFromToken hu]

/-- An expression. -/
theorem spellsOut_expr {m : Nat} {l s : Syn} (ihl : SpellsOut .primary rs l rs₁)
    (ihs : SpellsOut (.climb m l) rs₁ s rs') : SpellsOut (.expr m) rs s rs' := by
  obtain ⟨ll, hll, hl⟩ := ihl
  obtain ⟨ls, hls, hs⟩ := ihs
  exact ⟨ll ++ ls, hll.trans hls, hs ll hl⟩

/-- One more operator and its right operand. -/
theorem spellsOut_climbOp {m : Nat} {l r s : Syn} {o : Token} (hcont : Continues m o.type)
    (ihr : SpellsOut (.expr (nextMinAssoc o.type)) rs r rs₁)
    (ihs : SpellsOut (.climb m (.tree (.binop (binopFromToken o.type)) (l ++ r))) rs₁ s rs') :
    SpellsOut (.climb m l) (.ok o :: rs) s rs' := by
  -- an operator stands between the lexemes of its operands
  obtain ⟨lr, hlr, (hr : pieces r = [lr])⟩ := ihr
  obtain ⟨ls, hls, hs⟩ := ihs
  refine ⟨_, Spells.symbol rfl (isPlain_of_operator (Or.inl hcont.1)) (hlr.trans hls),
    fun l hl => ?_⟩
  rw [hs _ (by rw [pieces_tree, pieces_append, hl, hr])]
  simp [binopToken_binopFromToken hcont.1]

/-! ### Parameters and branches -/

/-- The last parameter. -/
theorem spellsOut_paramsLast {i : Token} (hi : i.type = .tokenIdentifier)
    (hty : DerivesType rs ty rs') :
    SpellsOut .params (.ok i :: rs) (.leaf (.argdecl i.value.toIdentifier ty)) rs' := by
  refine ⟨_, Spells.name hi hty.spells, fun ty body => ?_⟩
  simp [unparseFunction]

/-- A parameter with more behind it. -/
theorem spellsOut_paramsComma {ps : Syn} {i c : Token} (hi : i.type = .tokenIdentifier)
    (hty : DerivesType rs ty (.ok c :: rs₁)) (hc : c.type = .tokenComma)
    (ih : SpellsOut .params rs₁ ps rs') :
    SpellsOut .params (.ok i :: rs) (.leaf (.argdecl i.value.toIdentifier ty) ++ ps) rs' := by
  obtain ⟨ls, hls, hadds⟩ := ih
  refine ⟨_, Spells.name hi (hty.spells.trans (Spells.comma hc hls)), fun ty body => ?_⟩
  rw [pieces_append, pieces_leaf, List.singleton_append, List.cons_append,
    unparseFunction_cons ty _ (by simp), hadds]
  simp

/-- A condition and its body. -/
theorem spellsOut_branch {c b : Syn} {t : Token} (ht : t.type = .tokenThen)
    (ihc : SpellsOut (.expr 0) rs c (.ok t :: rs₁)) (ihb : SpellsOut (.body ifBodyStop) rs₁ b rs') :
    SpellsOut .branch rs (c ++ .tree .compound b) rs' := by
  -- the branches of an `if` are conditions and bodies in turn
  obtain ⟨lc, hlc, (hc : pieces c = [lc])⟩ := ihc
  obtain ⟨lb, hlb, (hb : (pieces b).flatten = lb)⟩ := ihb
  refine ⟨_, hlc.trans (Spells.symbol ht rfl hlb), lc, lb, ?_, rfl⟩
  simp [hc, hb]

/-- One more branch. -/
theorem spellsOut_elifsElif {b es : Syn} {i : Token} (hi : i.type = .tokenElif)
    (ihb : SpellsOut .branch rs b rs₁) (ihes : SpellsOut .elifs rs₁ es rs') :
    SpellsOut .elifs (.ok i :: rs) (b ++ es) rs' := by
  obtain ⟨_, hlb, cond, body, hb, rfl⟩ := ihb
  obtain ⟨les, hles, (hes : ∀ ps, unparseBranches (pieces es ++ ps) =
    les ++ unparseBranches ps)⟩ := ihes
  refine ⟨_, Spells.symbol hi rfl (hlb.trans hles), fun ps => ?_⟩
  simp [hb, unparseBranches, hes]

/-- The last branch. -/
theorem spellsOut_elseSome {b : Syn} {i : Token} (hi : i.type = .tokenElse)
    (ih : SpellsOut (.body ifBodyStop) rs b rs') :
    SpellsOut .elseOpt (.ok i :: rs) (.tree .compound b) rs' := by
  obtain ⟨lb, hlb, (hb : (pieces b).flatten = lb)⟩ := ih
  refine ⟨_, Spells.symbol hi rfl hlb, ?_⟩
  show unparseBranches (pieces _) = _
  simp [unparseBranches, hb]

/-! ### Statements -/

/-- A declaration of a variable. -/
theorem spellsOut_vardecl {e : Syn} {l i a : Token} (hl : l.type = .tokenLet)
    (hi : i.type = .tokenIdentifier) (hty : DerivesTypeOpt rs ty (.ok a :: rs₁))
    (ha : a.type = .tokenAssign) (ih : SpellsOut (.expr 0) rs₁ e rs') :
    SpellsOut .stmt (.ok l :: .ok i :: rs) (.tree (.vardecl i.value.toIdentifier ty) e) rs' := by
  obtain ⟨le, hle, (he : pieces e = [le])⟩ := ih
  refine ⟨_, Spells.symbol hl rfl (Spells.name hi (hty.spells.trans (Spells.symbol ha rfl hle))),
    ?_⟩
  show pieces _ = [_]
  simp [he]

/-- A function. -/
theorem spellsOut_fundecl {ps b : Syn} {f i l r e : Token} (hf : f.type = .tokenFunction)
    (hi : i.type = .tokenIdentifier) (hl : l.type = .tokenLparen) (hr : r.type = .tokenRparen)
    (hty : DerivesTypeOpt rs₁ ty rs₂) (he : e.type = .tokenEnd)
    (ihps : SpellsOut .paramsOpt rs ps (.ok r :: rs₁))
    (ihb : SpellsOut (.body endStop) rs₂ b (.ok e :: rs')) :
    SpellsOut .stmt (.ok f :: .ok i :: .ok l :: rs) (.tree (.fundecl i.value.toIdentifier ty false)
      (ps ++ .tree .compound b)) rs' := by
  obtain ⟨lps, hlps, (hps : ∀ ty body,
      unparseFunction ty (pieces ps ++ [body]) = lps ++ unparseType ty ++ body)⟩ := ihps
  obtain ⟨lb, hlb, (hb : (pieces b).flatten = lb)⟩ := ihb
  refine ⟨_, Spells.symbol hf rfl (Spells.name hi ((Spells.paren hl hr hlps).trans
    (hty.spells.trans (hlb.trans (Spells.symbol he rfl (Spells.refl _)))))), ?_⟩
  show pieces _ = [_]
  simp [hps, hb]

/-- A return. -/
theorem spellsOut_returnStmt {e : Syn} {r : Token} (hr : r.type = .tokenReturn)
    (ih : SpellsOut (.expr 0) rs e rs') :
    SpellsOut .stmt (.ok r :: rs) (.tree .returnStmt e) rs' := by
  obtain ⟨le, hle, (he : pieces e = [le])⟩ := ih
  refine ⟨_, Spells.symbol hr rfl hle, ?_⟩
  show pieces _ = [_]
  simp [he]

/-- A conditional. -/
theorem spellsOut_ifStmt {b es l : Syn} {i e : Token} (hi : i.type = .tokenIf)
    (he : e.type = .tokenEnd) (ihb : SpellsOut .branch rs b rs₁)
    (ihes : SpellsOut .elifs rs₁ es rs₂) (ihl : SpellsOut .elseOpt rs₂ l (.ok e :: rs')) :
    SpellsOut .stmt (.ok i :: rs) (.tree .ifStmt (b ++ (es ++ l))) rs' := by
  obtain ⟨_, hlb, cond, body, hb, rfl⟩ := ihb
  obtain ⟨les, hles, (hes : ∀ ps, unparseBranches (pieces es ++ ps) =
    les ++ unparseBranches ps)⟩ := ihes
  obtain ⟨ll, hll, (hl : unparseBranches (pieces l) = ll)⟩ := ihl
  refine ⟨_, Spells.symbol hi rfl (hlb.trans (hles.trans (hll.trans
    (Spells.symbol he rfl (Spells.refl _))))), ?_⟩
  show pieces _ = [_]
  simp [hb, hes, hl]

/-- A loop. -/
theorem spellsOut_whileStmt {c b : Syn} {w d e : Token} (hw : w.type = .tokenWhile)
    (hd : d.type = .tokenDo) (he : e.type = .tokenEnd)
    (ihc : SpellsOut (.expr 0) rs c (.ok d :: rs₁))
    (ihb : SpellsOut (.body endStop) rs₁ b (.ok e :: rs')) :
    SpellsOut .stmt (.ok w :: rs) (.tree .whileStmt (c ++ .tree .compound b)) rs' := by
  obtain ⟨lc, hlc, (hc : pieces c = [lc])⟩ := ihc
  obtain ⟨lb, hlb, (hb : (pieces b).flatten = lb)⟩ := ihb
  refine ⟨_, Spells.symbol hw rfl (hlc.trans (Spells.symbol hd rfl (hlb.trans
    (Spells.symbol he rfl (Spells.refl _))))), ?_⟩
  show pieces _ = [_]
  simp [hc, hb]

/-- An assignment. -/
theorem spellsOut_assign {o e : Syn} {i a : Token} (hi : i.type = .tokenIdentifier)
    (ha : a.type = .tokenAssign)
    (iho : SpellsOut (.chain (.leaf (.symref i.value.toIdentifier))) rs o (.ok a :: rs₁))
    (ihe : SpellsOut (.expr 0) rs₁ e rs') :
    SpellsOut .stmt (.ok i :: rs) (.tree .assign (o ++ e)) rs' := by
  obtain ⟨lo, hlo, ho⟩ := iho
  obtain ⟨le, hle, (he : pieces e = [le])⟩ := ihe
  refine ⟨_, Spells.name hi (hlo.trans (Spells.symbol ha rfl hle)), ?_⟩
  have ho' := ho _ rfl
  show pieces _ = [_]
  simp [ho', he]

/-- A call as a statement. -/
theorem spellsOut_callStmt {o s : Syn} {i : Token} (hi : i.type = .tokenIdentifier)
    (iho : SpellsOut (.chain (.leaf (.symref i.value.toIdentifier))) rs o rs₁)
    (ihs : SpellsOut (.call o) rs₁ s rs') : SpellsOut .stmt (.ok i :: rs) s rs' := by
  obtain ⟨ls, hls, hs⟩ := iho.behind rfl ihs
  exact ⟨_, Spells.name hi hls, hs⟩

/-- One more statement of a body. -/
theorem spellsOut_bodyStmt {stop : List TokenType} {s b : Syn} (ihs : SpellsOut .stmt rs s rs₁)
    (ihb : SpellsOut (.body stop) rs₁ b rs') : SpellsOut (.body stop) rs (s ++ b) rs' := by
  obtain ⟨ls, hls, (hs : pieces s = [ls])⟩ := ihs
  obtain ⟨lb, hlb, (hb : (pieces b).flatten = lb)⟩ := ihb
  refine ⟨ls ++ lb, hls.trans hlb, ?_⟩
  show (pieces _).flatten = _
  simp [hs, hb]

end

/-- Every production reads what its syntax says. -/
theorem Derives.spells {c : Cat} {rs rs' : List LexResult} {s : Syn} (h : Derives c rs s rs') :
    SpellsOut c rs s rs' := by
  induction h with
  | @chainEnd o t rs _ _ => exact ⟨[], Spells.refl rs, fun l ho => by rw [ho, List.append_nil]⟩
  | chainDot hd hm hmember _ ih => exact spellsOut_chainDot hd hm hmember ih
  | @callOptEnd o t rs _ _ => exact ⟨[], Spells.refl rs, fun l ho => by rw [ho, List.append_nil]⟩
  | callOptCall _ ih => exact ih
  | callNone hl hr => exact spellsOut_callNone hl hr
  | callSome hl _ _ _ _ hr ihe ihas => exact spellsOut_callSome hl hr ihe ihas
  | argsEnd _ _ => exact ⟨[], Spells.refl _, rfl⟩
  | argsComma hc _ _ ihe ihas => exact spellsOut_argsComma hc ihe ihas
  | symbol hi _ _ iho ihs => exact spellsOut_symbol hi iho ihs
  | constructor hi _ _ iho ihs => exact spellsOut_constructor hi iho ihs
  | literal hi => exact ⟨_, Spells.literal hi (Spells.refl _), rfl⟩
  | insert hi hl hn => exact ⟨_, Spells.insert hi (Or.inl rfl) hl hn, rfl⟩
  | singleton hi hl hn => exact ⟨_, Spells.insert hi (Or.inr rfl) hl hn, rfl⟩
  | paren hl _ hr ih => exact spellsOut_paren hl hr ih
  | unop hu _ ih => exact spellsOut_unop hu ih
  | atom _ ih => exact ih
  | expr _ _ ihl ihs => exact spellsOut_expr ihl ihs
  | climbEnd _ _ => exact ⟨[], Spells.refl _, fun l ho => by rw [ho, List.append_nil]⟩
  | climbOp hcont _ _ ihr ihs => exact spellsOut_climbOp hcont ihr ihs
  | paramsLast hi hty _ _ => exact spellsOut_paramsLast hi hty
  | paramsComma hi hty hc _ ih => exact spellsOut_paramsComma hi hty hc ih
  | paramsNone _ => exact ⟨[], Spells.refl _, fun ty body => rfl⟩
  | paramsSome _ _ _ ih => exact ih
  | branch _ ht _ ihc ihb => exact spellsOut_branch ht ihc ihb
  | elifsEnd _ _ => exact ⟨[], Spells.refl _, fun ps => rfl⟩
  | elifsElif hi _ _ ihb ihes => exact spellsOut_elifsElif hi ihb ihes
  | elseNone _ _ => exact ⟨[], Spells.refl _, rfl⟩
  | elseSome hi _ ih => exact spellsOut_elseSome hi ih
  | vardecl hl hi hty ha _ ih => exact spellsOut_vardecl hl hi hty ha ih
  | fundecl hf hi hl _ hr hty _ he ihps ihb => exact spellsOut_fundecl hf hi hl hr hty he ihps ihb
  | returnStmt hr _ ih => exact spellsOut_returnStmt hr ih
  | ifStmt hi _ _ _ he ihb ihes ihl => exact spellsOut_ifStmt hi he ihb ihes ihl
  | whileStmt hw _ hd _ he ihc ihb => exact spellsOut_whileStmt hw hd he ihc ihb
  | assign hi _ ha _ iho ihe => exact spellsOut_assign hi ha iho ihe
  | callStmt hi _ _ iho ihs => exact spellsOut_callStmt hi iho ihs
  | bodyEnd _ _ => exact ⟨[], Spells.refl _, rfl⟩
  | bodyStmt _ _ _ _ ihs ihb => exact spellsOut_bodyStmt ihs ihb

/-- A derivation of a whole source: the source is what the syntax says exactly when each `insert`
and each `singleton` has its `( name )`. -/
theorem Derives.saidBy_iff {stop : List TokenType} {rs : List LexResult} {s : Syn}
    (h : Derives (.body stop) rs s []) (hvalid : ∀ tok, .ok tok ∈ rs → tok.Valid) :
    SaidBy rs s ↔ InsertsClosed rs := by
  obtain ⟨ls, ⟨u, hu, hwritten⟩, hadds⟩ := h.spells
  rw [List.append_nil] at hu
  subst hu
  constructor
  · intro hsaid
    exact (hwritten.faithful hsaid.balanced.closes_eq hvalid).inserts
  · intro hclosed
    have heq := hwritten.closed (by rwa [List.append_nil])
    obtain ⟨htokens, -, hnests, hcontent⟩ := hwritten.faithful heq hvalid
    exact ⟨htokens, hnests.balanced, hcontent.trans hadds.symm⟩

end Nucleus.Spec

namespace Nucleus.Proofs

open Nucleus.Lib
open Nucleus.Lang
open Nucleus.Spec

/-- A run of `nulang__parse` that succeeds has lost nothing of its source exactly when each
`insert` and each `singleton` in the source has its `( name )`. -/
theorem parse_saidBy_iff {source : Source} {ast : Ast} {error : ErrorData} {uninit : NodeId}
    {fuel : Nat} {p : Parser Lexer} (hast : ast.Cleared)
    (h : parse fuel (parserStart source ast error uninit) = some (.ok (), p)) :
    SaidBy (resultsOf source) p.ast.syntaxOf ↔ InsertsClosed (resultsOf source) := by
  obtain ⟨ts, hholds, -, -, hbody⟩ := holdsModule_of_parse hast h
  rw [hholds.syntaxOf]
  exact hbody.saidBy_iff fun tok htok => (at_parserStart source ast error uninit).valid htok

/-- The source `let x = (1 + insert(b)) * singleton(c)`. -/
def insertsSource : Source := ⟨"let x = (1 + insert(b)) * singleton(c)".toList, by decide⟩

theorem parse_saidBy_iff_insertsSource :
    ∃ p, parse 20 (startOn insertsSource) = some (.ok (), p) ∧
      SaidBy (resultsOf insertsSource) p.ast.syntaxOf := by
  obtain ⟨_, p, h⟩ := Prog.succeeds_eq_true.mp
    (show Prog.succeeds (parse 20) (startOn insertsSource) = true by decide +kernel)
  exact ⟨p, h, (parse_saidBy_iff (astInit_cleared _ (by decide)) h).mpr (by decide +kernel)⟩

/-- The source `let x = insert(b`. -/
def openInsertSource : Source :=
  ⟨['l', 'e', 't', ' ', 'x', ' ', '=', ' ', 'i', 'n', 's', 'e', 'r', 't', '(', 'b'], by decide⟩

/-- The parser accepts a parenthesis that is never closed. -/
theorem parse_openInsertSource :
    (∃ p, parse 12 (startOn openInsertSource) = some (.ok (), p)) ∧
      ∀ s, ¬ SaidBy (resultsOf openInsertSource) s := by
  constructor
  · obtain ⟨_, p, h⟩ := Prog.succeeds_eq_true.mp
      (show Prog.succeeds (parse 12) (startOn openInsertSource) = true by decide +kernel)
    exact ⟨p, h⟩
  · intro s hsaid
    exact absurd hsaid.balanced (by decide +kernel)

end Nucleus.Proofs
