import Mathlib.Data.List.Infix
import Nucleus.Proofs.Lexing
import Nucleus.Spec.Words

/-!
# `Nucleus.Proofs.Spelling`: comparing words

The lexer compares a word, which is a slice of the source, with the keywords by
`NULANG_MATCH_TOKEN`. With the slice on the left the comparison is equality
(`matchToken_word`). The comparison with `and` has its strings the other way round, so it
measures the rest of the source (`matchToken_and`). What the lexer makes of a word is its
spelling unless that comparison misreads it (`wordToken_eq_spelling_iff`).
-/

set_option autoImplicit false

namespace Nucleus.Proofs

open Nucleus.Vm
open Nucleus.Lang
open Nucleus.Spec

/-! ### C strings -/

/-- A string without a terminator in it is measured to its end. -/
theorem strlen_eq {s : List Char} (h : '\x00' ∉ s) : strlen s = s.length := by
  induction s with
  | nil => rfl
  | cons c s ih =>
      rw [List.mem_cons, not_or] at h
      rw [strlen, if_neg (Ne.symm h.1), ih h.2, List.length_cons]

/-- The comparison goes on while the characters are equal. -/
theorem strncmp_cons (c d : Char) (s t : List Char) (n : Nat) :
    strncmp (c :: s) (d :: t) (n + 1) =
      if c ≠ '\x00' ∧ c = d then strncmp s t n else (c.toNat : Int) - d.toNat := rfl

/-- The comparison stops at the terminator. -/
theorem strncmp_nil (d : Char) (t : List Char) (n : Nat) :
    strncmp [] (d :: t) (n + 1) = (0 : Int) - d.toNat := by
  rw [strncmp, if_neg (fun h => h.1 rfl)]
  rfl

/-- The difference that `strncmp` returns tells characters apart. -/
theorem toNat_sub_eq_zero {c d : Char} : (c.toNat : Int) - d.toNat = 0 ↔ c = d := by
  constructor
  · intro h
    exact Char.toNat_inj.mp (by omega)
  · rintro rfl
    omega

/-- A word in its place compares equal to a string of its length exactly when it is that
string. -/
theorem strncmp_word {w k rest : List Char} (hw : '\x00' ∉ w) (hlen : w.length = k.length) :
    strncmp (w ++ rest) k w.length = 0 ↔ k = w := by
  induction w generalizing k with
  | nil => simp [strncmp, List.length_eq_zero_iff.mp hlen.symm]
  | cons c w ih =>
      obtain ⟨d, k, rfl⟩ := List.exists_cons_of_length_eq_add_one hlen.symm
      rw [List.mem_cons, not_or] at hw
      rw [List.length_cons, List.cons_append, strncmp_cons, List.cons.injEq]
      by_cases hcd : c ≠ '\x00' ∧ c = d
      · rw [if_pos hcd, ih hw.2 (by simpa using hlen), hcd.2]
        simp
      · rw [if_neg hcd, toNat_sub_eq_zero]
        constructor
        · intro heq
          exact absurd ⟨Ne.symm hw.1, heq⟩ hcd
        · intro heq
          exact heq.1.symm

/-- A string compares equal to a word of which nothing follows exactly when the word is a prefix
of the string. -/
theorem strncmp_prefix {w k : List Char} (hw : '\x00' ∉ w) :
    strncmp k w w.length = 0 ↔ w <+: k := by
  induction w generalizing k with
  | nil => simp [strncmp]
  | cons c w ih =>
      rw [List.mem_cons, not_or] at hw
      rw [List.length_cons]
      cases k with
      | nil =>
          -- the string ends before the word, whose next character is not the NUL
          have hne : c.toNat ≠ 0 := fun h => hw.1 (Char.toNat_inj.mp h).symm
          rw [strncmp_nil]
          simp only [List.prefix_nil, reduceCtorEq, iff_false]
          omega
      | cons d k =>
          rw [strncmp_cons, List.cons_prefix_cons]
          by_cases hdc : d ≠ '\x00' ∧ d = c
          · rw [if_pos hdc, ih hw.2, hdc.2]
            simp
          · rw [if_neg hdc, toNat_sub_eq_zero]
            constructor
            · rintro rfl
              exact absurd ⟨Ne.symm hw.1, rfl⟩ hdc
            · intro heq
              exact heq.1.symm

/-- A word of the text matches the token that it is. -/
theorem matchToken_word {w k rest : List Char} (hw : '\x00' ∉ w) (hk : '\x00' ∉ k) :
    matchToken (w ++ rest) k w.length = decide (k = w) := by
  unfold matchToken
  rw [strlen_eq hk]
  by_cases hlen : w.length = k.length
  · have hcmp : strncmp (w ++ rest) k w.length = 0 ↔ k = w := strncmp_word hw hlen
    simp [hlen] at hcmp ⊢
    exact hcmp
  · have hne : k ≠ w := by
      rintro rfl
      exact hlen rfl
    simp [hlen, hne]

/-- The comparison with `and` measures the rest of the source. -/
theorem matchToken_and {w rest : List Char} (hw : '\x00' ∉ w) (hrest : '\x00' ∉ rest)
    (hne : w ≠ []) :
    matchToken "and".toList (w ++ rest) w.length =
      decide (rest = [] ∧ w ∈ ["a".toList, "an".toList, "and".toList]) := by
  have hlen : strlen (w ++ rest) = w.length + rest.length := by
    rw [strlen_eq (by simp [hw, hrest]), List.length_append]
  unfold matchToken
  rw [hlen]
  congr 1
  apply propext
  cases rest with
  | nil =>
      have hinits : w <+: "and".toList ↔ w = [] ∨ w ∈ ["a".toList, "an".toList, "and".toList] := by
        rw [← List.mem_inits]
        show w ∈ [[], ['a'], ['a', 'n'], ['a', 'n', 'd']] ↔ _
        simp
      rw [List.append_nil, strncmp_prefix hw, hinits]
      simp [hne]
  | cons c rest => simp

/-! ### The tests of the lexer -/

/-- A word of the text passes the test of the keyword that it is. The test of `and` has its
arguments swapped, so it is passed by a prefix at the very end. -/
theorem keywordTest_word {w rest : List Char} {k : String} (hw : '\x00' ∉ w)
    (hrest : '\x00' ∉ rest) (hne : w ≠ []) (hk : '\x00' ∉ k.toList) :
    keywordTest (w ++ rest) w.length k =
      if k = "and" then decide (rest = [] ∧ w ∈ andPrefixes) else decide (k.toList = w) := by
  unfold keywordTest
  split
  · rename_i hand
    subst hand
    exact matchToken_and hw hrest hne
  · exact matchToken_word hw hk

/-- No keyword, literal or primitive has a NUL. -/
theorem nul_not_mem_words :
    (∀ e ∈ keywords, '\x00' ∉ e.1.toList) ∧ (∀ e ∈ literalWords, '\x00' ∉ e.1.toList) ∧
      ∀ e ∈ primitiveNames, '\x00' ∉ e.1.toList := by
  decide +kernel

/-- The keyword of a word. -/
theorem keywordType_word {w rest : List Char} (hw : '\x00' ∉ w) (hrest : '\x00' ∉ rest)
    (hne : w ≠ []) :
    keywordType (w ++ rest) w.length =
      firstMatch (fun k => if k = "and" then decide (rest = [] ∧ w ∈ andPrefixes)
        else decide (k.toList = w)) keywords := by
  rw [keywordType_eq]
  exact firstMatch_congr fun e he => keywordTest_word hw hrest hne (nul_not_mem_words.1 e he)

/-- The literal of a word. -/
theorem literalWord_word {w rest : List Char} (hw : '\x00' ∉ w) :
    literalWord (w ++ rest) w.length = firstMatch (fun k => k.toList = w) literalWords := by
  rw [literalWord_eq]
  exact firstMatch_congr fun e he => matchToken_word hw (nul_not_mem_words.2.1 e he)

/-- The primitive of a word. -/
theorem primitiveWord_word {w rest : List Char} (hw : '\x00' ∉ w) :
    primitiveWord (w ++ rest) w.length = firstMatch (fun k => k.toList = w) primitiveNames := by
  rw [primitiveWord_eq]
  exact firstMatch_congr fun e he => matchToken_word hw (nul_not_mem_words.2.2 e he)

/-- The type of a word by its spelling does not depend on what follows. -/
theorem spelling_type (w rest rest' : List Char) : (spelling w rest).1 = (spelling w rest').1 := by
  unfold spelling
  split
  · rfl
  · split
    · rfl
    · split <;> rfl

/-! ### What the lexer makes of a word -/

/-- A word that is not misread is classified by its spelling. -/
theorem wordToken_of_not_misread {w rest : List Char} (hw : '\x00' ∉ w) (hrest : '\x00' ∉ rest)
    (hne : w ≠ []) (h : ¬ Misread w rest) : wordToken (w ++ rest) w.length = spelling w rest := by
  have hkey : keywordType (w ++ rest) w.length = firstMatch (fun k => k.toList = w) keywords := by
    rw [keywordType_word hw hrest hne]
    refine firstMatch_congr fun e _ => ?_
    by_cases hand : e.1 = "and"
    · rw [if_pos hand, hand]
      -- only the word `and` itself passes the comparison with `and` now
      congr 1
      apply propext
      unfold Misread at h
      simp only [andPrefixes, List.mem_cons, List.not_mem_nil, or_false]
      constructor
      · rintro ⟨rfl, rfl | rfl | rfl⟩
        · exact absurd (Or.inr ⟨Or.inl rfl, rfl⟩) h
        · exact absurd (Or.inr ⟨Or.inr rfl, rfl⟩) h
        · rfl
      · rintro rfl
        exact ⟨by_contra fun hnil => h (Or.inl ⟨rfl, hnil⟩), Or.inr (Or.inr rfl)⟩
    · rw [if_neg hand]
  unfold wordToken
  rw [hkey, literalWord_word hw, primitiveWord_word hw]
  rfl

/-- At the end of the source the prefixes of `and` are the keyword `and`. -/
theorem wordToken_andPrefix {w : List Char} (h : w ∈ andPrefixes) :
    wordToken (w ++ []) w.length = (.tokenAnd, .none) := by
  have hall : ∀ v ∈ andPrefixes, wordToken (v ++ []) v.length = (.tokenAnd, .none) := by
    decide +kernel
  exact hall w h

/-- With something behind it `and` is an identifier. -/
theorem wordToken_and {rest : List Char} (hrest : '\x00' ∉ rest) (hne : rest ≠ []) :
    wordToken ("and".toList ++ rest) "and".toList.length =
      (.tokenIdentifier, .identifier ⟨"and".toList ++ rest, "and".toList.length⟩) := by
  have hw : '\x00' ∉ "and".toList := by decide
  unfold wordToken
  rw [keywordType_word hw hrest (by decide), literalWord_word hw, primitiveWord_word hw]
  simp only [hne, false_and, decide_false]
  rfl

/-- What the lexer makes of a word is its spelling exactly when the word is not misread. -/
theorem wordToken_eq_spelling_iff {w rest : List Char} (hw : '\x00' ∉ w) (hrest : '\x00' ∉ rest)
    (hne : w ≠ []) : wordToken (w ++ rest) w.length = spelling w rest ↔ ¬ Misread w rest := by
  constructor
  · rintro heq (⟨rfl, hrest'⟩ | ⟨rfl | rfl, rfl⟩)
    · rw [wordToken_and hrest hrest'] at heq
      have htype : TokenType.tokenIdentifier = (spelling "and".toList rest).1 :=
        congrArg Prod.fst heq
      rw [spelling_type _ _ []] at htype
      exact absurd htype (by decide)
    · rw [wordToken_andPrefix (by simp [andPrefixes])] at heq
      exact absurd (congrArg Prod.fst heq) (by decide)
    · rw [wordToken_andPrefix (by simp [andPrefixes])] at heq
      exact absurd (congrArg Prod.fst heq) (by decide)
  · exact wordToken_of_not_misread hw hrest hne

/-- The type of a word, in its two places: it differs only for the prefixes of `and`, when one
of the places is the end of the source and the other is not. -/
theorem wordToken_type_eq_iff {w rest rest' : List Char} (hw : '\x00' ∉ w)
    (hrest : '\x00' ∉ rest) (hrest' : '\x00' ∉ rest') (hne : w ≠ []) :
    (wordToken (w ++ rest) w.length).1 = (wordToken (w ++ rest') w.length).1 ↔
      (w ∈ andPrefixes → (rest = [] ↔ rest' = [])) := by
  -- a prefix of `and` with something behind it is an identifier
  have hident : ∀ {r : List Char}, '\x00' ∉ r → w ∈ andPrefixes → r ≠ [] →
      (wordToken (w ++ r) w.length).1 = .tokenIdentifier := by
    intro r hr hmem hnil
    by_cases hand : w = "and".toList
    · subst hand
      rw [wordToken_and hr hnil]
    · have hmis : ¬ Misread w r := by
        rintro (⟨h, -⟩ | ⟨-, h⟩)
        · exact hand h
        · exact hnil h
      have hspell : ∀ v ∈ andPrefixes, v ≠ "and".toList → (spelling v []).1 = .tokenIdentifier := by
        decide +kernel
      rw [wordToken_of_not_misread hw hr hne hmis, spelling_type w r []]
      exact hspell w hmem hand
  have hlast : w ∈ andPrefixes → (wordToken (w ++ []) w.length).1 = .tokenAnd := by
    intro hmem
    rw [wordToken_andPrefix hmem]
  by_cases hmem : w ∈ andPrefixes
  · by_cases hnil : rest = []
    · by_cases hnil' : rest' = []
      · simp [hnil, hnil']
      · rw [hnil, hlast hmem, hident hrest' hmem hnil']
        simp [hmem, hnil']
    · by_cases hnil' : rest' = []
      · rw [hnil', hlast hmem, hident hrest hmem hnil]
        simp [hmem, hnil]
      · rw [hident hrest hmem hnil, hident hrest' hmem hnil']
        simp [hnil, hnil']
  · have hmis : ∀ r : List Char, ¬ Misread w r := by
      rintro r (⟨rfl, -⟩ | ⟨rfl | rfl, -⟩) <;> exact hmem (by simp [andPrefixes])
    rw [wordToken_of_not_misread hw hrest hne (hmis rest),
      wordToken_of_not_misread hw hrest' hne (hmis rest'), spelling_type w rest rest']
    simp [hmem]

end Nucleus.Proofs
