import Nucleus.Proofs.Derivations
import Nucleus.Proofs.Spelling
import Nucleus.Spec.Scoping

/-!
# `Nucleus.Proofs.Names`: the names of a tree

The names that the lexer gives are slices of the source (`isSlice_of_mem_resultsOf`), and every
name in the tree is one of them. So comparing two names of a tree with
`NULANG_SOURCE_STRING_EQUALS` compares their characters (`sourceStringEquals_iff`).
-/

set_option autoImplicit false

namespace Nucleus.Proofs

open Nucleus.Lib
open Nucleus.Vm
open Nucleus.Lang
open Nucleus.Spec

/-! ### Comparing slices -/

/-- Inside both strings `nu_strncmp` compares characters. -/
theorem strncmp_eq_zero_iff {s t : List Char} {n : Nat} (hs : n ≤ s.length) (ht : n ≤ t.length)
    (hnul : '\x00' ∉ s.take n) : strncmp s t n = 0 ↔ s.take n = t.take n := by
  induction n generalizing s t with
  | zero => simp [strncmp]
  | succ n ih =>
      cases s with
      | nil => simp at hs
      | cons c s =>
          cases t with
          | nil => simp at ht
          | cons d t =>
              rw [List.take_succ_cons, List.mem_cons, not_or] at hnul
              rw [strncmp_cons, List.take_succ_cons, List.take_succ_cons, List.cons.injEq]
              -- the comparison goes on behind equal characters, and it does not end at a NUL here
              by_cases hcd : c ≠ '\x00' ∧ c = d
              · rw [if_pos hcd, ih (by simpa using hs) (by simpa using ht) hnul.2]
                simp [hcd.2]
              · rw [if_neg hcd, toNat_sub_eq_zero]
                constructor
                · intro heq
                  exact absurd ⟨Ne.symm hnul.1, heq⟩ hcd
                · exact fun heq => heq.1

/-- `NULANG_SOURCE_STRING_EQUALS` compares the characters of two slices. -/
theorem sourceStringEquals_iff {a b : SourceString} (ha : a.IsSlice) (hb : b.IsSlice) :
    sourceStringEquals a b = true ↔ a.text = b.text := by
  have hlen : ∀ {s : SourceString}, s.IsSlice → s.text.length = s.n := fun hs =>
    List.length_take_of_le hs.le
  simp only [sourceStringEquals, Bool.decide_and, Bool.and_eq_true, decide_eq_true_eq]
  constructor
  · rintro ⟨hn, hcmp⟩
    have htake := (strncmp_eq_zero_iff ha.le (hn ▸ hb.le) ha.nul).mp hcmp
    rw [SourceString.text, htake, hn]
    rfl
  · intro heq
    have hn : a.n = b.n := by rw [← hlen ha, ← hlen hb, heq]
    refine ⟨hn, (strncmp_eq_zero_iff ha.le (hn ▸ hb.le) ha.nul).mpr ?_⟩
    have htake : a.p.take a.n = b.p.take b.n := heq
    rw [htake, hn]

/-! ### The names of the lexer -/

/-- The token of a numeral is no name. -/
theorem numberToken_ne_identifier {span : Span} {s : List Char} {n : Nat} {hasDot : Bool}
    {t : Token} (h : numberToken span s n hasDot = .ok t) : t.type ≠ .tokenIdentifier := by
  obtain ⟨l, rfl, -⟩ := numberToken_ok h
  exact TokenType.noConfusion

/-- A word that is an identifier has itself as its value. -/
theorem wordToken_identifier {s : List Char} {n : Nat}
    (h : (wordToken s n).1 = .tokenIdentifier) : (wordToken s n).2 = .identifier ⟨s, n⟩ := by
  have hkeyword : ∀ e ∈ keywords, e.2 ≠ .tokenIdentifier := by decide
  unfold wordToken at h ⊢
  split
  · rename_i t ht
    rw [ht] at h
    rw [keywordType_eq] at ht
    obtain ⟨w, hmem, -⟩ := firstMatch_mem ht
    exact absurd h (hkeyword _ hmem)
  · rename_i hno
    simp only [hno] at h ⊢
    split at h
    · cases h
    · split at h
      · cases h
      · simp_all

/-- The name of an item is a slice. -/
theorem isSlice_of_item {pre used rest : List Char} {t : Token} (h : Item pre used rest (.ok t))
    (hnul : '\x00' ∉ used ++ rest) (htype : t.type = .tokenIdentifier) :
    t.value.toIdentifier.IsSlice := by
  -- only the item of a word has an identifier as its token
  have hspecial : t.type ∈ specialTypes := by simp [specialTypes, htype]
  generalize hr : (Except.ok t : LexResult) = r at h
  cases h with
  | single hc => cases hr; exact absurd hspecial (singleCharType_notMem hc)
  | double hc => cases hr; exact absurd hspecial (doubleCharType_notMem hc).1
  | half hc _ => cases hr; exact absurd hspecial ((doubleCharType_notMem hc).2 _ rfl)
  | bang => cases hr
  | sub => cases hr; cases htype
  | string => cases hr; cases htype
  | openString => cases hr
  | number => exact absurd htype (numberToken_ne_identifier hr.symm)
  | badNumber => cases hr
  | word =>
      cases hr
      rw [show TokenValue.toIdentifier _ = _ from congrArg _ (wordToken_identifier htype)]
      refine ⟨by simp [TokenValue.toIdentifier], fun hmem => hnul ?_⟩
      exact List.mem_of_mem_take hmem

/-- The names among the results are slices of the source. The induction is on the fuel. -/
theorem isSlice_of_mem_lexResults : ∀ {fuel : Nat} {l : CharStream} {pre rest : List Char},
    Reading l pre rest → ∀ t, .ok t ∈ lexResults fuel ⟨l, []⟩ → t.type = .tokenIdentifier →
    t.value.toIdentifier.IsSlice := by
  intro fuel
  induction fuel with
  | zero => exact fun _ _ ht => absurd ht List.not_mem_nil
  | succ fuel ih =>
      intro l pre rest h t ht htype
      have hnul : '\x00' ∉ rest := fun hmem =>
        l.source.property (by rw [h.text]; exact List.mem_append_right _ hmem)
      obtain ⟨r, l', hcall, hres⟩ := lexerParseToken_spec h
      simp only [lexResults, lexerNext, hcall] at ht
      rcases hres with ⟨-, rfl, -⟩ | ⟨s, used, rest', rfl, -, hitem, hread⟩
      · simp [Token.eof] at ht
      · -- a source has no NUL in it, and what is left is a part of the source
        have hnul' : '\x00' ∉ used ++ rest' := fun hmem =>
          hnul (by rw [List.append_assoc]; exact List.mem_append_right _ hmem)
        cases r with
        | error e =>
            rcases List.mem_cons.mp ht with heq | ht
            · cases heq
            · exact ih hread t ht htype
        | ok u =>
            dsimp only at ht
            split at ht
            · cases ht
            · rcases List.mem_cons.mp ht with heq | ht
              · obtain rfl := Except.ok.inj heq
                exact isSlice_of_item hitem hnul' htype
              · exact ih hread t ht htype

/-- The names that the lexer gives are slices of the source. -/
theorem isSlice_of_mem_resultsOf {source : Source} {t : Token} (h : .ok t ∈ resultsOf source)
    (htype : t.type = .tokenIdentifier) : t.value.toIdentifier.IsSlice :=
  isSlice_of_mem_lexResults (reading_streamInit source) t h htype

end Nucleus.Proofs

namespace Nucleus.Spec

open Nucleus.Lib
open Nucleus.Lang

/-! ### The names of a derivation -/

/-- The name that a node declares or refers to, if it has one, is in `S`. -/
def Kind.Named (S : SourceString → Prop) : Kind → Prop
  | .fundecl name _ _ | .argdecl name _ | .vardecl name _ | .symref name => S name
  | _ => True

/-- All names of the syntax are in `S`. -/
def AllNamed (S : SourceString → Prop) (s : Syn) : Prop := ∀ k ∈ s.labels, k.Named S

/-- The identifiers among the results are in `S`. -/
def Identifies (S : SourceString → Prop) (rs : List LexResult) : Prop :=
  ∀ t, .ok t ∈ rs → t.type = .tokenIdentifier → S t.value.toIdentifier

variable {S : SourceString → Prop} {rs rs' : List LexResult}

@[simp] theorem allNamed_nil : AllNamed S .nil := fun _ hk => absurd hk List.not_mem_nil

@[simp] theorem allNamed_cons {k : Kind} {cs next : Syn} :
    AllNamed S (.cons k cs next) ↔ k.Named S ∧ AllNamed S cs ∧ AllNamed S next := by
  simp only [AllNamed, Forest.labels_cons, List.forall_mem_cons, List.forall_mem_append]

/-- A tree has its names in the set at the root and below. -/
@[simp] theorem allNamed_tree {k : Kind} {cs : Syn} :
    AllNamed S (.tree k cs) ↔ k.Named S ∧ AllNamed S cs := by simp [Forest.tree]

@[simp] theorem allNamed_leaf {k : Kind} : AllNamed S (.leaf k) ↔ k.Named S := by
  simp [Forest.leaf]

/-- Two pieces side by side have their names in the set. -/
@[simp] theorem allNamed_append {s t : Syn} :
    AllNamed S (s ++ t) ↔ AllNamed S s ∧ AllNamed S t := by
  simp only [AllNamed, Forest.labels_append, List.forall_mem_append]

/-- The first token has its name in the set and so have the others. -/
@[simp] theorem identifies_cons {t : Token} :
    Identifies S (.ok t :: rs) ↔
      (t.type = .tokenIdentifier → S t.value.toIdentifier) ∧ Identifies S rs := by
  simp [Identifies, or_imp, forall_and]

/-- What is left of such tokens is the same. -/
theorem Identifies.tail (h : Identifies S rs) : Identifies S rs.tail :=
  fun t ht => h t (List.mem_of_mem_tail ht)

/-- What a type leaves. -/
theorem DerivesType.identifies {ty : Vartype} (h : DerivesType rs ty rs')
    (hrs : Identifies S rs) : Identifies S rs' := by
  cases h with
  | primitive _ _ => exact (identifies_cons.mp (identifies_cons.mp hrs).2).2
  | archetype _ _ => exact (identifies_cons.mp (identifies_cons.mp hrs).2).2

/-- What an optional type leaves. -/
theorem DerivesTypeOpt.identifies {ty : Vartype} (h : DerivesTypeOpt rs ty rs')
    (hrs : Identifies S rs) : Identifies S rs' := by
  cases h with
  | absent _ _ => exact hrs
  | present h => exact h.identifies hrs

/-- A member has the name that was read. -/
theorem allNamed_memberOf {o o' : Syn} {name : SourceString} (h : memberOf o name = some o')
    (ho : AllNamed S o) : AllNamed S o' := by
  unfold memberOf at h
  split at h
  · cases h
  · split at h
    · cases h
      simpa [Kind.Named] using ho
    · cases h
      simpa [Kind.Named] using ho
    · obtain ⟨f, -, rfl⟩ := Option.map_eq_some_iff.mp h
      simp_all [Kind.Named]
    · cases h

/-- The names in the syntax of a derivation are identifiers that it reads. -/
theorem Derives.allNamed {c : Cat} {s : Syn} (h : Derives c rs s rs') (hrs : Identifies S rs)
    (hbefore : AllNamed S c.before) : AllNamed S s ∧ Identifies S rs' := by
  induction h with
  | chainDot _ _ hmember _ ih =>
      exact ih (identifies_cons.mp (identifies_cons.mp hrs).2).2 (allNamed_memberOf hmember hbefore)
  | insert _ _ _ =>
      simp only [identifies_cons] at hrs
      exact ⟨by simp [Kind.Named], hrs.2.2.2.tail⟩
  | singleton _ _ _ =>
      simp only [identifies_cons] at hrs
      exact ⟨by simp [Kind.Named], hrs.2.2.2.tail⟩
  -- a name is stored by the productions that read an identifier
  | paramsLast hi hty _ _ =>
      rw [identifies_cons] at hrs
      exact ⟨by simp [Kind.Named, hrs.1 hi], hty.identifies hrs.2⟩
  | paramsComma hi hty _ _ ih =>
      rw [identifies_cons] at hrs
      obtain ⟨hps, hrs'⟩ := ih (identifies_cons.mp (hty.identifies hrs.2)).2 allNamed_nil
      exact ⟨by simp [Kind.Named, hrs.1 hi, hps], hrs'⟩
  | vardecl _ hi hty _ _ ih =>
      simp only [identifies_cons] at hrs
      obtain ⟨he, hrs'⟩ := ih (identifies_cons.mp (hty.identifies hrs.2.2)).2 allNamed_nil
      exact ⟨by simp [Kind.Named, hrs.2.1 hi, he], hrs'⟩
  | fundecl _ hi _ _ _ hty _ _ ihps ihb =>
      simp only [identifies_cons] at hrs
      obtain ⟨hps, hr⟩ := ihps hrs.2.2.2 allNamed_nil
      obtain ⟨hb, hrs'⟩ := ihb (hty.identifies (identifies_cons.mp hr).2) allNamed_nil
      exact ⟨by simp [Kind.Named, hrs.2.1 hi, hps, hb], (identifies_cons.mp hrs').2⟩
  | _ => simp_all [Cat.before, Kind.Named]

end Nucleus.Spec
