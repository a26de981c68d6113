import Nucleus.Proofs.Static
import Nucleus.Spec.Alike

/-!
# `Nucleus.Proofs.Alike`: the compiler does not look at the layout

The grammar asks of a token its type and its value only, so it derives from alike results the same
syntax up to the places of the names (`Derives.alike`). The static semantics compares names by
their characters. So `nulang_compile` gives two sources that say the same the same result
(`compile_alike`).
-/

set_option autoImplicit false

namespace Nucleus.Lang

open Nucleus.Lib

/-! ### Values -/

/-- A string of its own has the text it was cut from. -/
@[simp] theorem SourceString.text_own (s : SourceString) : s.own.text = s.text :=
  List.take_length

/-- Strings of their own are equal when their texts are. -/
theorem SourceString.own_eq_iff {s t : SourceString} : s.own = t.own ↔ s.text = t.text := by
  constructor
  · intro h
    rw [← s.text_own, h, t.text_own]
  · intro h
    unfold SourceString.own
    rw [h]

/-- The name of a value of its own. -/
theorem TokenValue.toIdentifier_own (v : TokenValue) : v.own.toIdentifier = v.toIdentifier.own := by
  cases v <;> rfl

/-- The literal of a value of its own. -/
theorem TokenValue.toLiteral_own (v : TokenValue) : v.own.toLiteral = v.toLiteral.own := by
  cases v <;> rfl

/-- The primitive of a value, which is cut from no source. -/
theorem TokenValue.toPrimitive_own (v : TokenValue) : v.own.toPrimitive = v.toPrimitive := by
  cases v <;> rfl

section
variable {t u : Token} (h : t.Alike u)
include h

/-- Tokens that are alike have names with the same text. -/
theorem Token.Alike.identifier : t.value.toIdentifier.own = u.value.toIdentifier.own := by
  rw [← TokenValue.toIdentifier_own, h.value, TokenValue.toIdentifier_own]

/-- Tokens that are alike have literals with the same text. -/
theorem Token.Alike.literal : t.value.toLiteral.own = u.value.toLiteral.own := by
  rw [← TokenValue.toLiteral_own, h.value, TokenValue.toLiteral_own]

/-- Tokens that are alike have the same primitive. -/
theorem Token.Alike.primitive : t.value.toPrimitive = u.value.toPrimitive := by
  rw [← TokenValue.toPrimitive_own, h.value, TokenValue.toPrimitive_own]

end

/-- A lookup of a builtin function compares characters. -/
theorem findBuiltinFunction_alike {primitive : Vm.Primitive} {a b : SourceString} (ha : a.IsSlice)
    (hb : b.IsSlice) (h : a.text = b.text) :
    findBuiltinFunction primitive a = findBuiltinFunction primitive b := by
  have hname : ∀ f ∈ builtins, SourceString.IsSlice ⟨f.name, Vm.strlen f.name⟩ := by
    intro f hf
    simp only [builtins, List.mem_cons, List.not_mem_nil, or_false] at hf
    rcases hf with rfl | rfl
    · exact ⟨by decide, by decide⟩
    · exact ⟨by decide, by decide⟩
  have hsame : ∀ f ∈ builtins, sourceStringEquals a ⟨f.name, Vm.strlen f.name⟩ =
      sourceStringEquals b ⟨f.name, Vm.strlen f.name⟩ := by
    intro f hf
    rw [Bool.eq_iff_iff, Proofs.sourceStringEquals_iff ha (hname f hf),
      Proofs.sourceStringEquals_iff hb (hname f hf), h]
  unfold findBuiltinFunction
  refine List.find?_congr fun f hf => ?_
  rw [hsame f hf]

end Nucleus.Lang

namespace Nucleus.Spec

open Nucleus.Lib
open Nucleus.Lang

/-! ### Alike results -/

section
variable {rs us : List LexResult}

/-- Results that are alike have the same type ahead. -/
theorem AlikeResults.lookahead (h : AlikeResults rs us) : lookahead us = lookahead rs := by
  cases h with
  | nil => rfl
  | cons h _ =>
      cases h with
      | ok h => exact congrArg some h.type.symm
      | error => rfl

/-- A numeral without an end stands at the same place. -/
theorem AlikeResults.endless (h : AlikeResults rs us) : endless us.head? = endless rs.head? := by
  cases h with
  | nil => rfl
  | cons h _ =>
      cases h with
      | ok => rfl
      | error h => exact h.symm

/-- Behind a token stands a token that says the same. -/
theorem AlikeResults.of_ok {t : Token} (h : AlikeResults (.ok t :: rs) us) :
    ∃ u us', us = .ok u :: us' ∧ t.Alike u ∧ AlikeResults rs us' := by
  cases h with
  | cons h hrest =>
      cases h with
      | ok h => exact ⟨_, _, rfl, h, hrest⟩

/-- What is left behind the first result is alike. -/
theorem AlikeResults.tail (h : AlikeResults rs us) : AlikeResults rs.tail us.tail := by
  cases h with
  | nil => exact .nil
  | cons _ hrest => exact hrest

end

/-! ### Derivations from alike results -/

/-- A member of an object is found by the characters of its name. -/
theorem memberOf_alike {o p o' : Syn} {a b : SourceString} (h : memberOf o a = some o')
    (ho : own p = own o) (ha : a.IsSlice) (hb : b.IsSlice) (hab : a.own = b.own) :
    ∃ p', memberOf p b = some p' ∧ own p' = own o' := by
  have hmember : own (.tree (.member b) p) = own (.tree (.member a) o) := by
    rw [own_tree, own_tree, Kind.own, Kind.own, ho, hab]
  cases o with
  | nil => cases h
  | cons k cs next =>
      cases p with
      | nil => cases ho
      | cons k' cs' next' =>
          rw [own_cons, own_cons, Forest.cons.injEq] at ho
          obtain ⟨hkind, hcs, -⟩ := ho
          -- a member can be taken of a name, of a member and of a constructor
          cases k
          case symref name =>
            cases k'
            case symref name' =>
              cases h
              exact ⟨_, rfl, hmember⟩
            all_goals cases hkind
          case member name =>
            cases k'
            case member name' =>
              cases h
              exact ⟨_, rfl, hmember⟩
            all_goals cases hkind
          case builtin c =>
            cases k' <;> cases hkind
            cases c
            case builtinConstructor primitive =>
              obtain ⟨f, hfind, rfl⟩ := Option.map_eq_some_iff.mp h
              rw [findBuiltinFunction_alike ha hb (SourceString.own_eq_iff.mp hab)] at hfind
              refine ⟨_, Option.map_eq_some_iff.mpr ⟨f, hfind, rfl⟩, ?_⟩
              rw [own_tree, own_tree, hcs]
            all_goals cases h
          all_goals cases h

/-- A type is read from results that are alike, with a name of the same text. -/
theorem DerivesType.alike {rs rs' us : List LexResult} {ty : Vartype} (h : DerivesType rs ty rs')
    (hus : AlikeResults rs us) :
    ∃ ty' us', DerivesType us ty' us' ∧ ty'.own = ty.own ∧ AlikeResults rs' us' := by
  cases h with
  | primitive hc ht =>
      obtain ⟨c', us, rfl, hc', hus⟩ := hus.of_ok
      obtain ⟨t', us, rfl, ht', hus⟩ := hus.of_ok
      refine ⟨_, us, .primitive (hc'.type ▸ hc) (ht'.type ▸ ht), ?_, hus⟩
      rw [ht'.primitive]
  | archetype hc ht =>
      obtain ⟨c', us, rfl, hc', hus⟩ := hus.of_ok
      obtain ⟨t', us, rfl, ht', hus⟩ := hus.of_ok
      refine ⟨_, us, .archetype (hc'.type ▸ hc) (ht'.type ▸ ht), ?_, hus⟩
      simp only [Vartype.own, Option.map_some, ht'.identifier]

/-- An optional type is left out or read as it was. -/
theorem DerivesTypeOpt.alike {rs rs' us : List LexResult} {ty : Vartype}
    (h : DerivesTypeOpt rs ty rs') (hus : AlikeResults rs us) :
    ∃ ty' us', DerivesTypeOpt us ty' us' ∧ ty'.own = ty.own ∧ AlikeResults rs' us' := by
  cases h with
  | absent ht hne => exact ⟨_, us, .absent (hus.lookahead.trans ht) hne, rfl, hus⟩
  | present h =>
      obtain ⟨ty', us', hder, hty, hus'⟩ := h.alike hus
      exact ⟨ty', us', .present hder, hty, hus'⟩

/-- What the production derives from the results `rs`, it derives from all that are alike, up to the
places of its names. The syntax in hand may be another one with the same characters. -/
def Echoes (c : Cat) (rs : List LexResult) (s : Syn) (rs' : List LexResult) : Prop :=
  ∀ (o : Syn) {us : List LexResult}, own o = own c.before → AlikeResults rs us →
    ∃ s' us', Derives (c.holding o) us s' us' ∧ own s' = own s ∧ AlikeResults rs' us'

section
variable {rs rs₁ rs₂ rs' : List LexResult} {t : TokenType} {ty : Vartype}

/-! ### Member chains and calls -/

/-- The chain ends in front of the same type. -/
theorem echoes_chainEnd {o : Syn} (ht : lookahead rs = some t) (hne : t ≠ .tokenDot) :
    Echoes (.chain o) rs o rs := by
  intro p us hp hus
  exact ⟨p, us, .chainEnd (hus.lookahead.trans ht) hne, hp, hus⟩

/-- The object in hand has a member of the same name. -/
theorem echoes_chainDot {o o' s : Syn} {d m : Token} (hd : d.type = .tokenDot)
    (hm : m.type = .tokenIdentifier) (hmember : memberOf o m.value.toIdentifier = some o')
    (ih : Echoes (.chain o') rs s rs') : Echoes (.chain o) (.ok d :: .ok m :: rs) s rs' := by
  intro p us hp hus
  obtain ⟨d', us, rfl, hd', hus⟩ := hus.of_ok
  obtain ⟨m', us, rfl, hm', hus⟩ := hus.of_ok
  obtain ⟨hslice, hslice'⟩ := hm'.slices hm
  obtain ⟨p', hmember', hp'⟩ := memberOf_alike hmember hp hslice hslice' hm'.identifier
  obtain ⟨s', us', hder, hs, hus'⟩ := ih _ hp' hus
  exact ⟨s', us', .chainDot (hd'.type ▸ hd) (hm'.type ▸ hm) hmember' hder, hs, hus'⟩

/-- There is no call in front of the same type. -/
theorem echoes_callOptEnd {o : Syn} (ht : lookahead rs = some t) (hne : t ≠ .tokenLparen) :
    Echoes (.callOpt o) rs o rs := by
  intro p us hp hus
  exact ⟨p, us, .callOptEnd (hus.lookahead.trans ht) hne, hp, hus⟩

/-- A call is a call again. -/
theorem echoes_callOptCall {o s : Syn} (ih : Echoes (.call o) rs s rs') :
    Echoes (.callOpt o) rs s rs' := by
  intro p us hp hus
  obtain ⟨s', us', hder, hs, hus'⟩ := ih _ hp hus
  exact ⟨s', us', .callOptCall hder, hs, hus'⟩

/-- A call without arguments, with the designator in hand. -/
theorem echoes_callNone {o : Syn} {l r : Token} (hl : l.type = .tokenLparen)
    (hr : r.type = .tokenRparen) : Echoes (.call o) (.ok l :: .ok r :: rs) (.tree .call o) rs := by
  intro p us hp hus
  obtain ⟨l', us, rfl, hl', hus⟩ := hus.of_ok
  obtain ⟨r', us, rfl, hr', hus⟩ := hus.of_ok
  refine ⟨_, us, .callNone (hl'.type ▸ hl) (hr'.type ▸ hr), ?_, hus⟩
  rw [own_tree, own_tree, hp]
  rfl

/-- A call with arguments, with the designator in hand. -/
theorem echoes_callSome {o e as : Syn} {l r : Token} (hl : l.type = .tokenLparen)
    (ht : lookahead rs = some t) (hne : t ≠ .tokenRparen) (hr : r.type = .tokenRparen)
    (ihe : Echoes (.expr 0) rs e rs₁) (ihas : Echoes .args rs₁ as (.ok r :: rs')) :
    Echoes (.call o) (.ok l :: rs) (.tree .call (o ++ (e ++ as))) rs' := by
  intro p us hp hus
  obtain ⟨l', us, rfl, hl', hus⟩ := hus.of_ok
  obtain ⟨e', us₁, he, hes, hus₁⟩ := ihe .nil rfl hus
  obtain ⟨as', us₂, has, hass, hus₂⟩ := ihas .nil rfl hus₁
  obtain ⟨r', us', rfl, hr', hus'⟩ := hus₂.of_ok
  refine ⟨_, us', .callSome (hl'.type ▸ hl) (hus.lookahead.trans ht) hne he has
    (hr'.type ▸ hr), ?_, hus'⟩
  simp only [own_tree, own_append, hp, hes, hass, Cat.before]

/-- The arguments end in front of the same type. -/
theorem echoes_argsEnd (ht : lookahead rs = some t) (hne : t ≠ .tokenComma) :
    Echoes .args rs .nil rs := by
  intro _ us _ hus
  exact ⟨.nil, us, .argsEnd (hus.lookahead.trans ht) hne, rfl, hus⟩

/-- A further argument. -/
theorem echoes_argsComma {e as : Syn} {c : Token} (hc : c.type = .tokenComma)
    (ihe : Echoes (.expr 0) rs e rs₁) (ihas : Echoes .args rs₁ as rs') :
    Echoes .args (.ok c :: rs) (e ++ as) rs' := by
  intro _ us _ hus
  obtain ⟨c', us, rfl, hc', hus⟩ := hus.of_ok
  obtain ⟨e', us₁, he, hes, hus₁⟩ := ihe .nil rfl hus
  obtain ⟨as', us', has, hass, hus'⟩ := ihas .nil rfl hus₁
  exact ⟨_, us', .argsComma (hc'.type ▸ hc) he has, by simp only [own_append, hes, hass], hus'⟩

/-! ### Expressions -/

/-- The chain starts from a name with the same text. -/
theorem echoes_symbol {o s : Syn} {i : Token} (hi : i.type = .tokenIdentifier)
    (ihchain : Echoes (.chain (.leaf (.symref i.value.toIdentifier))) rs o rs₁)
    (ihcall : Echoes (.callOpt o) rs₁ s rs') : Echoes .atom (.ok i :: rs) s rs' := by
  intro _ us _ hus
  obtain ⟨i', us, rfl, hi', hus⟩ := hus.of_ok
  obtain ⟨p, us₁, hchain, hp, hus₁⟩ :=
    ihchain (.leaf (.symref i'.value.toIdentifier))
      (by simp only [Cat.before, own_leaf, Kind.own, hi'.identifier]) hus
  obtain ⟨s', us', hcall, hs, hus'⟩ := ihcall _ hp hus₁
  exact ⟨s', us', .symbol (hi'.type ▸ hi) hchain hcall, hs, hus'⟩

/-- The chain starts from the same primitive. -/
theorem echoes_constructor {o s : Syn} {i : Token} (hi : i.type = .tokenPrimitive)
    (ihchain : Echoes (.chain (.leaf (.builtin (.builtinConstructor i.value.toPrimitive)))) rs o
      rs₁) (ihcall : Echoes (.callOpt o) rs₁ s rs') : Echoes .atom (.ok i :: rs) s rs' := by
  intro _ us _ hus
  obtain ⟨i', us, rfl, hi', hus⟩ := hus.of_ok
  obtain ⟨p, us₁, hchain, hp, hus₁⟩ :=
    ihchain (.leaf (.builtin (.builtinConstructor i'.value.toPrimitive)))
      (by rw [hi'.primitive]; rfl) hus
  obtain ⟨s', us', hcall, hs, hus'⟩ := ihcall _ hp hus₁
  exact ⟨s', us', .constructor (hi'.type ▸ hi) hchain hcall, hs, hus'⟩

/-- A literal with the same text. -/
theorem echoes_literal {i : Token} (hi : i.type = .tokenLiteral) :
    Echoes .atom (.ok i :: rs) (.leaf (.literal i.value.toLiteral)) rs := by
  intro _ us _ hus
  obtain ⟨i', us, rfl, hi', hus⟩ := hus.of_ok
  refine ⟨_, us, .literal (hi'.type ▸ hi), ?_, hus⟩
  simp only [own_leaf, Kind.own, hi'.literal]

/-- `insert` of a name with the same text. What is skipped behind it may be any item. -/
theorem echoes_insert {i l n : Token} (hi : i.type = .tokenInsert) (hl : l.type = .tokenLparen)
    (hn : n.type = .tokenIdentifier) (hcomes : endless rs.head? = false) :
    Echoes .atom (.ok i :: .ok l :: .ok n :: rs) (.leaf (.insert n.value.toIdentifier))
      rs.tail := by
  -- whatever stands in the place of the closing parenthesis is skipped in both
  intro _ us _ hus
  obtain ⟨i', us, rfl, hi', hus⟩ := hus.of_ok
  obtain ⟨l', us, rfl, hl', hus⟩ := hus.of_ok
  obtain ⟨n', us, rfl, hn', hus⟩ := hus.of_ok
  refine ⟨_, us.tail, .insert (hi'.type ▸ hi) (hl'.type ▸ hl) (hn'.type ▸ hn)
    (hus.endless.trans hcomes), ?_, hus.tail⟩
  simp only [own_leaf, Kind.own, hn'.identifier]

/-- `singleton` of a name with the same text. -/
theorem echoes_singleton {i l n : Token} (hi : i.type = .tokenSingleton)
    (hl : l.type = .tokenLparen) (hn : n.type = .tokenIdentifier)
    (hcomes : endless rs.head? = false) :
    Echoes .atom (.ok i :: .ok l :: .ok n :: rs) (.leaf (.singleton n.value.toIdentifier))
      rs.tail := by
  intro _ us _ hus
  obtain ⟨i', us, rfl, hi', hus⟩ := hus.of_ok
  obtain ⟨l', us, rfl, hl', hus⟩ := hus.of_ok
  obtain ⟨n', us, rfl, hn', hus⟩ := hus.of_ok
  refine ⟨_, us.tail, .singleton (hi'.type ▸ hi) (hl'.type ▸ hl) (hn'.type ▸ hn)
    (hus.endless.trans hcomes), ?_, hus.tail⟩
  simp only [own_leaf, Kind.own, hn'.identifier]

/-- An expression in parentheses. -/
theorem echoes_paren {s : Syn} {l r : Token} (hl : l.type = .tokenLparen)
    (hr : r.type = .tokenRparen) (ih : Echoes (.expr 1) rs s (.ok r :: rs')) :
    Echoes .primary (.ok l :: rs) s rs' := by
  intro _ us _ hus
  obtain ⟨l', us, rfl, hl', hus⟩ := hus.of_ok
  obtain ⟨s', us₁, hder, hs, hus₁⟩ := ih .nil rfl hus
  obtain ⟨r', us', rfl, hr', hus'⟩ := hus₁.of_ok
  exact ⟨s', us', .paren (hl'.type ▸ hl) hder (hr'.type ▸ hr), hs, hus'⟩

/-- The same operator. -/
theorem echoes_unop {s : Syn} {u : Token} (hu : isUnop u.type = true)
    (ih : Echoes .primary rs s rs') :
    Echoes .primary (.ok u :: rs) (.tree (.unop (unopFromToken u.type)) s) rs' := by
  intro _ us _ hus
  obtain ⟨u', us, rfl, hu', hus⟩ := hus.of_ok
  obtain ⟨s', us', hder, hs, hus'⟩ := ih .nil rfl hus
  refine ⟨_, us', .unop (hu'.type ▸ hu) hder, ?_, hus'⟩
  rw [own_tree, own_tree, hs, hu'.type]

/-- An atom begins with the same type, so it is taken for an atom again. -/
theorem echoes_atom {s : Syn} (ih : Echoes .atom rs s rs') : Echoes .primary rs s rs' := by
  intro _ us _ hus
  obtain ⟨s', us', hder, hs, hus'⟩ := ih .nil rfl hus
  exact ⟨s', us', .atom hder, hs, hus'⟩

/-- The operand, and then the operators with an operand of the same text in hand. -/
theorem echoes_expr {m : Nat} {l s : Syn} (ihl : Echoes .primary rs l rs₁)
    (ihs : Echoes (.climb m l) rs₁ s rs') : Echoes (.expr m) rs s rs' := by
  intro _ us _ hus
  obtain ⟨l', us₁, hl, hls, hus₁⟩ := ihl .nil rfl hus
  obtain ⟨s', us', hder, hs, hus'⟩ := ihs _ hls hus₁
  exact ⟨s', us', .expr hl hder, hs, hus'⟩

/-- The climb ends at the same type. -/
theorem echoes_climbEnd {m : Nat} {l : Syn} (ht : lookahead rs = some t) (hstop : ¬ Continues m t) :
    Echoes (.climb m l) rs l rs := by
  intro p us hp hus
  exact ⟨p, us, .climbEnd (hus.lookahead.trans ht) hstop, hp, hus⟩

/-- The same operator binds as tightly as before. -/
theorem echoes_climbOp {m : Nat} {l r s : Syn} {o : Token} (hcont : Continues m o.type)
    (ihr : Echoes (.expr (nextMinAssoc o.type)) rs r rs₁)
    (ihs : Echoes (.climb m (.tree (.binop (binopFromToken o.type)) (l ++ r))) rs₁ s rs') :
    Echoes (.climb m l) (.ok o :: rs) s rs' := by
  intro p us hp hus
  obtain ⟨u', us, rfl, hu', hus⟩ := hus.of_ok
  obtain ⟨r', us₁, hr, hrs, hus₁⟩ := ihr .nil rfl hus
  rw [hu'.type] at hcont hr
  obtain ⟨s', us', hder, hs, hus'⟩ :=
    ihs (.tree (.binop (binopFromToken u'.type)) (p ++ r'))
      (by simp only [Cat.before, own_tree, own_append, hp, hrs, hu'.type]) hus₁
  exact ⟨s', us', .climbOp hcont hr hder, hs, hus'⟩

/-! ### Parameters and branches -/

/-- The last parameter. -/
theorem echoes_paramsLast {i : Token} (hi : i.type = .tokenIdentifier) (hty : DerivesType rs ty rs')
    (ht : lookahead rs' = some t) (hne : t ≠ .tokenComma) :
    Echoes .params (.ok i :: rs) (.leaf (.argdecl i.value.toIdentifier ty)) rs' := by
  intro _ us _ hus
  obtain ⟨i', us, rfl, hi', hus⟩ := hus.of_ok
  obtain ⟨ty', us', hder, htys, hus'⟩ := hty.alike hus
  refine ⟨_, us', .paramsLast (hi'.type ▸ hi) hder (hus'.lookahead.trans ht) hne, ?_, hus'⟩
  simp only [own_leaf, Kind.own, hi'.identifier, htys]

/-- A parameter with others behind it. -/
theorem echoes_paramsComma {ps : Syn} {i c : Token} (hi : i.type = .tokenIdentifier)
    (hty : DerivesType rs ty (.ok c :: rs₁)) (hc : c.type = .tokenComma)
    (ih : Echoes .params rs₁ ps rs') :
    Echoes .params (.ok i :: rs) (.leaf (.argdecl i.value.toIdentifier ty) ++ ps) rs' := by
  intro _ us _ hus
  obtain ⟨i', us, rfl, hi', hus⟩ := hus.of_ok
  obtain ⟨ty', us₁, hder, htys, hus₁⟩ := hty.alike hus
  obtain ⟨c', us₁, rfl, hc', hus₁⟩ := hus₁.of_ok
  obtain ⟨ps', us', hps, hpss, hus'⟩ := ih .nil rfl hus₁
  refine ⟨_, us', .paramsComma (hi'.type ▸ hi) hder (hc'.type ▸ hc) hps, ?_, hus'⟩
  simp only [own_append, own_leaf, Kind.own, hi'.identifier, htys, hpss]

/-- No parameters. -/
theorem echoes_paramsNone (ht : lookahead rs = some .tokenRparen) :
    Echoes .paramsOpt rs .nil rs := by
  intro _ us _ hus
  exact ⟨.nil, us, .paramsNone (hus.lookahead.trans ht), rfl, hus⟩

/-- Parameters. -/
theorem echoes_paramsSome {ps : Syn} (ht : lookahead rs = some t) (hne : t ≠ .tokenRparen)
    (ih : Echoes .params rs ps rs') : Echoes .paramsOpt rs ps rs' := by
  intro _ us _ hus
  obtain ⟨ps', us', hps, hpss, hus'⟩ := ih .nil rfl hus
  exact ⟨ps', us', .paramsSome (hus.lookahead.trans ht) hne hps, hpss, hus'⟩

/-- A condition and its body. -/
theorem echoes_branch {c b : Syn} {t : Token} (ht : t.type = .tokenThen)
    (ihc : Echoes (.expr 0) rs c (.ok t :: rs₁)) (ihb : Echoes (.body ifBodyStop) rs₁ b rs') :
    Echoes .branch rs (c ++ .tree .compound b) rs' := by
  intro _ us _ hus
  obtain ⟨c', us₁, hc, hcs, hus₁⟩ := ihc .nil rfl hus
  obtain ⟨t', us₁, rfl, ht', hus₁⟩ := hus₁.of_ok
  obtain ⟨b', us', hb, hbs, hus'⟩ := ihb .nil rfl hus₁
  refine ⟨_, us', .branch hc (ht'.type ▸ ht) hb, ?_, hus'⟩
  simp only [own_append, own_tree, hcs, hbs]

/-- No further branch. -/
theorem echoes_elifsEnd (ht : lookahead rs = some t) (hne : t ≠ .tokenElif) :
    Echoes .elifs rs .nil rs := by
  intro _ us _ hus
  exact ⟨.nil, us, .elifsEnd (hus.lookahead.trans ht) hne, rfl, hus⟩

/-- A further branch. -/
theorem echoes_elifsElif {b es : Syn} {i : Token} (hi : i.type = .tokenElif)
    (ihb : Echoes .branch rs b rs₁) (ihes : Echoes .elifs rs₁ es rs') :
    Echoes .elifs (.ok i :: rs) (b ++ es) rs' := by
  intro _ us _ hus
  obtain ⟨i', us, rfl, hi', hus⟩ := hus.of_ok
  obtain ⟨b', us₁, hb, hbs, hus₁⟩ := ihb .nil rfl hus
  obtain ⟨es', us', hes, hess, hus'⟩ := ihes .nil rfl hus₁
  exact ⟨_, us', .elifsElif (hi'.type ▸ hi) hb hes, by simp only [own_append, hbs, hess], hus'⟩

/-- No `else`. -/
theorem echoes_elseNone (ht : lookahead rs = some t) (hne : t ≠ .tokenElse) :
    Echoes .elseOpt rs .nil rs := by
  intro _ us _ hus
  exact ⟨.nil, us, .elseNone (hus.lookahead.trans ht) hne, rfl, hus⟩

/-- The body of an `else`. -/
theorem echoes_elseSome {b : Syn} {i : Token} (hi : i.type = .tokenElse)
    (ih : Echoes (.body ifBodyStop) rs b rs') :
    Echoes .elseOpt (.ok i :: rs) (.tree .compound b) rs' := by
  intro _ us _ hus
  obtain ⟨i', us, rfl, hi', hus⟩ := hus.of_ok
  obtain ⟨b', us', hb, hbs, hus'⟩ := ih .nil rfl hus
  exact ⟨_, us', .elseSome (hi'.type ▸ hi) hb, by simp only [own_tree, hbs], hus'⟩

/-! ### Statements -/

/-- A declaration of a name with the same text. -/
theorem echoes_vardecl {e : Syn} {l i a : Token} (hl : l.type = .tokenLet)
    (hi : i.type = .tokenIdentifier) (hty : DerivesTypeOpt rs ty (.ok a :: rs₁))
    (ha : a.type = .tokenAssign) (ih : Echoes (.expr 0) rs₁ e rs') :
    Echoes .stmt (.ok l :: .ok i :: rs) (.tree (.vardecl i.value.toIdentifier ty) e) rs' := by
  intro _ us _ hus
  obtain ⟨l', us, rfl, hl', hus⟩ := hus.of_ok
  obtain ⟨i', us, rfl, hi', hus⟩ := hus.of_ok
  obtain ⟨ty', us₁, hder, htys, hus₁⟩ := hty.alike hus
  obtain ⟨a', us₁, rfl, ha', hus₁⟩ := hus₁.of_ok
  obtain ⟨e', us', he, hes, hus'⟩ := ih .nil rfl hus₁
  refine ⟨_, us', .vardecl (hl'.type ▸ hl) (hi'.type ▸ hi) hder (ha'.type ▸ ha) he, ?_, hus'⟩
  simp only [own_tree, Kind.own, hi'.identifier, htys, hes]

/-- A function of a name with the same text. -/
theorem echoes_fundecl {ps b : Syn} {f i l r e : Token} (hf : f.type = .tokenFunction)
    (hi : i.type = .tokenIdentifier) (hl : l.type = .tokenLparen) (hr : r.type = .tokenRparen)
    (hty : DerivesTypeOpt rs₁ ty rs₂) (he : e.type = .tokenEnd)
    (ihps : Echoes .paramsOpt rs ps (.ok r :: rs₁))
    (ihb : Echoes (.body endStop) rs₂ b (.ok e :: rs')) :
    Echoes .stmt (.ok f :: .ok i :: .ok l :: rs)
      (.tree (.fundecl i.value.toIdentifier ty false) (ps ++ .tree .compound b)) rs' := by
  intro _ us _ hus
  obtain ⟨f', us, rfl, hf', hus⟩ := hus.of_ok
  obtain ⟨i', us, rfl, hi', hus⟩ := hus.of_ok
  obtain ⟨l', us, rfl, hl', hus⟩ := hus.of_ok
  obtain ⟨ps', us₁, hps, hpss, hus₁⟩ := ihps .nil rfl hus
  obtain ⟨r', us₁, rfl, hr', hus₁⟩ := hus₁.of_ok
  obtain ⟨ty', us₂, hder, htys, hus₂⟩ := hty.alike hus₁
  obtain ⟨b', us₃, hb, hbs, hus₃⟩ := ihb .nil rfl hus₂
  obtain ⟨e', us', rfl, he', hus'⟩ := hus₃.of_ok
  refine ⟨_, us', .fundecl (hf'.type ▸ hf) (hi'.type ▸ hi) (hl'.type ▸ hl) hps (hr'.type ▸ hr)
    hder hb (he'.type ▸ he), ?_, hus'⟩
  simp only [own_tree, own_append, Kind.own, hi'.identifier, htys, hpss, hbs]

/-- A return. -/
theorem echoes_returnStmt {e : Syn} {r : Token} (hr : r.type = .tokenReturn)
    (ih : Echoes (.expr 0) rs e rs') : Echoes .stmt (.ok r :: rs) (.tree .returnStmt e) rs' := by
  intro _ us _ hus
  obtain ⟨r', us, rfl, hr', hus⟩ := hus.of_ok
  obtain ⟨e', us', he, hes, hus'⟩ := ih .nil rfl hus
  exact ⟨_, us', .returnStmt (hr'.type ▸ hr) he, by simp only [own_tree, hes], hus'⟩

/-- A conditional with the same branches. -/
theorem echoes_ifStmt {b es l : Syn} {i e : Token} (hi : i.type = .tokenIf)
    (he : e.type = .tokenEnd) (ihb : Echoes .branch rs b rs₁) (ihes : Echoes .elifs rs₁ es rs₂)
    (ihl : Echoes .elseOpt rs₂ l (.ok e :: rs')) :
    Echoes .stmt (.ok i :: rs) (.tree .ifStmt (b ++ (es ++ l))) rs' := by
  intro _ us _ hus
  obtain ⟨i', us, rfl, hi', hus⟩ := hus.of_ok
  obtain ⟨b', us₁, hb, hbs, hus₁⟩ := ihb .nil rfl hus
  obtain ⟨es', us₂, hes, hess, hus₂⟩ := ihes .nil rfl hus₁
  obtain ⟨l', us₃, hl, hls, hus₃⟩ := ihl .nil rfl hus₂
  obtain ⟨e', us', rfl, he', hus'⟩ := hus₃.of_ok
  refine ⟨_, us', .ifStmt (hi'.type ▸ hi) hb hes hl (he'.type ▸ he), ?_, hus'⟩
  simp only [own_tree, own_append, hbs, hess, hls]

/-- A loop. -/
theorem echoes_whileStmt {c b : Syn} {w d e : Token} (hw : w.type = .tokenWhile)
    (hd : d.type = .tokenDo) (he : e.type = .tokenEnd) (ihc : Echoes (.expr 0) rs c (.ok d :: rs₁))
    (ihb : Echoes (.body endStop) rs₁ b (.ok e :: rs')) :
    Echoes .stmt (.ok w :: rs) (.tree .whileStmt (c ++ .tree .compound b)) rs' := by
  intro _ us _ hus
  obtain ⟨w', us, rfl, hw', hus⟩ := hus.of_ok
  obtain ⟨c', us₁, hc, hcs, hus₁⟩ := ihc .nil rfl hus
  obtain ⟨d', us₁, rfl, hd', hus₁⟩ := hus₁.of_ok
  obtain ⟨b', us₂, hb, hbs, hus₂⟩ := ihb .nil rfl hus₁
  obtain ⟨e', us', rfl, he', hus'⟩ := hus₂.of_ok
  refine ⟨_, us', .whileStmt (hw'.type ▸ hw) hc (hd'.type ▸ hd) hb (he'.type ▸ he), ?_, hus'⟩
  simp only [own_tree, own_append, hcs, hbs]

/-- An assignment to a place with the same text. -/
theorem echoes_assign {o e : Syn} {i a : Token} (hi : i.type = .tokenIdentifier)
    (ha : a.type = .tokenAssign)
    (ihchain : Echoes (.chain (.leaf (.symref i.value.toIdentifier))) rs o (.ok a :: rs₁))
    (ihe : Echoes (.expr 0) rs₁ e rs') :
    Echoes .stmt (.ok i :: rs) (.tree .assign (o ++ e)) rs' := by
  intro _ us _ hus
  obtain ⟨i', us, rfl, hi', hus⟩ := hus.of_ok
  obtain ⟨p, us₁, hchain, hp, hus₁⟩ :=
    ihchain (.leaf (.symref i'.value.toIdentifier))
      (by simp only [Cat.before, own_leaf, Kind.own, hi'.identifier]) hus
  obtain ⟨a', us₁, rfl, ha', hus₁⟩ := hus₁.of_ok
  obtain ⟨e', us', he, hes, hus'⟩ := ihe .nil rfl hus₁
  refine ⟨_, us', .assign (hi'.type ▸ hi) hchain (ha'.type ▸ ha) he, ?_, hus'⟩
  simp only [own_tree, own_append, hp, hes]

/-- A call as a statement. -/
theorem echoes_callStmt {o s : Syn} {i : Token} (hi : i.type = .tokenIdentifier)
    (ihchain : Echoes (.chain (.leaf (.symref i.value.toIdentifier))) rs o rs₁)
    (ihcall : Echoes (.call o) rs₁ s rs') : Echoes .stmt (.ok i :: rs) s rs' := by
  intro _ us _ hus
  obtain ⟨i', us, rfl, hi', hus⟩ := hus.of_ok
  obtain ⟨p, us₁, hchain, hp, hus₁⟩ :=
    ihchain (.leaf (.symref i'.value.toIdentifier))
      (by simp only [Cat.before, own_leaf, Kind.own, hi'.identifier]) hus
  obtain ⟨s', us', hcall, hs, hus'⟩ := ihcall _ hp hus₁
  exact ⟨s', us', .callStmt (hi'.type ▸ hi) hchain hcall, hs, hus'⟩

/-- The body ends at the same type. -/
theorem echoes_bodyEnd {stop : List TokenType} (ht : lookahead rs = some t) (hmem : t ∈ stop) :
    Echoes (.body stop) rs .nil rs := by
  intro _ us _ hus
  exact ⟨.nil, us, .bodyEnd (hus.lookahead.trans ht) hmem, rfl, hus⟩

/-- A statement does not begin with a type that ends the body. -/
theorem echoes_bodyStmt {stop : List TokenType} {s b : Syn} (ht : lookahead rs = some t)
    (hne : t ∉ stop) (ihs : Echoes .stmt rs s rs₁) (ihb : Echoes (.body stop) rs₁ b rs') :
    Echoes (.body stop) rs (s ++ b) rs' := by
  intro _ us _ hus
  obtain ⟨x', us₁, hx, hxs, hus₁⟩ := ihs .nil rfl hus
  obtain ⟨b', us', hb, hbs, hus'⟩ := ihb .nil rfl hus₁
  refine ⟨_, us', .bodyStmt (hus.lookahead.trans ht) hne hx hb, ?_, hus'⟩
  simp only [own_append, hxs, hbs]

end

/-- From alike results the grammar derives the same syntax, up to the places of its names. -/
theorem Derives.alike {c : Cat} {rs rs' : List LexResult} {s : Syn} (h : Derives c rs s rs') :
    Echoes c rs s rs' := by
  induction h with
  | chainEnd ht hne => exact echoes_chainEnd ht hne
  | chainDot hd hm hmember _ ih => exact echoes_chainDot hd hm hmember ih
  | callOptEnd ht hne => exact echoes_callOptEnd ht hne
  | callOptCall _ ih => exact echoes_callOptCall ih
  | callNone hl hr => exact echoes_callNone hl hr
  | callSome hl ht hne _ _ hr ihe ihas => exact echoes_callSome hl ht hne hr ihe ihas
  | argsEnd ht hne => exact echoes_argsEnd ht hne
  | argsComma hc _ _ ihe ihas => exact echoes_argsComma hc ihe ihas
  | symbol hi _ _ ihchain ihcall => exact echoes_symbol hi ihchain ihcall
  | constructor hi _ _ ihchain ihcall => exact echoes_constructor hi ihchain ihcall
  | literal hi => exact echoes_literal hi
  | insert hi hl hn hcomes => exact echoes_insert hi hl hn hcomes
  | singleton hi hl hn hcomes => exact echoes_singleton hi hl hn hcomes
  | paren hl _ hr ih => exact echoes_paren hl hr ih
  | unop hu _ ih => exact echoes_unop hu ih
  | atom _ ih => exact echoes_atom ih
  | expr _ _ ihl ihs => exact echoes_expr ihl ihs
  | climbEnd ht hstop => exact echoes_climbEnd ht hstop
  | climbOp hcont _ _ ihr ihs => exact echoes_climbOp hcont ihr ihs
  | paramsLast hi hty ht hne => exact echoes_paramsLast hi hty ht hne
  | paramsComma hi hty hc _ ih => exact echoes_paramsComma hi hty hc ih
  | paramsNone ht => exact echoes_paramsNone ht
  | paramsSome ht hne _ ih => exact echoes_paramsSome ht hne ih
  | branch _ ht _ ihc ihb => exact echoes_branch ht ihc ihb
  | elifsEnd ht hne => exact echoes_elifsEnd ht hne
  | elifsElif hi _ _ ihb ihes => exact echoes_elifsElif hi ihb ihes
  | elseNone ht hne => exact echoes_elseNone ht hne
  | elseSome hi _ ih => exact echoes_elseSome hi ih
  | vardecl hl hi hty ha _ ih => exact echoes_vardecl hl hi hty ha ih
  | fundecl hf hi hl _ hr hty _ he ihps ihb => exact echoes_fundecl hf hi hl hr hty he ihps ihb
  | returnStmt hr _ ih => exact echoes_returnStmt hr ih
  | ifStmt hi _ _ _ he ihb ihes ihl => exact echoes_ifStmt hi he ihb ihes ihl
  | whileStmt hw _ hd _ he ihc ihb => exact echoes_whileStmt hw hd he ihc ihb
  | assign hi _ ha _ ihchain ihe => exact echoes_assign hi ha ihchain ihe
  | callStmt hi _ _ ihchain ihcall => exact echoes_callStmt hi ihchain ihcall
  | bodyEnd ht hmem => exact echoes_bodyEnd ht hmem
  | bodyStmt ht hne _ _ ihs ihb => exact echoes_bodyStmt ht hne ihs ihb

/-- Alike results are those of the same module, up to the places of its names. -/
theorem DerivesModule.alike {rs us : List LexResult} {m : Syn} (h : DerivesModule rs m)
    (hus : AlikeResults rs us) : ∃ m', DerivesModule us m' ∧ own m' = own m := by
  obtain ⟨m', us', hder, hm, hus'⟩ := h.body.alike .nil rfl hus
  cases hus' with
  | nil => exact ⟨m', ⟨fun t ht => h.header t (hus.lookahead.symm.trans ht), hder⟩, hm⟩

end Nucleus.Spec

namespace Nucleus.Spec

open Nucleus.Lib
open Nucleus.Lang

/-! ### The static semantics of alike modules -/

section
variable {find : UInt32 → Archetype} {known : UInt32 → Prop} {limit : Nat}

/-- A kind of its own declares the same name: names are told apart by their text. -/
@[simp] theorem Kind.declared_own (k : Kind) : k.own.declared = k.declared := by
  cases k <;> simp [Kind.own, Kind.declared]

/-- A kind of its own uses the same name. -/
@[simp] theorem Kind.used_own (k : Kind) : k.own.used = k.used := by
  cases k <;> simp [Kind.own, Kind.used]

/-- A kind of its own opens a scope when the kind does. -/
@[simp] theorem Kind.isScope_own (k : Kind) : k.own.isScope = k.isScope := by
  cases k <;> rfl

/-- A kind of its own has the same function name. -/
@[simp] theorem Kind.functionName_own (k : Kind) : k.own.functionName = k.functionName := by
  cases k <;> simp [Kind.own, Kind.functionName]

/-- The name of its archetype becomes one of its own. -/
theorem Kind.archetypeName_own (k : Kind) :
    k.own.archetypeName = k.archetypeName.map SourceString.own := by
  have htype : ∀ ty : Vartype, (if ty.own.primitive = .entity then ty.own.archetypeName else none) =
      (if ty.primitive = .entity then ty.archetypeName else none).map SourceString.own := by
    intro ty
    have hprimitive : ty.own.primitive = ty.primitive := rfl
    by_cases hentity : ty.primitive = .entity
    · rw [if_pos (hprimitive.trans hentity), if_pos hentity]
      rfl
    · rw [if_neg fun h => hentity (hprimitive.symm.trans h), if_neg hentity]
      rfl
  cases k
  all_goals first | exact htype _ | rfl

/-- The names behind a kind of its own. -/
@[simp] theorem Kind.declare_own (names : List Name) (k : Kind) :
    k.own.declare names = k.declare names := by
  unfold Kind.declare
  rw [Kind.declared_own]

/-- The rules of the names are about the text. -/
theorem Kind.allowed_own {names : List Name} {k : Kind} :
    k.own.Allowed limit names ↔ k.Allowed limit names :=
  ⟨fun h => ⟨by simpa using h.declares, by simpa using h.uses⟩,
    fun h => ⟨by simpa using h.declares, by simpa using h.uses⟩⟩

/-- The names behind a tree are about the text. -/
theorem namesBehind_own (s : Syn) (names : List Name) :
    namesBehind names (own s) = namesBehind names s := by
  induction s generalizing names with
  | nil => rfl
  | cons k cs next ihc ihn =>
      rw [own_cons, namesBehind, Kind.isScope_own, Kind.declare_own, ihc, ihn, namesBehind]

/-- The scopes are about the text. -/
theorem wellScoped_own (s : Syn) (names : List Name) :
    WellScoped limit names (own s) ↔ WellScoped limit names s := by
  induction s generalizing names with
  | nil => exact Iff.rfl
  | cons k cs next ihc ihn =>
      rw [own_cons, WellScoped, Kind.allowed_own, Kind.declare_own, Kind.isScope_own,
        namesBehind_own, ihc, ihn, WellScoped]

/-- The functions have the same names. -/
theorem functionNames_own (s : Syn) : functionNames (own s) = functionNames s := by
  unfold functionNames own
  rw [Forest.roots_map, List.filterMap_map]
  exact List.filterMap_congr fun k _ => Kind.functionName_own k

/-- The static semantics looks at the characters of names only. -/
theorem staticallyCorrect_own {s : Syn} :
    StaticallyCorrect limit known (own s) ↔ StaticallyCorrect limit known s := by
  have harchetypes : (∀ k ∈ (own s).labels, ∀ name ∈ k.archetypeName, known (nameUid name.text)) ↔
      ∀ k ∈ s.labels, ∀ name ∈ k.archetypeName, known (nameUid name.text) := by
    rw [own, Forest.labels_map, List.forall_mem_map]
    refine forall₂_congr fun k _ => ?_
    rw [Kind.archetypeName_own]
    simp
  constructor
  · rintro ⟨hnodup, hroom, hbody, hnames⟩
    rw [functionNames_own] at hnodup hroom hbody
    exact ⟨hnodup, hroom, (wellScoped_own s _).mp hbody, harchetypes.mp hnames⟩
  · rintro ⟨hnodup, hroom, hbody, hnames⟩
    rw [← functionNames_own] at hnodup hroom hbody
    exact ⟨hnodup, hroom, (wellScoped_own s _).mpr hbody, harchetypes.mpr hnames⟩

/-- An archetype is found by the text of its name. -/
theorem Kind.own_resolve (k : Kind) : (k.resolve find).own = k.own.resolve find := by
  have htype : ∀ ty : Vartype, (resolveType find ty).own = resolveType find ty.own := by
    intro ty
    unfold resolveType Vartype.own
    by_cases hentity : ty.primitive = .entity
    · rw [if_pos hentity, if_pos hentity]
      cases hname : ty.archetypeName with
      | none => simp [hname]
      | some name => simp
    · rw [if_neg hentity, if_neg hentity]
  cases k
  all_goals simp [Kind.resolve, Kind.own, htype]

/-- The handles of a tree are found by the texts of its names. -/
theorem own_map_resolve (s : Syn) :
    own (s.map (Kind.resolve find)) = (own s).map (Kind.resolve find) := by
  unfold own
  rw [Forest.map_map, Forest.map_map]
  exact Forest.map_congr fun k _ => Kind.own_resolve k

end

end Nucleus.Spec

namespace Nucleus.Proofs

open Nucleus.Lib
open Nucleus.Lang
open Nucleus.Spec
open Nucleus.Vm (TableManager TableMemory tableManagerInit)

section
variable {K : UInt32} (hK : 0 < K.toNat) {c c' : Compiler} (hc : Used K c) (hc' : Used K c')
  {ac fc cc : UInt16} {memory : TableMemory} {created : List CreateCall} {vm : TableManager}
  (hvm : CreateRun (tableManagerInit ac fc cc memory) created vm) {uninit uninit' : NodeId}
  {source source' : Source}
include hK hc hvm

/-- A source whose results are alike to those of a correct module compiles to that module, up to the
places of its names. -/
theorem compile_of_derives {rs : List LexResult} {m : Syn} (hder : DerivesModule rs m)
    (hsize : m.size + 1 ≤ K.toNat)
    (hcorrect : StaticallyCorrect maxSymbols (Registered created) m)
    (halike : AlikeResults rs (resultsOf source)) :
    ∃ fuel d, compile vm fuel uninit c source = some (.success, d) ∧
      own d.ast.syntaxOf = own (m.map (Kind.resolve (handleOf vm))) := by
  have hreg := (hvm.isRegistry (isRegistry_init ac fc cc memory)).1
  obtain ⟨m', hder', hown⟩ := hder.alike halike
  have hsize' : m'.size = m.size := by rw [← size_own m', hown, size_own]
  have hcorrect' : StaticallyCorrect maxSymbols (Registered created) m' := by
    rw [← staticallyCorrect_own, hown, staticallyCorrect_own]
    exact hcorrect
  obtain ⟨fuel, d, hrun, htree⟩ : ∃ fuel d, compile vm fuel uninit c source = some (.success, d) ∧
      d.ast.syntaxOf = m'.map (Kind.resolve (handleOf vm)) :=
    compile_of_correct hK hc hreg hder' (by omega) hcorrect'
  exact ⟨fuel, d, hrun, by rw [htree, own_map_resolve, own_map_resolve, hown]⟩

include hc'

/-- A source that compiles, and a source with alike results, compile on compilers of any history to
the same tree, up to the places of its names. -/
theorem compile_alike {fuel : Nat} {d : Compiler}
    (halike : AlikeResults (resultsOf source) (resultsOf source'))
    (hrun : compile vm fuel uninit c source = some (.success, d)) :
    ∃ fuel' d', compile vm fuel' uninit' c' source' = some (.success, d') ∧
      own d'.ast.syntaxOf = own d.ast.syntaxOf := by
  have hreg := (hvm.isRegistry (isRegistry_init ac fc cc memory)).1
  obtain ⟨m, hder, hsize, hcorrect, htree⟩ := correct_of_compile hK hc hreg hrun
  rw [htree]
  exact compile_of_derives hK hc' hvm hder hsize hcorrect halike

end

end Nucleus.Proofs
