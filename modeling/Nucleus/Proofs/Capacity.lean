import Nucleus.Proofs.Positions
import Nucleus.Proofs.Tree
import Nucleus.Proofs.TwinParse

/-!
# `Nucleus.Proofs.Capacity`: the capacity decides only whether a parse fits

`lexerPair` is the pair of two parsers on one source, with arenas of any two capacities and of any
content. `parse_follows` is what the two runs of `nulang__parse` have in common.

`parse_capacity` compares two capacities: the smaller arena gives the same result, or it is full.
And a parse stays within its arena (`StaysWithin`): it stores nothing behind the capacity, and what
is there does not matter.
-/

set_option autoImplicit false

namespace Nucleus.Lang

/-- An arena at the start of a parse: it holds the node of the module, without children. -/
structure Ast.Blank (a : Ast) : Prop extends a.Cleared where
  type : (a.nodes 0).type = .astModule

/-- A fresh arena is blank. -/
theorem blank_astInit {nodeCapacity : UInt32} (memory : NodeId → Node)
    (h : 0 < nodeCapacity.toNat) : (astInit nodeCapacity memory).Blank :=
  ⟨astInit_cleared memory h, rfl⟩

/-- In a run of `nulang__parse` on the arena `a`, no node behind the capacity of `a` is allocated,
stored to or read. For the last, any other content of these nodes gives the same run. -/
def StaysWithin (fuel : Nat) (source : Source) (a : Ast) (error : ErrorData) (uninit : NodeId) :
    Prop :=
  ∀ r p, parse fuel (parserStart source a error uninit) = some (r, p) →
    p.ast.nodeCount ≤ a.nodeCapacity.toNat ∧
    (∀ i : Nat, a.nodeCapacity.toNat ≤ i → p.ast.nodes i = a.nodes i) ∧
    ∀ memory : NodeId → Node, (∀ i : Nat, i < a.nodeCapacity.toNat → memory i = a.nodes i) →
      ∃ p₂, parse fuel (parserStart source { a with nodes := memory } error uninit) = some (r, p₂) ∧
        p₂.lexer = p.lexer ∧ p₂.error = p.error ∧ p₂.ast.nodeCount = p.ast.nodeCount ∧
        ∀ i : Nat, i < a.nodeCapacity.toNat → p₂.ast.nodes i = p.ast.nodes i

end Nucleus.Lang

namespace Nucleus.Proofs

open Nucleus.Lib
open Nucleus.Lib.Prog
open Nucleus.Lang
open Nucleus.Spec

/-! ### Two parsers on one source -/

/-- The lexer has read a part of the source. -/
def LiveLexer (source : Source) (l : Lexer) : Prop :=
  ∃ us rs, resultsOf source = us ++ rs ∧ LawfulTokenSource.Reads l rs

section
variable {source : Source} {l : Lexer}

/-- The two calls of the parser go through the results of the source. -/
theorem liveLexer_next (h : LiveLexer source l) : LiveLexer source (TokenSource.next l).2 := by
  obtain ⟨us, rs, hsplit, hreads⟩ := h
  rcases rs with _ | ⟨r, rs⟩
  · exact ⟨us, [], hsplit, (LawfulTokenSource.next_nil hreads).2⟩
  · exact ⟨us ++ [r], rs, by simpa using hsplit, (LawfulTokenSource.next_cons hreads).2⟩

/-- A peek leaves a lexer of the same source. -/
theorem liveLexer_peek (h : LiveLexer source l) : LiveLexer source (TokenSource.peek l 0).2 := by
  obtain ⟨us, rs, hsplit, hreads⟩ := h
  rcases rs with _ | ⟨e | t, rs⟩
  · exact ⟨us, [], hsplit, (LawfulTokenSource.peek_nil hreads).2⟩
  · exact ⟨us ++ [.error e], rs, by simpa using hsplit, (LawfulTokenSource.peek_error hreads).2⟩
  · exact ⟨us, _, hsplit, (LawfulTokenSource.peek_ok hreads).2⟩

/-- A call returns the end or a result of the source. -/
theorem liveLexer_result {call : Lexer → LexResult × Lexer}
    (hcall : call = TokenSource.next ∨ call = (TokenSource.peek · 0)) (h : LiveLexer source l) :
    (call l).1 = .ok Token.eof ∨ (call l).1 ∈ resultsOf source := by
  obtain ⟨us, rs, hsplit, hreads⟩ := h
  rcases rs with _ | ⟨r, rs⟩
  · left
    rcases hcall with rfl | rfl
    · exact (LawfulTokenSource.next_nil hreads).1
    · exact (LawfulTokenSource.peek_nil hreads).1
  · right
    have hfirst : (call l).1 = r := by
      rcases hcall with rfl | rfl
      · exact (LawfulTokenSource.next_cons hreads).1
      · rcases r with e | t
        · exact (LawfulTokenSource.peek_error hreads).1
        · exact (LawfulTokenSource.peek_ok hreads).1
    rw [hfirst, hsplit]
    exact List.mem_append_right us List.mem_cons_self

end

/-- Both calls of the parser on the lexer of a source. -/
theorem pairedCall_lexer (source : Source) {call : Lexer → LexResult × Lexer}
    (hcall : call = TokenSource.next ∨ call = (TokenSource.peek · 0)) :
    PairedCall (fun l l' => l = l' ∧ LiveLexer source l') (LiveLexer source) (Stands source)
      call call := by
  have hlive : ∀ {l : Lexer}, LiveLexer source l → LiveLexer source (call l).2 := by
    intro l h
    rcases hcall with rfl | rfl
    · exact liveLexer_next h
    · exact liveLexer_peek h
  refine ⟨hlive, fun h ht => ?_, fun h he => ?_, fun h => h.1 ▸ rfl, fun h => ?_⟩
  · rcases liveLexer_result hcall h with heof | hmem
    · cases ht.symm.trans heof
      exact Or.inl rfl
    · exact Or.inr ⟨_, ht ▸ hmem, rfl⟩
  · rcases liveLexer_result hcall h with heof | hmem
    · cases he.symm.trans heof
    · -- the lexer takes no node, so it never reports that there is none
      have hinside : LexResult.Inside source.val.length (.error _) :=
        inside_resultsOf source _ (he ▸ hmem)
      exact hinside.1
  · rw [h.1]
    exact ⟨rfl, hlive h.2⟩

/-- Two parsers on one source, the shadow with the arena `a` and the main one with `b`. -/
def lexerPair (source : Source) (Exact : Prop) (a b : Ast)
    (hle : a.nodeCapacity.toNat ≤ b.nodeCapacity.toNat) : Pair Lexer Lexer where
  Rel := fun l l' => l = l' ∧ LiveLexer source l'
  Live := LiveLexer source
  InSource := Stands source
  Exact := Exact
  capacity := a.nodeCapacity
  capacity' := b.nodeCapacity
  memory := a.nodes
  memory' := b.nodes
  capacity_le := hle
  reads := fun ⟨_, rs, _, hreads⟩ => ⟨rs, hreads⟩
  reads_rel := fun ⟨heq, _, rs, _, hreads⟩ => ⟨rs, heq ▸ hreads⟩
  next := pairedCall_lexer source (Or.inl rfl)
  peek := pairedCall_lexer source (Or.inr rfl)

section
variable {source : Source} {Exact : Prop} {a b : Ast}
  {hle : a.nodeCapacity.toNat ≤ b.nodeCapacity.toNat}

/-- A blank arena has room for all its nodes. -/
theorem room_of_blank (h : a.Blank) : a.Room a.nodeCapacity a.nodes := by
  have hnull : ∀ {f : Node → NodeId}, f (a.nodes 0) = nodeNull →
      ∀ i : Nat, i < a.nodeCount → a.Link (f (a.nodes i)) := by
    intro f hf i hi
    rw [h.nodeCount] at hi
    obtain rfl : i = 0 := by omega
    exact Or.inl hf
  refine ⟨h.root, rfl, by rw [h.nodeCount]; decide, by rw [h.nodeCount]; exact h.capacity, h.type,
    fun _ _ => rfl, hnull ?_, hnull ?_, hnull ?_⟩
  · exact congrArg Links.firstChild h.links
  · exact congrArg Links.lastChild h.links
  · exact congrArg Links.nextSibling h.links

/-- The two parsers start alike. -/
theorem good_parserStart (ha : a.Blank) (hb : b.Blank) {error error' : ErrorData}
    (uninit uninit' : NodeId) (hexact : Exact → error = error' ∧
      ∀ i : Nat, i < a.nodeCapacity.toNat → a.nodes i = b.nodes i) :
    Good (lexerPair source Exact a b hle) noNode [] (some (parserStart source a error uninit))
      (parserStart source b error' uninit') := by
  have hlive : LiveLexer source (lexerInit source) := ⟨[], _, rfl, reads_lexerInit source⟩
  refine ⟨hlive, room_of_blank hb, nofun, fun p hp => ?_, nofun⟩
  cases hp
  refine ⟨⟨rfl, hlive⟩, room_of_blank ha,
    ⟨ha.nodeCount.trans hb.nodeCount.symm, fun i hi _ => ?_, fun _ _ hfresh => hfresh.elim⟩,
    hexact⟩
  have hi : i < b.nodeCount := hi
  rw [hb.nodeCount] at hi
  obtain rfl : i = 0 := by omega
  -- the module's node has no value, and no resolver reports its span
  refine Twin.of_links (ha.links.trans hb.links.symm) (ha.type.trans hb.type.symm) ?_ ?_
  all_goals
    intro hv
    rw [show (parserStart source a error uninit).ast.nodes 0 = a.nodes 0 from rfl, ha.type] at hv
    cases hv

end

/-! ### Two runs of `nulang__parse` -/

section
variable {L L' : Type} [TokenSource L] [LawfulTokenSource L] [TokenSource L']
  [LawfulTokenSource L'] {P : Pair L L'} {p : Parser L} {q q' : Parser L'} {fuel : Nat}
  {r : Except Error Unit}

/-- Where two runs of `nulang__parse` are when they end with `r`. -/
def Pair.Finished (P : Pair L L') (r : Except Error Unit) (o : Option (Parser L))
    (q : Parser L') : Prop :=
  match r with
  | .ok _ => Good P noNode [] o q
  | .error e => P.Failed e o q

/-- A main run that ends leaves its arena in order. A shadow beside it is full, or it ends with the
same result. -/
theorem parse_follows (h : Good P noNode [] (some p) q) (hrun : parse fuel q = some (r, q')) :
    q'.ast.Room P.capacity' P.memory' ∧
    ((∃ p', parse fuel p = some (.error .outOfNode, p') ∧ p'.ast.Room P.capacity P.memory ∧
      P.capacity.toNat < q'.ast.nodeCount) ∨
    ∃ p', parse fuel p = some (r, p') ∧ Pair.Finished P r (some p') q') := by
  have hshadow := runs_parse fuel h
  have hfinished : ∃ o', Follows .outOfNode P.Stopped (parse fuel) (some p) (some r) o' ∧
      Pair.Finished P r o' q' := by
    rcases r with e | ⟨⟩
    · exact hshadow.fails hrun
    · exact hshadow.returns hrun
  obtain ⟨o', hfollows, hfin⟩ := hfinished
  have hmain : q'.ast.Room P.capacity' P.memory' ∧
      (o' = none → P.capacity.toNat < q'.ast.nodeCount) := by
    rcases r with e | ⟨⟩
    · exact ⟨Pair.Failed.room hfin, Pair.Failed.gone hfin⟩
    · exact ⟨Good.room hfin, Good.gone hfin⟩
  refine ⟨hmain.1, ?_⟩
  rcases hfollows.of_some with ⟨p', hstop, hroom, rfl⟩ | ⟨p', hkeep, rfl⟩
  · exact Or.inl ⟨p', hstop, hroom, hmain.2 rfl⟩
  · exact Or.inr ⟨p', hkeep, hfin⟩

/-- A shadow beside a main run that has no result is full, or it has none either. -/
theorem parse_follows_none (h : Good P noNode [] (some p) q) (hrun : parse fuel q = none) :
    (∃ p', parse fuel p = some (.error .outOfNode, p')) ∨ parse fuel p = none := by
  rcases ((runs_parse fuel h).ends hrun).of_none with ⟨p', hstop, -⟩ | hnone
  · exact Or.inl ⟨p', hstop⟩
  · exact Or.inr hnone

/-- What two parsers that end together have in common. -/
theorem Pair.Finished.common (h : Pair.Finished P r (some p) q) :
    P.Rel p.lexer q.lexer ∧ p.ast.nodeCount = q.ast.nodeCount ∧ P.Agrees p q := by
  rcases r with e | ⟨⟩
  · exact ⟨Pair.Failed.rel h p rfl, Pair.Failed.count h p rfl, Pair.Failed.agrees h p rfl⟩
  · have hbeside := Good.beside h p rfl
    exact ⟨hbeside.rel, hbeside.twins.count, hbeside.agrees⟩

/-- Two parsers that succeed have the same tree. -/
theorem Good.same (h : Good P noNode [] (some p) q) : p.ast.Same q.ast := by
  have hbeside := h.beside p rfl
  refine ⟨hbeside.room.root.trans h.room.root.symm, hbeside.twins.count, fun i hi => ?_⟩
  exact (hbeside.twins.nodes i (hbeside.twins.count ▸ hi) not_false).toSame

end

/-- The relation is symmetric. -/
theorem Same.symm {a b : Ast} (h : a.Same b) : b.Same a := by
  refine ⟨h.root.symm, h.nodeCount.symm, fun i hi => ?_⟩
  have hn := h.nodes i (by rw [h.nodeCount]; exact hi)
  exact ⟨hn.type.symm, fun hv => (hn.value (by rw [hn.type]; exact hv)).symm, hn.parent.symm,
    hn.firstChild.symm, hn.lastChild.symm, hn.nextSibling.symm⟩

/-! ### Capacities -/

section
variable {source : Source} {a b c : Ast} {error error' : ErrorData} {uninit uninit' : NodeId}
  {fuel : Nat} {r : Except Error Unit} {q : Parser Lexer}

/-- Every run stays within its arena. -/
theorem staysWithin (ha : a.Blank) : StaysWithin fuel source a error uninit := by
  intro r p hrun
  -- the same run on any other memory behind the capacity, beside this one
  have hpair : ∀ {memory : NodeId → Node},
      (∀ i : Nat, i < a.nodeCapacity.toNat → memory i = a.nodes i) →
      p.ast.Room a.nodeCapacity a.nodes ∧
      ∃ p₂, parse fuel (parserStart source { a with nodes := memory } error uninit) = some (r, p₂) ∧
        p₂.lexer = p.lexer ∧ p₂.error = p.error ∧ p₂.ast.nodeCount = p.ast.nodeCount ∧
        ∀ i : Nat, i < a.nodeCapacity.toNat → p₂.ast.nodes i = p.ast.nodes i := by
    intro memory hmemory
    have hblank : ({ a with nodes := memory } : Ast).Blank := by
      have h0 := hmemory 0 ha.capacity
      refine ⟨⟨ha.root, ha.nodeCount, ha.capacity, ?_, ha.asserts⟩,
        (congrArg Node.type h0).trans ha.type⟩
      exact (congrArg Node.linksOf h0).trans ha.links
    have hgood : Good (lexerPair source True { a with nodes := memory } a (Nat.le_refl _)) noNode []
        (some (parserStart source { a with nodes := memory } error uninit))
        (parserStart source a error uninit) :=
      good_parserStart hblank ha uninit uninit fun _ => ⟨rfl, hmemory⟩
    obtain ⟨hroom, ⟨_, -, -, hlt⟩ | ⟨p₂, hrun₂, hfin⟩⟩ := parse_follows hgood hrun
    · exact absurd hroom.le (Nat.not_le.mpr hlt)
    · obtain ⟨hrel, hcount, hagrees⟩ := hfin.common
      obtain ⟨herror, hnodes⟩ := hagrees trivial
      exact ⟨hroom, p₂, hrun₂, hrel.1, herror, hcount, hnodes⟩
  have hroom := (hpair fun _ _ => rfl).1
  exact ⟨hroom.le, fun i hi => hroom.untouched i (hroom.le.trans hi),
    fun _ hmemory => (hpair hmemory).2⟩

/-- A smaller arena gives the same result, or it is full. -/
theorem parse_smaller (ha : a.Blank) (hb : b.Blank)
    (hle : a.nodeCapacity.toNat ≤ b.nodeCapacity.toNat)
    (hrun : parse fuel (parserStart source b error' uninit') = some (r, q)) :
    (a.nodeCapacity.toNat < q.ast.nodeCount ∧
      ∃ p, parse fuel (parserStart source a error uninit) = some (.error .outOfNode, p)) ∨
    ∃ p, parse fuel (parserStart source a error uninit) = some (r, p) ∧
      (r = .ok () → p.ast.Same q.ast) := by
  have hgood : Good (lexerPair source False a b hle) noNode []
      (some (parserStart source a error uninit)) (parserStart source b error' uninit') :=
    good_parserStart ha hb uninit uninit' False.elim
  obtain ⟨-, ⟨p, hstop, -, hlt⟩ | ⟨p, hrun₂, hfin⟩⟩ := parse_follows hgood hrun
  · exact Or.inl ⟨hlt, p, hstop⟩
  · refine Or.inr ⟨p, hrun₂, ?_⟩
    rintro rfl
    exact Good.same hfin

/-- An arena with room for the nodes of a parse that succeeds gives the same tree. -/
theorem parse_fits (hb : b.Blank) (hc : c.Blank)
    (hrun : parse fuel (parserStart source b error' uninit') = some (.ok (), q))
    (hle : q.ast.nodeCount ≤ c.nodeCapacity.toNat) :
    ∃ p, parse fuel (parserStart source c error uninit) = some (.ok (), p) ∧ p.ast.Same q.ast := by
  by_cases hcb : c.nodeCapacity.toNat ≤ b.nodeCapacity.toNat
  · rcases parse_smaller hc hb hcb hrun with ⟨hlt, -⟩ | ⟨p, hrun₂, hsame⟩
    · exact absurd hle (Nat.not_le.mpr hlt)
    · exact ⟨p, hrun₂, hsame rfl⟩
  · -- the larger arena is the main one, and the given run follows it
    have hbc : b.nodeCapacity.toNat ≤ c.nodeCapacity.toNat := Nat.le_of_lt (Nat.lt_of_not_le hcb)
    rcases hmain : parse fuel (parserStart source c error uninit) with _ | ⟨r, p⟩
    · have hgood : Good (lexerPair source False b c hbc) noNode []
          (some (parserStart source b error' uninit')) (parserStart source c error uninit) :=
        good_parserStart hb hc uninit' uninit False.elim
      rcases parse_follows_none hgood hmain with ⟨_, hstop⟩ | hnone
      · rw [hrun] at hstop
        cases hstop
      · rw [hrun] at hnone
        cases hnone
    · rcases parse_smaller hb hc hbc hmain with ⟨-, _, hstop⟩ | ⟨p', hrun₂, hsame⟩
      · rw [hrun] at hstop
        cases hstop
      · rw [hrun] at hrun₂
        cases hrun₂
        exact ⟨p, rfl, Same.symm (hsame rfl)⟩

end

/-- The capacity of the arena decides only whether a parse fits. Let a parse on the arena `b` end
with `r`. On an arena `a` that is not larger it ends with `NULANG_ERROR_OUT_OF_NODE`, or with `r`
and the same tree; every run stays within its arena; and if `r` is success, the parse succeeds on
every arena with room for its nodes. -/
theorem parse_capacity {source : Source} {a b : Ast} {error error' : ErrorData}
    {uninit uninit' : NodeId} {fuel : Nat} {r : Except Error Unit} {q : Parser Lexer}
    (ha : a.Blank) (hb : b.Blank) (hle : a.nodeCapacity.toNat ≤ b.nodeCapacity.toNat)
    (hrun : parse fuel (parserStart source b error' uninit') = some (r, q)) :
    (∃ r' p, parse fuel (parserStart source a error uninit) = some (r', p) ∧
      (r' = .error .outOfNode ∨ r' = r ∧ (r = .ok () → p.ast.Same q.ast))) ∧
    StaysWithin fuel source a error uninit ∧ StaysWithin fuel source b error' uninit' ∧
    (r = .ok () → ∀ c : Ast, c.Blank → q.ast.nodeCount ≤ c.nodeCapacity.toNat →
      ∀ (error : ErrorData) (uninit : NodeId), ∃ p,
        parse fuel (parserStart source c error uninit) = some (.ok (), p) ∧ p.ast.Same q.ast) := by
  refine ⟨?_, staysWithin ha, staysWithin hb, ?_⟩
  · rcases parse_smaller ha hb hle hrun with ⟨-, p, hstop⟩ | ⟨p, hrun₂, hsame⟩
    · exact ⟨_, p, hstop, Or.inl rfl⟩
    · exact ⟨r, p, hrun₂, Or.inr ⟨rfl, hsame⟩⟩
  · rintro rfl c hc hcount error uninit
    exact parse_fits hb hc hrun hcount

/-- The source `if a then b = c.d end` on arenas of three and of sixteen nodes. -/
theorem parse_capacity_ifSource :
    ∃ r p, parse 12 (parserStart ifSource (astInit 3 (startOn ifSource).ast.nodes)
        (startOn ifSource).error 0) = some (r, p) ∧ (r = .error .outOfNode ∨ r = .ok ()) := by
  obtain ⟨q, hrun⟩ := parse_ifSource
  obtain ⟨⟨r, p, hsmall, hr⟩, -⟩ := parse_capacity (a := astInit 3 (startOn ifSource).ast.nodes)
    (b := (startOn ifSource).ast) (blank_astInit _ (by decide)) (blank_astInit _ (by decide))
    (by decide) hrun
  exact ⟨r, p, hsmall, hr.imp_right And.left⟩

end Nucleus.Proofs
