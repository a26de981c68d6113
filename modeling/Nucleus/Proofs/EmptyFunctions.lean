import Nucleus.Proofs.Halting
import Nucleus.Proofs.Skipping
import Nucleus.Proofs.Visibility

/-!
# `Nucleus.Proofs.EmptyFunctions`: sources of functions with empty bodies

`functionsText ws` is a source with one function for each name in `ws`. The lexer reads the tokens
of these functions (`results_functions`), the grammar derives them (`Functions.derives`), and so
`nulang__parse` succeeds when the nodes are enough. Then the functions of the tree have the names
`ws` (`names_of_parse`).

There are sources of this kind with any number of functions.
-/

set_option autoImplicit false

namespace Nucleus.Proofs

open Nucleus.Lib
open Nucleus.Lang
open Nucleus.Spec

/-! ### Lexing behind spaces -/

/-- A character at which a call stops skipping. -/
structure Solid (c : Char) : Prop where
  space : isSpace c = false
  dash : c ≠ '-'
  starts : ¬ startsNothing c

/-- What follows a keyword or a name without going on with it. -/
theorem Solid.stops {c : Char} (h : Solid c) (tail : List Char) : Stops (c :: tail) := by
  refine ⟨?_, ?_, ?_⟩
  · intro d hd
    cases hd
    exact h.space
  · intro d hd
    cases hd
    exact h.starts
  · intro tail' heq
    exact h.dash (List.cons.inj heq).1

section
variable {l : CharStream} {pre sp tail : List Char} {c : Char}

/-- Behind spaces the next result is that of an item. -/
theorem results_item (h : Reading l pre (sp ++ c :: tail)) (hsp : ∀ d ∈ sp, isSpace d = true)
    (hc : Solid c) : ∃ r l' used rest, used ++ rest = c :: tail ∧ Item (pre ++ sp) used rest r ∧
      Reading l' (pre ++ sp ++ used) rest ∧ streamResults l = r :: streamResults l' :=
  results_behind h (.of_spaces hsp) (hc.stops tail) (List.cons_ne_nil c tail)

/-- Behind spaces, a word gives its token. -/
theorem results_word {w : List Char} (h : Reading l pre (sp ++ (c :: w ++ tail)))
    (hsp : ∀ d ∈ sp, isSpace d = true) (hc : StartsWord c)
    (hw : ∀ d ∈ c :: w, identifierChar d = true)
    (htail : ∀ d ∈ tail.head?, identifierChar d = false) :
    ∃ l', streamResults l = .ok (wordAt (pre ++ sp) (c :: w) tail) :: streamResults l' ∧
      Reading l' (pre ++ sp ++ c :: w) tail := by
  have hsolid : Solid c := by
    refine ⟨?_, (ne_of_identifierChar hc.1).1, ?_⟩
    · by_contra hspace
      rw [Bool.not_eq_false, isSpace, decide_eq_true_eq] at hspace
      have hident := hc.1
      rw [← identifierChar_readChar, hspace] at hident
      exact absurd hident (by decide)
    · rintro ⟨-, -, -, -, -, hident⟩
      rw [hc.1] at hident
      cases hident
  obtain ⟨r, l', used, rest, hsplit, hitem, hread, hresults⟩ := results_item h hsp hsolid
  have hhead : used.head? = some c := by
    cases used with
    | nil => exact absurd rfl hitem.used_ne_nil
    | cons d used => rw [(List.cons.inj hsplit).1, List.head?_cons]
  obtain ⟨hall, hstop, rfl⟩ := Item.first hitem hhead hc
  -- the item has the characters of the word, as both end in front of another character
  obtain ⟨rfl, rfl⟩ := run_unique (u := c :: w) hsplit.symm hw hall htail hstop
  exact ⟨l', hresults, hread⟩

/-- A token of one character. -/
theorem results_single {t : TokenType} (h : Reading l pre (c :: tail))
    (hc : singleCharType c = some t) :
    ∃ l', streamResults l = .ok (Token.single t (locationAfter pre)) :: streamResults l' ∧
      Reading l' (pre ++ [c]) tail := by
  have hplain := plain_of_singleCharType hc c (by simp)
  have hsolid : Solid c := by
    refine ⟨?_, hplain.2, ?_⟩
    · have hitem : Item [] [c] [] (.ok (Token.single t (locationAfter []))) := .single hc
      exact Item.not_space hitem
    · rintro ⟨hsingle, -⟩
      rw [hc] at hsingle
      cases hsingle
  have h' : Reading l pre ([] ++ c :: tail) := h
  obtain ⟨r, l', used, rest, hsplit, hitem, hread, hresults⟩ :=
    results_item h' (fun d hd => absurd hd List.not_mem_nil) hsolid
  rw [List.append_nil] at hitem hread
  -- the item is the symbol alone
  have hsymbol := Item.eq_symbol hitem hsplit (identifierChar_single hc) hplain.1
  rw [symbol, hc] at hsymbol
  obtain ⟨rfl, rfl⟩ := Prod.mk.inj hsymbol
  obtain rfl := List.append_cancel_left (hsplit.trans (List.singleton_append).symm)
  exact ⟨l', hresults, hread⟩

end

/-! ### Names with an `x` -/

/-- A name that begins with `x`, as no keyword does. -/
structure XName (w : List Char) : Prop where
  head : w.head? = some 'x'
  chars : ∀ c ∈ w, identifierChar c = true

/-- No keyword, literal or primitive begins with `x`. -/
theorem words_head :
    (∀ e ∈ keywords, e.1.toList.head? ≠ some 'x') ∧
      (∀ e ∈ literalWords, e.1.toList.head? ≠ some 'x') ∧
      ∀ e ∈ primitiveNames, e.1.toList.head? ≠ some 'x' := by
  decide +kernel

/-- Among words with other first characters, no entry matches. -/
theorem XName.firstMatch {α : Type} {w : List Char} {es : List (String × α)} (h : XName w)
    (hes : ∀ e ∈ es, e.1.toList.head? ≠ some 'x') :
    firstMatch (fun k => k.toList = w) es = none := by
  cases hmatch : Spec.firstMatch (fun k : String => decide (k.toList = w)) es with
  | none => rfl
  | some b =>
      obtain ⟨k, hmem, hk⟩ := firstMatch_mem hmatch
      rw [decide_eq_true_eq] at hk
      exact absurd (hk ▸ h.head) (hes _ hmem)

/-- The lexer reads such a name as an identifier. -/
theorem XName.wordToken {w rest : List Char} (h : XName w) (hw : '\x00' ∉ w)
    (hrest : '\x00' ∉ rest) :
    wordToken (w ++ rest) w.length = (.tokenIdentifier, .identifier ⟨w ++ rest, w.length⟩) := by
  have hne : w ≠ [] := by
    rintro rfl
    cases h.head
  have hread : ¬ Misread w rest := by
    rintro (⟨rfl, -⟩ | ⟨rfl | rfl, -⟩)
    all_goals exact absurd h.head (by decide)
  obtain ⟨hkey, hliteral, hprimitive⟩ := words_head
  rw [wordToken_of_not_misread hw hrest hne hread]
  unfold spelling
  rw [h.firstMatch hkey, h.firstMatch hliteral, h.firstMatch hprimitive]

/-! ### The tokens of the functions -/

/-- `function w()end `. -/
def functionText (w : List Char) : List Char :=
  ['f', 'u', 'n', 'c', 't', 'i', 'o', 'n', ' '] ++ w ++ ['(', ')', 'e', 'n', 'd', ' ']

/-- One function for each name. -/
def functionsText (ws : List (List Char)) : List Char := ws.flatMap functionText

/-- The text does not contain the end of a string, so it is read to its end. -/
theorem nul_not_mem_functionsText {ws : List (List Char)} (hws : ∀ w ∈ ws, XName w) :
    '\x00' ∉ functionsText ws := by
  intro hmem
  obtain ⟨w, hw, hmem⟩ := List.mem_flatMap.mp hmem
  have hchar : '\x00' ∈ w := by simpa [functionText] using hmem
  exact absurd ((hws w hw).chars _ hchar) (by decide)

/-- The source of one function for each name. -/
def functionsSource (ws : List (List Char)) (hws : ∀ w ∈ ws, XName w) : Source :=
  ⟨functionsText ws, nul_not_mem_functionsText hws⟩

/-- The tokens of one function for each name. -/
inductive Functions : List (List Char) → List LexResult → Prop where
  | nil : Functions [] []
  | cons {w : List Char} {ws : List (List Char)} {f i l r e : Token} {rs : List LexResult} :
      f.type = .tokenFunction → i.type = .tokenIdentifier → i.value.toIdentifier.text = w →
      l.type = .tokenLparen → r.type = .tokenRparen → e.type = .tokenEnd → Functions ws rs →
      Functions (w :: ws) (.ok f :: .ok i :: .ok l :: .ok r :: .ok e :: rs)

/-- There is no NUL in the text that a stream has in front of it. -/
theorem Reading.nul_not_mem {l : CharStream} {pre rest : List Char} (h : Reading l pre rest) :
    '\x00' ∉ rest := by
  intro hmem
  refine l.source.property ?_
  rw [h.text]
  exact List.mem_append_right _ hmem

/-- The type of a keyword, whatever follows. -/
theorem wordAt_type {pre w tail : List Char} (hw : '\x00' ∉ w) (htail : '\x00' ∉ tail)
    (hne : w ≠ []) (hread : ¬ Misread w tail) :
    (wordAt pre w tail).type = (spelling w []).1 := by
  show (wordToken (w ++ tail) w.length).1 = _
  rw [wordToken_of_not_misread hw htail hne hread]
  exact spelling_type w tail []

/-- The lexer reads one function behind spaces. -/
theorem results_function {w sp tail : List Char} {l : CharStream} {pre : List Char} (hw : XName w)
    (h : Reading l pre (sp ++ (functionText w ++ tail))) (hsp : ∀ d ∈ sp, isSpace d = true) :
    ∃ (f i p q e : Token) (l' : CharStream) (pre' : List Char),
      streamResults l = .ok f :: .ok i :: .ok p :: .ok q :: .ok e :: streamResults l' ∧
        Reading l' pre' ([' '] ++ tail) ∧ f.type = .tokenFunction ∧ i.type = .tokenIdentifier ∧
        i.value.toIdentifier.text = w ∧ p.type = .tokenLparen ∧ q.type = .tokenRparen ∧
        e.type = .tokenEnd := by
  obtain ⟨v, rfl⟩ : ∃ v, w = 'x' :: v := by
    cases w with
    | nil => cases hw.head
    | cons c v =>
        cases hw.head
        exact ⟨v, rfl⟩
  have hsplit : sp ++ (functionText ('x' :: v) ++ tail) =
      sp ++ ('f' :: ['u', 'n', 'c', 't', 'i', 'o', 'n'] ++ ([' '] ++ ('x' :: v ++
        '(' :: ')' :: ([] ++ ('e' :: ['n', 'd'] ++ ([' '] ++ tail)))))) := by
    simp [functionText]
  rw [hsplit] at h
  obtain ⟨l₁, hf, h₁⟩ := results_word h hsp ⟨rfl, rfl⟩ (List.all_eq_true.mp (by decide))
    fun d hd => by
      cases hd
      rfl
  obtain ⟨l₂, hi, h₂⟩ := results_word h₁ (List.all_eq_true.mp (by decide)) ⟨rfl, rfl⟩ hw.chars
    fun d hd => by
      cases hd
      rfl
  obtain ⟨l₃, hp, h₃⟩ := results_single h₂ rfl
  obtain ⟨l₄, hq, h₄⟩ := results_single h₃ rfl
  obtain ⟨l₅, he, h₅⟩ := results_word h₄ (List.all_eq_true.mp (by decide)) ⟨rfl, rfl⟩
    (List.all_eq_true.mp (by decide)) fun d hd => by
      cases hd
      rfl
  -- the name begins with `x`, and no keyword does
  have hx : '\x00' ∉ 'x' :: v := fun hmem => Reading.nul_not_mem h₁ (List.mem_append_right _
    (List.mem_append_left _ hmem))
  have hname := hw.wordToken hx (Reading.nul_not_mem h₂)
  rw [hf, hi, hp, hq, he]
  refine ⟨_, _, _, _, _, l₅, _, rfl, h₅, ?_, congrArg Prod.fst hname, ?_, rfl, rfl, ?_⟩
  · exact wordAt_type (by decide) (Reading.nul_not_mem h₁) (by decide) (by simp [Misread])
  · show (wordToken _ _).2.toIdentifier.text = _
    rw [hname]
    exact List.take_left
  · exact wordAt_type (by decide) (Reading.nul_not_mem h₅) (by decide) (by simp [Misread])

/-- The lexer reads the functions behind spaces. -/
theorem results_functions {ws : List (List Char)} (hws : ∀ w ∈ ws, XName w) :
    ∀ {l : CharStream} {pre sp : List Char}, Reading l pre (sp ++ functionsText ws) →
      (∀ d ∈ sp, isSpace d = true) → Functions ws (streamResults l) := by
  induction ws with
  | nil =>
      intro l pre sp h hsp
      rw [show functionsText [] = [] from rfl, List.append_nil] at h
      rw [results_nothing h (.of_spaces hsp)]
      exact .nil
  | cons w ws ih =>
      intro l pre sp h hsp
      obtain ⟨hw, hws⟩ := List.forall_mem_cons.mp hws
      rw [functionsText, List.flatMap_cons] at h
      obtain ⟨f, i, p, q, e, l', pre', hresults, h', hf, hi, hname, hp, hq, he⟩ :=
        results_function hw h hsp
      rw [hresults]
      exact .cons hf hi hname hp hq he (ih hws h' (List.all_eq_true.mp (by decide)))

/-! ### Their syntax -/

/-- The syntax of functions with the names `ns`, without parameters and statements. -/
def functionsSyn : List SourceString → Syn
  | [] => .nil
  | n :: ns => .cons (.fundecl n noType false) (.tree .compound .nil) (functionsSyn ns)

/-- Each function has a node of its own and one for its body. -/
theorem size_functionsSyn (ns : List SourceString) : (functionsSyn ns).size = 2 * ns.length := by
  induction ns with
  | nil => rfl
  | cons n ns ih =>
      rw [functionsSyn, Forest.size_cons, Forest.size_tree, Forest.size_nil, ih, List.length_cons]
      omega

/-- The roots are the functions with their names. -/
theorem roots_functionsSyn (ns : List SourceString) :
    (functionsSyn ns).roots = ns.map fun n => .fundecl n noType false := by
  induction ns with
  | nil => rfl
  | cons n ns ih => rw [functionsSyn, Forest.roots_cons, ih, List.map_cons]

/-- One function is a statement. -/
theorem derives_function {f i l r e : Token} {rs : List LexResult} (hf : f.type = .tokenFunction)
    (hi : i.type = .tokenIdentifier) (hl : l.type = .tokenLparen) (hr : r.type = .tokenRparen)
    (he : e.type = .tokenEnd) :
    Derives .stmt (.ok f :: .ok i :: .ok l :: .ok r :: .ok e :: rs)
      (.tree (.fundecl i.value.toIdentifier noType false) (.tree .compound .nil)) rs := by
  have hend : lookahead (.ok e :: rs) = some .tokenEnd := by rw [lookahead, he]
  have hparams : Derives .paramsOpt (.ok r :: .ok e :: rs) .nil (.ok r :: .ok e :: rs) :=
    .paramsNone (by rw [lookahead, hr])
  exact .fundecl hf hi hl hparams hr (.absent hend (by decide)) (.bodyEnd hend (by decide)) he

/-- The grammar derives the functions. -/
theorem Functions.derives {ws : List (List Char)} {rs : List LexResult} (h : Functions ws rs) :
    ∃ ns : List SourceString, ns.map SourceString.text = ws ∧
      Derives (.body moduleStop) rs (functionsSyn ns) [] := by
  induction h with
  | nil => exact ⟨[], rfl, .bodyEnd rfl (by decide)⟩
  | @cons _ _ f i l r e rs hf hi hname hl hr he _ ih =>
      obtain ⟨ns, rfl, hns⟩ := ih
      refine ⟨i.value.toIdentifier :: ns, by rw [List.map_cons, hname], ?_⟩
      have hnext : lookahead (.ok f :: .ok i :: .ok l :: .ok r :: .ok e :: rs) =
          some .tokenFunction := by rw [lookahead, hf]
      exact .bodyStmt hnext (by decide) (derives_function hf hi hl hr he) hns

/-! ### Their nodes -/

/-- A node of the kind of a function is one, and has its name. -/
theorem name_of_kind_fundecl {node : Node} {name : SourceString} {ty : Vartype} {exported : Bool}
    (h : node.kind = .fundecl name ty exported) :
    node.type = .astFundecl ∧ node.value.name = name := by
  refine ⟨Node.type_of_kind h (by simp), ?_⟩
  unfold Node.kind at h
  split at h <;> simp_all [NodeValue.name]

/-- Nodes of the kinds of functions are functions with these names. -/
theorem names_of_kinds {a : Ast} : ∀ {is : List NodeId} {ns : List SourceString},
    is.map (fun i => (a.nodes i).kind) = ns.map (fun n => .fundecl n noType false) →
      (∀ i ∈ is, (a.nodes i).type = .astFundecl) ∧
        is.map (fun i => (a.nodes i).value.name.text) = ns.map SourceString.text
  | [], [], _ => ⟨fun i hi => absurd hi List.not_mem_nil, rfl⟩
  | i :: is, n :: ns, h => by
      rw [List.map_cons, List.map_cons, List.cons.injEq] at h
      obtain ⟨htype, hname⟩ := name_of_kind_fundecl h.1
      obtain ⟨htypes, hnames⟩ := names_of_kinds h.2
      exact ⟨List.forall_mem_cons.mpr ⟨htype, htypes⟩, by
        rw [List.map_cons, List.map_cons, hname, hnames]⟩

/-! ### The parse -/

section
variable {ws : List (List Char)} (hws : ∀ w ∈ ws, XName w) {ast : Ast} {error : ErrorData}
  {uninit : NodeId}

/-- The lexer reads the functions that the text spells. -/
theorem functions_resultsOf : Functions ws (resultsOf (functionsSource ws hws)) := by
  have hread := reading_streamInit (functionsSource ws hws)
  rw [show resultsOf (functionsSource ws hws) = streamResults (streamInit _) from
    lexResults_eq (Nat.lt_succ_self _) (by rw [hread.remaining_eq]; exact Nat.lt_succ_self _) hread]
  exact results_functions hws (show Reading _ [] ([] ++ functionsText ws) from hread)
    fun d hd => absurd hd List.not_mem_nil

/-- `nulang__parse` succeeds on functions for which the nodes are enough. -/
theorem parse_functions (hast : ast.Blank) (hsize : 2 * ws.length < ast.nodeCapacity.toNat) :
    ∃ fuel p, parse fuel (parserStart (functionsSource ws hws) ast error uninit) =
      some (.ok (), p) := by
  have hfunctions := functions_resultsOf hws
  obtain ⟨ns, hns, hbody⟩ := hfunctions.derives
  -- the first token is `function` or the end, so there is no header
  have hheader : ∀ t, lookahead (resultsOf (functionsSource ws hws)) = some t →
      t ∉ headerTokens := by
    intro t ht
    generalize resultsOf (functionsSource ws hws) = rs at hfunctions ht
    cases hfunctions with
    | nil =>
        cases ht
        decide
    | cons hf =>
        rw [lookahead, hf] at ht
        cases ht
        decide
  refine parse_of_derives (at_parserStart _ ast error uninit) ⟨hheader, hbody⟩ ?_
  rw [size_functionsSyn, ← List.length_map (f := SourceString.text), hns, Ast.free, hast.nodeCount]
  omega

/-- After the parse the functions of the tree have the names of the source. -/
theorem names_of_parse {fuel : Nat} {p : Parser Lexer} (hast : ast.Blank)
    (hparse : parse fuel (parserStart (functionsSource ws hws) ast error uninit) =
      some (.ok (), p)) :
    ∃ cs, p.ast.IsModule (.tree 0 cs) ∧
      (functions p.ast cs).map (fun i => (p.ast.nodes i).value.name.text) = ws := by
  obtain ⟨ns, rfl, hbody⟩ := (functions_resultsOf hws).derives
  obtain ⟨ts, hmod, hholds, hbody'⟩ := module_of_parse hast hparse
  obtain ⟨hsyn, -⟩ := hbody'.unique hbody
  refine ⟨ids ts, hmod, ?_⟩
  have hkinds : (ids ts).roots.map (fun i => (p.ast.nodes i).kind) =
      ns.map fun n => .fundecl n noType false := by
    rw [← Forest.roots_map, map_kind_ids hholds.kinds, hsyn, roots_functionsSyn]
  obtain ⟨htypes, hnames⟩ := names_of_kinds hkinds
  have hall : functions p.ast (ids ts) = (ids ts).roots :=
    List.filter_eq_self.mpr fun i hi => decide_eq_true (htypes i hi)
  rw [hall, hnames]

end

end Nucleus.Proofs
