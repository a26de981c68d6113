import Nucleus.Lang.Compiler
import Nucleus.Proofs.Twins

/-!
# `Nucleus.Proofs.TwinResolve`: two runs of the passes

The resolution of symbols and of archetypes, on two arenas with the same nodes. Both passes only
change values of nodes, so they keep the arenas alike (`Alike`), and they stop with the same error
and the same span, or neither run has a result.
-/

set_option autoImplicit false

namespace Nucleus.Proofs

open Nucleus.Lib
open Nucleus.Lib.Prog
open Nucleus.Lang
open Nucleus.Vm (TableManager archetypeFind)

variable {L L' : Type} [TokenSource L] [LawfulTokenSource L] [TokenSource L']
  [LawfulTokenSource L'] {P : Pair L L'}

/-! ### Alike arenas -/

/-- Two arenas in order with the same `k` nodes. -/
structure Alike (P : Pair L L') (k : Nat) (a b : Ast) : Prop where
  room : a.Room P.capacity P.memory
  room' : b.Room P.capacity' P.memory'
  twins : a.Twins P.InSource noNode b
  count : b.nodeCount = k

section
variable {k : Nat} {a b : Ast}

/-- The nodes of alike arenas are the same, one by one. -/
theorem Alike.node (h : Alike P k a b) {i : Nat} (hi : i < k) :
    (a.nodes i).Twin P.InSource (b.nodes i) :=
  h.twins.nodes i (h.count ▸ hi) not_false

/-- Alike arenas have a root. -/
theorem Alike.pos (h : Alike P k a b) : 0 < k := h.count ▸ h.room'.pos

/-- A change of one value keeps arenas alike. -/
theorem Alike.revalue (h : Alike P k a b) {i : Nat} (hi : i < k) {f : Node → Node}
    (hf : Revalues f) : Alike P k (a.modifyNode i f) (b.modifyNode i f) where
  room := Room.revalue h.room (by rw [h.twins.count, h.count]; exact hi) hf
  room' := Room.revalue h.room' (by rw [h.count]; exact hi) hf
  twins := Twins.revalue h.twins hf
  count := h.count

/-- The two arenas have the same children everywhere. -/
theorem Alike.iterChilds (h : Alike P k a b) {parent child : Nat} (hp : parent < k)
    (hc : child = nodeNull ∨ child < k) :
    iterChilds a parent child = iterChilds b parent child ∧
      (iterChilds b parent child = nodeNull ∨ iterChilds b parent child < k) := by
  unfold Nucleus.Lang.iterChilds
  split
  · refine ⟨(h.node hp).firstChild, ?_⟩
    have hlink := h.room'.firstChild parent (by rw [h.count]; exact hp)
    unfold Ast.Link at hlink
    rwa [h.count] at hlink
  · rename_i hne
    have hc := hc.resolve_left hne
    refine ⟨(h.node hc).nextSibling, ?_⟩
    have hlink := h.room'.nextSibling child (by rw [h.count]; exact hc)
    unfold Ast.Link at hlink
    rwa [h.count] at hlink

end

/-! ### A pass -/

/-- The state of a pass: the tree, the error data, and when two states have the rest in common. -/
structure Pass (σ : Type) where
  ast : σ → Ast
  error : σ → ErrorData
  Same : σ → σ → Prop

variable {σ : Type} {pass : Pass σ} {k : Nat}

/-- Two states of a pass. -/
structure Pass.Beside (pass : Pass σ) (P : Pair L L') (k : Nat) (s t : σ) : Prop where
  alike : Alike P k (pass.ast s) (pass.ast t)
  same : pass.Same s t

/-- How two runs of a pass stop: with the same span, which is in the source. -/
structure Pass.Failed (pass : Pass σ) (P : Pair L L') (k : Nat) (s t : σ) : Prop where
  alike : Alike P k (pass.ast s) (pass.ast t)
  span : (pass.error s).span = (pass.error t).span
  inSource : P.InSource (pass.error t).span

/-- The two runs of a function of a pass. -/
def Pass.Runs {α : Type} (pass : Pass σ) (P : Pair L L') (k : Nat) (m m' : Prog σ Error α)
    (o : Option σ) (t : σ) (Q : α → Option σ → σ → Prop) : Prop :=
  Shadow .outOfNode (fun _ => False) (fun _ o t => ∃ s, o = some s ∧ pass.Failed P k s t) m m' o t Q

/-- The two states of a pass, when the shadow is at `o`. -/
def Pass.At (pass : Pass σ) (P : Pair L L') (k : Nat) (o : Option σ) (t : σ) : Prop :=
  ∃ s, o = some s ∧ pass.Beside P k s t

/-- The callback of a pass, on the children of `parent`. -/
theorem runs_foreachChilds {callback : NodeId → NodeId → Prog σ Error Unit} {parent : Nat}
    (hp : parent < k)
    (hcallback : ∀ (c : Nat) (o : Option σ) (t : σ), c < k → pass.At P k o t →
      pass.Runs P k (callback c c) (callback c c) o t fun _ => pass.At P k)
    (n : Nat) {o : Option σ} {t : σ} (h : pass.At P k o t) :
    pass.Runs P k (astForeachChilds pass.ast callback n parent)
      (astForeachChilds pass.ast callback n parent) o t fun _ => pass.At P k := by
  refine Shadow.bind (Shadow.mono (Shadow.loop
    (I := fun (c : Nat) o t => pass.At P k o t ∧ (c = nodeNull ∨ c < k))
    (Q := fun _ => pass.At P k) (fun c o t hI => ?_) n nodeNull o t ⟨h, Or.inl rfl⟩)
      fun _ o' t' h' => Shadow.pure h')
  obtain ⟨⟨s, rfl, hbeside⟩, hc⟩ := hI
  obtain ⟨hiter, hlink⟩ := hbeside.alike.iterChilds hp hc
  refine Shadow.bind (Shadow.gets (fun s' hs' => ?_) ?_)
  · cases hs'
    exact hiter
  refine Shadow.ite (fun _ => Shadow.pure ⟨s, rfl, hbeside⟩) fun hne => ?_
  -- a child that is not the null id is an allocated node
  have hlt := hlink.resolve_left hne
  exact Shadow.bind ((hcallback _ _ _ hlt ⟨s, rfl, hbeside⟩).mono fun _ o' t' h' =>
    Shadow.pure ⟨h', Or.inr hlt⟩)

/-- A store that changes nothing but values. -/
theorem runs_store {o : Option σ} {t : σ} {i : Nat} {f : Node → Node} {g : σ → σ}
    (h : pass.At P k o t) (hi : i < k) (hf : Revalues f)
    (hast : ∀ s, pass.ast (g s) = (pass.ast s).modifyNode i f)
    (hsame : ∀ s s', pass.Same s s' → pass.Same (g s) (g s')) :
    pass.Runs P k (Prog.modify g) (Prog.modify g) o t fun _ => pass.At P k := by
  obtain ⟨s, rfl, hbeside⟩ := h
  refine Shadow.modify ⟨g s, rfl, ?_, hsame s t hbeside.same⟩
  rw [hast, hast]
  exact hbeside.alike.revalue hi hf

/-! ### Symbols -/

/-- The resolution of symbols. -/
def symbolPass : Pass SymbolResolver where
  ast := (·.ast)
  error := (·.error)
  Same := fun s t => s.symbols = t.symbols

/-- The resolver after a symbol was looked up in vain. -/
def SymbolResolver.blame (id : NodeId) (r : SymbolResolver) : SymbolResolver :=
  { r with error := { r.error with span := (r.ast.nodes id).span } }

section
variable {o : Option SymbolResolver} {t : SymbolResolver} {id : Nat} {name : SourceString}

/-- The two runs blame the same node. -/
theorem At.blame (h : symbolPass.At P k o t) :
    symbolPass.At P k (o.map (SymbolResolver.blame id)) (SymbolResolver.blame id t) := by
  obtain ⟨s, rfl, hbeside⟩ := h
  exact ⟨_, rfl, hbeside.alike, hbeside.same⟩

/-- The span of a node that a pass blames. -/
theorem At.failed (h : symbolPass.At P k o t) (hid : id < k)
    (hspan : (t.ast.nodes id).type.hasSpan = true) :
    ∃ s, o.map (SymbolResolver.blame id) = some s ∧
      symbolPass.Failed P k s (SymbolResolver.blame id t) := by
  obtain ⟨s, rfl, hbeside⟩ := h
  have htwin := hbeside.alike.node hid
  obtain ⟨heq, hin⟩ := htwin.span (by rw [htwin.type]; exact hspan)
  exact ⟨_, rfl, hbeside.alike, heq, hin⟩

/-- The two runs find the same declaration, or blame the same node. -/
theorem runs_findSymbol (h : symbolPass.At P k o t)
    {Q : NodeId → Option SymbolResolver → SymbolResolver → Prop}
    {T : Error → Option SymbolResolver → SymbolResolver → Prop} (hQ : ∀ ref, Q ref o t)
    (hT : T .unresolvedSymbol (o.map (SymbolResolver.blame id)) (SymbolResolver.blame id t)) :
    Shadow .outOfNode (fun _ => False) T (findSymbol id name) (findSymbol id name) o t Q := by
  obtain ⟨s, rfl, hbeside⟩ := h
  refine Shadow.bind (Shadow.gets (fun s' hs' => ?_) ?_)
  · cases hs'
    exact hbeside.same
  split
  · exact Shadow.pure (hQ _)
  · exact Shadow.bind (Shadow.modify (Shadow.fail hT))

/-- A declaration is pushed on both stacks. -/
theorem runs_pushSymbol (h : symbolPass.At P k o t) :
    symbolPass.Runs P k (pushSymbol name id) (pushSymbol name id) o t
      fun _ => symbolPass.At P k := by
  obtain ⟨s, rfl, hbeside⟩ := h
  have hsymbols : s.symbols = t.symbols := hbeside.same
  refine Shadow.bind (Shadow.gets (fun s' hs' => ?_) ?_)
  · cases hs'
    exact hsymbols
  refine Shadow.ite (fun _ => Shadow.modify ?_) fun _ => Shadow.diverge
  exact ⟨_, rfl, hbeside.alike, congrArg (List.cons (name, id)) hsymbols⟩

/-- A declaration is defined, unless its name is taken. -/
theorem runs_defineSymbol (h : symbolPass.At P k o t) (hid : id < k)
    (hspan : (t.ast.nodes id).type.hasSpan = true) :
    symbolPass.Runs P k (defineSymbol name id) (defineSymbol name id) o t
      fun _ => symbolPass.At P k := by
  refine Shadow.bind (Shadow.attempt (fun _ => not_false) (runs_findSymbol h (fun ref => ?_) ?_))
  · exact Shadow.bind (Shadow.modify (Shadow.fail (At.failed h hid hspan)))
  · exact runs_pushSymbol (At.blame h)

/-- Storing a reference. -/
theorem revalues_setReference (ref : NodeId) : Revalues (setReference ref) := by
  refine ⟨fun n => ?_, fun n => ?_, fun n => ?_, fun n m hnm => ?_⟩
  all_goals unfold setReference
  · split <;> rfl
  · split <;> rfl
  · split <;> rfl
  · rw [hnm]
    split
    · rfl
    · exact hnm

/-- Both runs read the node `id`. -/
theorem runs_node {α : Type} (h : symbolPass.At P k o t) (hid : id < k) {m : Node → SymbolM α}
    {Q : α → Option SymbolResolver → SymbolResolver → Prop}
    (hm : ∀ n, n.type = (t.ast.nodes id).type →
      ((t.ast.nodes id).type.hasValue = true → n.value = (t.ast.nodes id).value) →
      symbolPass.Runs P k (m n) (m (t.ast.nodes id)) o t Q) :
    symbolPass.Runs P k (Prog.gets (fun r => r.ast.nodes id) >>= m)
      (Prog.gets (fun r => r.ast.nodes id) >>= m) o t Q := by
  obtain ⟨s, rfl, hbeside⟩ := h
  have htwin := hbeside.alike.node hid
  refine Shadow.reads fun n hn _ => hm n ?_ fun hv => ?_
  · rw [hn s rfl]
    exact htwin.type
  · rw [hn s rfl]
    exact htwin.value (by rw [htwin.type]; exact hv)

/-- What is done at one node. -/
theorem runs_resolveNode (h : symbolPass.At P k o t) (hid : id < k) :
    symbolPass.Runs P k (resolveNode id id) (resolveNode id id) o t fun _ => symbolPass.At P k := by
  refine runs_node h hid fun n htype hvalue => ?_
  rw [htype]
  split
  · rename_i ht
    rw [hvalue (by rw [ht]; rfl)]
    exact runs_defineSymbol h hid (by rw [ht]; rfl)
  · rename_i ht
    rw [hvalue (by rw [ht]; rfl)]
    exact runs_defineSymbol h hid (by rw [ht]; rfl)
  · rename_i ht
    -- a symbol reference: both runs look for the same name
    obtain ⟨s, rfl, hbeside⟩ := h
    have htwin := hbeside.alike.node hid
    refine Shadow.bind (Shadow.gets (fun s' hs' => ?_) ?_)
    · cases hs'
      exact congrArg NodeValue.name (htwin.value (by rw [htwin.type]; exact ht ▸ rfl))
    have hat : symbolPass.At P k (some s) t := ⟨s, rfl, hbeside⟩
    refine Shadow.bind (runs_findSymbol hat (fun ref => ?_) (At.failed hat hid (by rw [ht]; rfl)))
    exact runs_store (g := fun r => { r with ast := r.ast.modifyNode id (setReference ref) })
      hat hid (revalues_setReference ref) (fun _ => rfl) fun _ _ h => h
  · exact Shadow.pure h

/-- The end of a scope. -/
theorem runs_closeScope {size : Nat} (h : symbolPass.At P k o t) (hid : id < k) :
    symbolPass.Runs P k (closeScope id size) (closeScope id size) o t
      fun _ => symbolPass.At P k := by
  have hclose : symbolPass.Runs P k
      (Prog.modify fun r => { r with symbols := r.symbols.drop (r.symbols.length - size) })
      (Prog.modify fun r => { r with symbols := r.symbols.drop (r.symbols.length - size) }) o t
      fun _ => symbolPass.At P k := by
    obtain ⟨s, rfl, hbeside⟩ := h
    have hsymbols : s.symbols = t.symbols := hbeside.same
    refine Shadow.modify ⟨_, rfl, hbeside.alike, ?_⟩
    show s.symbols.drop (s.symbols.length - size) = t.symbols.drop (t.symbols.length - size)
    rw [hsymbols]
  refine runs_node h hid fun n htype _ => ?_
  rw [htype]
  split
  · exact hclose
  · exact hclose
  · exact Shadow.pure h

end

/-- The walk over the tree. The induction is on the fuel. -/
theorem runs_resolveSymbolsScoped : ∀ (n id : Nat) {o : Option SymbolResolver}
    {t : SymbolResolver}, id < k → symbolPass.At P k o t →
    symbolPass.Runs P k (resolveSymbolsScoped n id id) (resolveSymbolsScoped n id id) o t
      fun _ => symbolPass.At P k := by
  intro n
  induction n with
  | zero => exact fun _ _ _ _ _ => Shadow.diverge
  | succ n ih =>
      intro id o t hid h
      refine Shadow.bind (Shadow.gets (fun s hs => ?_) ?_)
      · obtain ⟨s', hs', hbeside⟩ := h
        cases hs.symm.trans hs'
        exact congrArg List.length hbeside.same
      refine Shadow.bind ((runs_resolveNode h hid).mono fun _ o₁ t₁ h₁ => ?_)
      refine Shadow.bind ((runs_foreachChilds hid (fun c _ _ hc h' => ih c hc h') n h₁).mono
        fun _ o₂ t₂ h₂ => ?_)
      exact runs_closeScope h₂ hid

/-- One turn of the walk over the functions at the top level. -/
theorem runs_resolveFundecl {child : Nat} {o : Option SymbolResolver} {t : SymbolResolver}
    (h : symbolPass.At P k o t) (hc : child = nodeNull ∨ child < k) :
    symbolPass.Runs P k (resolveFundecl child) (resolveFundecl child) o t fun
      | .done _, o, t => symbolPass.At P k o t
      | .yield c, o, t => symbolPass.At P k o t ∧ ((c : Nat) = nodeNull ∨ (c : Nat) < k) := by
  have hat := h
  obtain ⟨s, rfl, hbeside⟩ := h
  have hroot : s.ast.root = 0 := hbeside.alike.room.root
  have hroot' : t.ast.root = 0 := hbeside.alike.room'.root
  obtain ⟨hiter, hlink⟩ := hbeside.alike.iterChilds hbeside.alike.pos hc
  refine Shadow.bind (Shadow.gets (fun s' hs' => ?_) ?_)
  · cases hs'
    rw [hroot, hroot']
    exact hiter
  rw [hroot']
  refine Shadow.ite (fun _ => Shadow.pure hat) fun hne => ?_
  -- only functions are defined here, and any other child is passed over
  have hlt := hlink.resolve_left hne
  refine runs_node hat hlt fun n htype hvalue => ?_
  rw [htype]
  dsimp only
  refine Shadow.ite (fun ht => ?_) fun _ => Shadow.pure ⟨hat, Or.inr hlt⟩
  rw [hvalue (by rw [ht]; rfl)]
  exact Shadow.bind ((runs_defineSymbol hat hlt (by rw [ht]; rfl)).mono fun _ o' t' h' =>
    Shadow.pure ⟨h', Or.inr hlt⟩)

/-- `nulang__resolve_symbols`. -/
theorem runs_resolveSymbols (fuel : Nat) {o : Option SymbolResolver} {t : SymbolResolver}
    (h : symbolPass.At P k o t) :
    symbolPass.Runs P k (resolveSymbols fuel) (resolveSymbols fuel) o t
      fun _ => symbolPass.At P k := by
  refine Shadow.bind (Shadow.mono (Shadow.loop
    (I := fun (c : Nat) o t => symbolPass.At P k o t ∧ (c = nodeNull ∨ c < k))
    (Q := fun _ => symbolPass.At P k) (fun c o t hI => ?_) fuel nodeNull o t ⟨h, Or.inl rfl⟩)
      fun _ o₁ t₁ h₁ => ?_)
  · exact (runs_resolveFundecl hI.1 hI.2).mono fun r _ _ hr => by cases r <;> exact hr
  · obtain ⟨s, rfl, hbeside⟩ := h₁
    refine Shadow.bind (Shadow.gets (fun s' hs' => ?_) ?_)
    · cases hs'
      exact hbeside.alike.room.root.trans hbeside.alike.room'.root.symm
    rw [show t₁.ast.root = 0 from hbeside.alike.room'.root]
    exact runs_resolveSymbolsScoped fuel 0 hbeside.alike.pos ⟨s, rfl, hbeside⟩

/-! ### Archetypes -/

/-- The resolution of archetypes. -/
def archetypePass : Pass ArchetypeResolver where
  ast := (·.ast)
  error := (·.error)
  Same := fun _ _ => True

/-- Storing an archetype. -/
theorem revalues_setArchetype (archetype : Archetype) : Revalues (setArchetype archetype) := by
  refine ⟨fun n => ?_, fun n => ?_, fun n => ?_, fun n m hnm => ?_⟩
  all_goals unfold setArchetype
  · split <;> rfl
  · split <;> rfl
  · split <;> rfl
  · rw [hnm]
    split
    all_goals first | rfl | exact hnm

section
variable {vm : TableManager} {o : Option ArchetypeResolver} {t : ArchetypeResolver}

/-- The two runs find the same handle, or blame the same node. -/
theorem runs_findArchetype {node : Nat} {name : SourceString} {span : Span}
    (h : archetypePass.At P k o t) (hnode : node < k) (hspan : P.InSource span) :
    archetypePass.Runs P k (findArchetype vm node name span) (findArchetype vm node name span) o t
      fun _ => archetypePass.At P k := by
  unfold findArchetype
  split
  · exact Shadow.diverge
  · rename_i archetype _
    have hstore := runs_store (P := P) (k := k) (g := fun r : ArchetypeResolver =>
      { r with ast := r.ast.modifyNode node (setArchetype archetype) }) h hnode
      (revalues_setArchetype archetype) (fun _ => rfl) fun _ _ _ => trivial
    refine Shadow.bind (hstore.mono fun _ o₁ t₁ h₁ => ?_)
    refine Shadow.ite (fun _ => ?_) fun _ => Shadow.pure h₁
    obtain ⟨s, rfl, hbeside⟩ := h₁
    exact Shadow.bind (Shadow.modify (Shadow.fail ⟨_, rfl, hbeside.alike, rfl, hspan⟩))

/-- The archetype of a type. -/
theorem runs_resolveVartype {node : Nat} {span : Span} {type : Vartype}
    (h : archetypePass.At P k o t) (hnode : node < k) (hspan : P.InSource span) :
    archetypePass.Runs P k (resolveVartype vm node span type) (resolveVartype vm node span type) o t
      fun _ => archetypePass.At P k :=
  Shadow.ite (fun _ => runs_findArchetype h hnode hspan) fun _ => Shadow.pure h

/-- The archetype of a node. -/
theorem runs_resolveNodeArchetype {node : Nat} (h : archetypePass.At P k o t) (hnode : node < k) :
    archetypePass.Runs P k (resolveNodeArchetype vm node) (resolveNodeArchetype vm node) o t
      fun _ => archetypePass.At P k := by
  have hat := h
  obtain ⟨s, rfl, hbeside⟩ := h
  have htwin := hbeside.alike.node hnode
  refine Shadow.reads fun n hn _ => ?_
  obtain rfl := hn s rfl
  -- the nodes that the pass looks at have a value and a span
  have hsame : (t.ast.nodes node).type.hasValue = true ∧ (t.ast.nodes node).type.hasSpan = true →
      (s.ast.nodes node).value = (t.ast.nodes node).value ∧
        (s.ast.nodes node).span = (t.ast.nodes node).span ∧ P.InSource (t.ast.nodes node).span := by
    intro ⟨hv, hs⟩
    obtain ⟨hspan, hin⟩ := htwin.span (by rw [htwin.type]; exact hs)
    exact ⟨htwin.value (by rw [htwin.type]; exact hv), hspan, hin⟩
  have htype : (s.ast.nodes node).type = (t.ast.nodes node).type := htwin.type
  rw [htype]
  split
  all_goals try
    rename_i ht
    obtain ⟨hvalue, hspan, hin⟩ := hsame ⟨by rw [ht]; rfl, by rw [ht]; rfl⟩
    rw [hvalue, hspan]
  · exact runs_resolveVartype hat hnode hin
  · exact runs_resolveVartype hat hnode hin
  · exact runs_resolveVartype hat hnode hin
  · exact runs_findArchetype hat hnode hin
  · exact runs_findArchetype hat hnode hin
  · exact Shadow.pure hat

end

/-- The walk over the tree. The induction is on the fuel. -/
theorem runs_resolveArchetype (vm : TableManager) : ∀ (n id : Nat) {o : Option ArchetypeResolver}
    {t : ArchetypeResolver}, id < k → archetypePass.At P k o t →
    archetypePass.Runs P k (resolveArchetype vm n id id) (resolveArchetype vm n id id) o t
      fun _ => archetypePass.At P k := by
  intro n
  induction n with
  | zero => exact fun _ _ _ _ _ => Shadow.diverge
  | succ n ih =>
      intro id o t hid h
      refine Shadow.bind ((runs_resolveNodeArchetype h hid).mono fun _ o₁ t₁ h₁ => ?_)
      exact runs_foreachChilds hid (fun c _ _ hc h' => ih c hc h') n h₁

/-- `nulang__resolve_archetypes`. -/
theorem runs_resolveArchetypes (vm : TableManager) (fuel : Nat) {o : Option ArchetypeResolver}
    {t : ArchetypeResolver} (h : archetypePass.At P k o t) :
    archetypePass.Runs P k (resolveArchetypes vm fuel) (resolveArchetypes vm fuel) o t
      fun _ => archetypePass.At P k := by
  obtain ⟨s, rfl, hbeside⟩ := h
  refine Shadow.bind (Shadow.gets (fun s' hs' => ?_) ?_)
  · cases hs'
    exact hbeside.alike.room.root.trans hbeside.alike.room'.root.symm
  rw [show t.ast.root = 0 from hbeside.alike.room'.root]
  exact runs_resolveArchetype vm fuel 0 hbeside.alike.pos ⟨s, rfl, hbeside⟩

end Nucleus.Proofs
