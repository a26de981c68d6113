import Nucleus.Lang.Archetype
import Nucleus.Lib.Links
import Nucleus.Lib.Visit
import Nucleus.Spec.Syntax

/-!
# `Nucleus.Proofs.Walk`: a recursive walk through the arena

A function that acts on a node and then calls itself at every child of the node, with
`nulang__ast_foreach_childs`. When the arena stores a forest and the action keeps its links,
`foreachChild_walk` says that such a walk is the action on the labels of the forest in pre-order.

`nulang__resolve_archetype` is one (`resolveArchetype_eq_walk`).
-/

set_option autoImplicit false

namespace Nucleus.Proofs

open Nucleus.Lib
open Nucleus.Lib.Prog
open Nucleus.Lang
open Nucleus.Vm (TableManager)

variable {σ : Type} {ast : σ → Ast} {act : NodeId → Prog σ Error Unit}

/-- Act on a node, and then walk over its children. -/
def walk (ast : σ → Ast) (act : NodeId → Prog σ Error Unit) :
    Nat → NodeId → NodeId → Prog σ Error Unit
  | 0, _, _ => Prog.diverge
  | n + 1, id, node => do
      act node
      astForeachChilds ast (walk ast act n) n id

/-- One level of the walk. -/
theorem walk_succ (n : Nat) (id node : NodeId) :
    walk ast act (n + 1) id node =
      act node >>= fun _ => astForeachChilds ast (walk ast act n) n id := rfl

/-- The links at which the walk goes on. -/
def linksOf (ast : σ → Ast) (s : σ) : NodeId → Links := (ast s).links

/-- The walk over the children that follow `c`. The induction is on the forest of these children,
for every state with their links. -/
theorem foreachChild_walk (hact : ∀ i, Keeps (linksOf ast) (act i)) {f : Forest Nat} :
    ∀ {N n c parent : Nat} {s : σ}, f.size < N → f.size < n →
    Links.Holds nodeNull (linksOf ast s) parent nodeNull f → (∀ i ∈ f.labels, i ≠ nodeNull) →
    iterChilds (ast s) parent c = f.firstId nodeNull →
    (loop (foreachChild ast (walk ast act N) parent) n c >>= fun _ => pure ()) s =
      visitAll act f.labels s := by
  induction f with
  | nil =>
      intro N n c parent s _ hn _ _ hiter
      obtain ⟨n, rfl⟩ : ∃ m, n = m + 1 := ⟨n - 1, by omega⟩
      have hturn : foreachChild ast (walk ast act N) parent c s =
          some (.ok (.done nodeNull), s) := by
        rw [foreachChild, gets_bind_run, hiter, Forest.firstId_nil, if_pos rfl]
        rfl
      rw [loop_succ, bind_assoc, bind_run_ok hturn]
      rfl
  | cons i cs next ihc ihn =>
      intro N n c parent s hN hn hlinks hnull hiter
      rw [Forest.size_cons] at hN hn
      obtain ⟨N, rfl⟩ : ∃ m, N = m + 1 := ⟨N - 1, by omega⟩
      obtain ⟨n, rfl⟩ : ∃ m, n = m + 1 := ⟨n - 1, by omega⟩
      have hne : i ≠ nodeNull := hnull i (by simp)
      -- the turn at `i`, with the turns behind it
      have hturn : (loop (foreachChild ast (walk ast act (N + 1)) parent) (n + 1) c >>=
          fun _ => pure ()) s = (act i >>= fun _ =>
            (loop (foreachChild ast (walk ast act N) i) N nodeNull >>= fun _ => pure ()) >>=
              fun _ => (loop (foreachChild ast (walk ast act (N + 1)) parent) n i >>=
                fun _ => pure ())) s := by
        rw [loop_succ, foreachChild, bind_assoc, bind_assoc, gets_bind_run, hiter,
          Forest.firstId_cons, if_neg hne, walk_succ]
        simp only [astForeachChilds, bind_assoc]
        rfl
      rw [hturn, Forest.labels_cons, visitAll_cons]
      refine bind_run_congr_right fun _ s₁ hrun => ?_
      have hsame := hact i s _ s₁ hrun
      obtain ⟨hnode, hchildren, -⟩ := Links.holds_cons.mp (hsame ▸ hlinks)
      have hfirst : iterChilds (ast s₁) i nodeNull = cs.firstId nodeNull := by
        rw [iterChilds, if_pos rfl]
        exact congrArg Links.firstChild hnode
      rw [visitAll_append, bind_run_congr_left (ihc (by omega) (by omega) hchildren
        (fun j hj => hnull j (by simp [hj])) hfirst)]
      refine bind_run_congr_right fun _ s₂ hvisit => ?_
      have hsame₂ := (keeps_visitAll hact _ _ _ _ hvisit).trans hsame
      obtain ⟨hnode, -, hnext⟩ := Links.holds_cons.mp (hsame₂ ▸ hlinks)
      have hsibling : iterChilds (ast s₂) parent i = next.firstId nodeNull := by
        rw [iterChilds, if_neg hne]
        exact congrArg Links.nextSibling hnode
      exact ihn (by omega) (by omega) hnext (fun j hj => hnull j (by simp [hj])) hsibling

/-- The walk from the root of a stored tree. -/
theorem walk_tree (hact : ∀ i, Keeps (linksOf ast) (act i))
    {root fuel : Nat} {cs : Forest Nat} {s : σ} (hfuel : cs.size + 1 < fuel)
    (hlinks : Links.Holds nodeNull (linksOf ast s) nodeNull nodeNull (.tree root cs))
    (hnull : ∀ i ∈ cs.labels, i ≠ nodeNull) :
    walk ast act fuel root root s = visitAll act (Forest.tree root cs).labels s := by
  obtain ⟨fuel, rfl⟩ : ∃ m, fuel = m + 1 := ⟨fuel - 1, by omega⟩
  rw [walk_succ, Forest.labels_tree, visitAll_cons]
  refine bind_run_congr_right fun _ s₁ hrun => ?_
  obtain ⟨hnode, hchildren⟩ := Links.holds_tree.mp (hact _ _ _ _ hrun ▸ hlinks)
  have hfirst : iterChilds (ast s₁) root nodeNull = cs.firstId nodeNull := by
    rw [iterChilds, if_pos rfl]
    exact congrArg Links.firstChild hnode
  exact foreachChild_walk hact (by omega) (by omega) hchildren hnull hfirst

/-- The resolution of archetypes is a walk. -/
theorem resolveArchetype_eq_walk (vm : TableManager) (n : Nat) :
    resolveArchetype vm n = walk (·.ast) (resolveNodeArchetype vm) n := by
  induction n with
  | zero => rfl
  | succ n ih =>
      funext id node
      rw [resolveArchetype, ih]
      rfl

end Nucleus.Proofs
