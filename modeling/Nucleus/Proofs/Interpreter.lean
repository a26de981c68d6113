import Nucleus.Spec.Interpreter

/-!
# `Nucleus.Proofs.Interpreter`: runs of the interpreter

A call of `nu__interpreter_exec` takes its operator to the two topmost words (`Reduced.of_exec`,
`exec_some_of_reduce`), and a run is one reduction by the operators of all its instructions
(`Reduced.of_run`, `run_some_of_folded`). So a run is a left fold of the topmost word over the words
below it, as far as it has operators (`interpreterRun_fold`).

Nothing in the source guards the stack: a run with more operators than words below the topmost one
leaves it, and so does every program on a stack that has just been initialised.
-/

set_option autoImplicit false

namespace Nucleus.Proofs

open Nucleus.Lib
open Nucleus.Vm
open Nucleus.Spec

/-! ### The words on the stack -/

section
variable {inte inte' : Interpreter} {k : Nat}

/-- The words of a stack below `n`, the topmost one first. -/
theorem take_succ_words (stack : Vector UInt32 stackSize) (h : k < stackSize) :
    ((stack.toList.take (k + 1)).reverse.map (·.toInt32)) =
      stack[k].toInt32 :: (stack.toList.take k).reverse.map (·.toInt32) := by
  have hget : stack.toList[k]? = some stack[k] := by
    rw [Vector.getElem?_toList]
    exact Vector.getElem?_eq_getElem h
  rw [List.take_add_one, hget]
  simp

/-- The topmost word. -/
theorem wordsOf_succ (h : inte.sp.toNat = k + 1) (hk : k < stackSize) :
    wordsOf inte =
      inte.stack[k].toInt32 :: (inte.stack.toList.take k).reverse.map (·.toInt32) := by
  rw [wordsOf, h, take_succ_words _ hk]

/-- The stack has as many words as its pointer says. -/
theorem length_wordsOf (h : inte.sp.toNat ≤ stackSize) :
    (wordsOf inte).length = inte.sp.toNat := by
  rw [wordsOf, List.length_map, List.length_reverse, List.length_take, Vector.length_toList]
  exact Nat.min_eq_left h

/-- A store behind the words. -/
theorem take_set_words (stack : Vector UInt32 stackSize) (v : UInt32) (h : k < stackSize) :
    (stack.set k v h).toList.take k = stack.toList.take k := by
  rw [Vector.toList_set, List.take_set_of_le (Nat.le_refl k)]

/-! ### One instruction -/

/-- From an empty stack there is nothing to take. -/
theorem pop_zero (h : inte.sp.toNat = 0) : pop inte = none := by
  have hsp : inte.sp = 0 := UInt32.toNat_inj.mp h
  rw [pop, hsp]
  rfl

/-- A pop takes the word below the pointer. -/
theorem pop_succ (h : inte.sp.toNat = k + 1) (hk : k < stackSize) :
    pop inte = some (inte.stack[k].toInt32, { inte with sp := inte.sp - 1 }) ∧
      (inte.sp - 1).toNat = k := by
  have hsub : (inte.sp - 1).toNat = k := by
    have hlt : inte.sp.toNat < 2 ^ 32 := inte.sp.toNat_lt
    rw [UInt32.toNat_sub]
    show (2 ^ 32 - 1 + inte.sp.toNat) % 2 ^ 32 = k
    omega
  rw [pop, hsub]
  exact ⟨by rw [Vector.getElem?_eq_getElem hk]; rfl, rfl⟩

/-- A binary instruction pops two operands and pushes the result. -/
theorem execBinary_eq (op : Int32 → Int32 → Option Int32) (inte : Interpreter) :
    execBinary op inte =
      (pop inte).bind fun p => (pop p.2).bind fun q => (op p.1 q.1).bind (push q.2) := rfl

/-- An operator with less than two words. -/
theorem execBinary_short (op : Int32 → Int32 → Option Int32) (h : inte.sp.toNat < 2) :
    execBinary op inte = none := by
  rw [execBinary_eq]
  rcases Nat.lt_or_ge inte.sp.toNat 1 with hzero | hone
  · rw [pop_zero (Nat.lt_one_iff.mp hzero)]
    rfl
  · obtain ⟨htop, hsub⟩ := pop_succ (k := 0) (show inte.sp.toNat = 0 + 1 by omega) (by decide)
    rw [htop, Option.bind_some, pop_zero hsub]
    rfl

/-- An operator on two words. -/
theorem execBinary_two (op : Int32 → Int32 → Option Int32) (h : inte.sp.toNat = k + 2)
    (hk : k + 1 < stackSize) :
    execBinary op inte = (op inte.stack[k + 1].toInt32 inte.stack[k].toInt32).map fun r =>
      { inte with stack := inte.stack.set k r.toUInt32, sp := inte.sp - 1 } := by
  obtain ⟨htop, hsub⟩ := pop_succ h hk
  have hk' : k < stackSize := by omega
  have hnext : pop { inte with sp := inte.sp - 1 } =
      some (inte.stack[k].toInt32, { inte with sp := inte.sp - 1 - 1 }) := (pop_succ hsub hk').1
  have hsub' : (inte.sp - 1 - 1).toNat = k :=
    (pop_succ
      (show ({ inte with sp := inte.sp - 1 } : Interpreter).sp.toNat = k + 1 from hsub) hk').2
  rw [execBinary_eq, htop, Option.bind_some, hnext, Option.bind_some]
  show (op inte.stack[k + 1].toInt32 inte.stack[k].toInt32).bind _ = _
  have hroom : (inte.sp - 1 - 1).toNat < stackSize := by
    rw [hsub']
    omega
  rw [Option.map_eq_bind]
  refine congrArg _ (funext fun r => ?_)
  -- the result goes where the second word was
  rw [push, dif_pos hroom]
  simp only [hsub', UInt32.sub_add_cancel]
  rfl

/-! ### One call -/

/-- A call: the operator of its instruction, if it has one. -/
theorem interpreterExec_eq (inte : Interpreter) :
    interpreterExec inte = inte.instructions[inte.pc.toNat]?.bind fun instruction =>
      (operatorOf instruction).elim (some { inte with pc := inte.pc + 1 }) fun op =>
        execBinary op { inte with pc := inte.pc + 1 } := by
  rw [interpreterExec, Option.bind_eq_bind]
  refine congrArg _ (funext fun instruction => ?_)
  rw [operatorOf]
  cases getOpcode instruction <;> rfl

/-- The next instruction. -/
theorem upcoming_one {instruction : UInt16}
    (h : inte.instructions[inte.pc.toNat]? = some instruction) :
    upcoming inte 1 = [instruction] := by
  obtain ⟨hlt, rfl⟩ := List.getElem?_eq_some_iff.mp h
  rw [upcoming, List.drop_eq_getElem_cons hlt, List.take_succ_cons, List.take_zero]

/-- The program counter does not wrap within the program. -/
theorem toNat_succ_pc (hpc : inte.pc.toNat + 1 < 2 ^ 32) :
    (inte.pc + 1).toNat = inte.pc.toNat + 1 := by
  rw [UInt32.toNat_add]
  exact Nat.mod_eq_of_lt hpc

/-- An operator on the stack is a reduction of its words. -/
theorem Reduced.of_binary {op : Int32 → Int32 → Option Int32} {instruction : UInt16}
    (hsp : inte.sp.toNat ≤ stackSize) (hpc : inte.pc.toNat + 1 < 2 ^ 32)
    (hinstruction : inte.instructions[inte.pc.toNat]? = some instruction)
    (hop : operatorOf instruction = some op)
    (h : execBinary op { inte with pc := inte.pc + 1 } = some inte') : Reduced 1 inte inte' := by
  rcases Nat.lt_or_ge inte.sp.toNat 2 with hshort | htwo
  · rw [execBinary_short op (show ({ inte with pc := inte.pc + 1 } : Interpreter).sp.toNat < 2
      from hshort)] at h
    cases h
  obtain ⟨k, hk⟩ : ∃ k, inte.sp.toNat = k + 2 := ⟨inte.sp.toNat - 2, by omega⟩
  have hroom : k + 1 < stackSize := by omega
  have hk' : ({ inte with pc := inte.pc + 1 } : Interpreter).sp.toNat = k + 2 := hk
  rw [execBinary_two op hk' hroom] at h
  obtain ⟨r, hr, rfl⟩ := Option.map_eq_some_iff.mp h
  have hsp' : (inte.sp - 1).toNat = k + 1 := (pop_succ hk hroom).2
  have hupcoming := upcoming_one hinstruction
  -- the two words on top are the operands, and the result takes the place of the lower one
  have hwords : wordsOf inte = inte.stack[k + 1].toInt32 :: inte.stack[k].toInt32 ::
      (inte.stack.toList.take k).reverse.map (·.toInt32) := by
    rw [wordsOf_succ hk hroom, take_succ_words _ (by omega)]
  exact {
    words := by
      rw [← reduce_eq_some_iff, hupcoming, List.filterMap_cons_some hop, hwords]
      show (op inte.stack[k + 1].toInt32 inte.stack[k].toInt32).bind _ = _
      have hr' : op inte.stack[k + 1].toInt32 inte.stack[k].toInt32 = some r := hr
      rw [hr', Option.bind_some, wordsOf_succ hsp' (by omega), take_set_words]
      simp [reduce]
    sp := by
      show (inte.sp - 1).toNat ≤ _
      omega
    pc := toNat_succ_pc hpc
    lp := rfl
    locals := rfl
    instructions := rfl
    constants := rfl
    above := by
      intro i hi hle
      show (inte.stack.set k r.toUInt32)[i] = _
      rw [Vector.getElem_set_ne _ hi (by omega)] }

/-- A call is a reduction by the operator of its instruction. -/
theorem Reduced.of_exec (hsp : inte.sp.toNat ≤ stackSize) (hpc : inte.pc.toNat + 1 < 2 ^ 32)
    (h : interpreterExec inte = some inte') : Reduced 1 inte inte' := by
  rw [interpreterExec_eq] at h
  obtain ⟨instruction, hinstruction, h⟩ := Option.bind_eq_some_iff.mp h
  -- any other instruction is passed over
  cases hop : operatorOf instruction with
  | some op =>
      rw [hop] at h
      exact Reduced.of_binary hsp hpc hinstruction hop h
  | none =>
      rw [hop] at h
      cases h
      have hupcoming := upcoming_one hinstruction
      exact {
        words := by
          rw [hupcoming, List.filterMap_cons_none hop]
          exact .done _
        sp := Nat.le_refl _
        pc := toNat_succ_pc hpc
        lp := rfl
        locals := rfl
        instructions := rfl
        constants := rfl
        above := fun _ _ _ => rfl }

/-- A call goes through when there is an instruction and its operator has a value. -/
theorem exec_some_of_reduce (hsp : inte.sp.toNat ≤ stackSize)
    (hlt : inte.pc.toNat < inte.instructions.length)
    (h : (reduce ((upcoming inte 1).filterMap operatorOf) (wordsOf inte)).isSome = true) :
    ∃ inte', interpreterExec inte = some inte' := by
  have hinstruction := List.getElem?_eq_getElem hlt
  rw [interpreterExec_eq, hinstruction, Option.bind_some]
  rw [upcoming_one hinstruction] at h
  cases hop : operatorOf inte.instructions[inte.pc.toNat] with
  | none => exact ⟨_, rfl⟩
  | some op =>
      rw [List.filterMap_cons_some hop] at h
      rcases Nat.lt_or_ge inte.sp.toNat 2 with hshort | htwo
      · -- with fewer than two words the reduction would fail too
        have hlen := length_wordsOf hsp
        rw [reduce_short (List.cons_ne_nil _ _) (by omega)] at h
        cases h
      obtain ⟨k, hk⟩ : ∃ k, inte.sp.toNat = k + 2 := ⟨inte.sp.toNat - 2, by omega⟩
      have hroom : k + 1 < stackSize := by omega
      rw [wordsOf_succ hk hroom, take_succ_words _ (show k < stackSize by omega), reduce_cons] at h
      show ∃ inte', execBinary op { inte with pc := inte.pc + 1 } = some inte'
      have hk' : ({ inte with pc := inte.pc + 1 } : Interpreter).sp.toNat = k + 2 := hk
      rw [execBinary_two op hk' hroom]
      have hvalue : (op inte.stack[k + 1].toInt32 inte.stack[k].toInt32).isSome = true := by
        by_contra hnone
        rw [Option.not_isSome_iff_eq_none.mp hnone] at h
        cases h
      obtain ⟨r, hr⟩ := Option.isSome_iff_exists.mp hvalue
      exact ⟨_, by rw [show op _ _ = some r from hr]; rfl⟩

end

/-! ### Runs -/

section
variable {inte inte' inte'' : Interpreter} {n : Nat}

/-- The instructions of a call and of the calls behind it. -/
theorem upcoming_succ (hpc : inte'.pc.toNat = inte.pc.toNat + 1)
    (hinstructions : inte'.instructions = inte.instructions) :
    upcoming inte (n + 1) = upcoming inte 1 ++ upcoming inte' n := by
  rw [upcoming, upcoming, upcoming, hpc, hinstructions, Nat.add_comm n 1, List.take_add,
    List.drop_drop]

/-- A reduction by one instruction and then by more. -/
theorem Reduced.trans (h : Reduced 1 inte inte') (h' : Reduced n inte' inte'') :
    Reduced (n + 1) inte inte'' where
  words := by
    rw [upcoming_succ h.pc h.instructions, List.filterMap_append, ← reduce_eq_some_iff,
      reduce_append_ops, reduce_eq_some_iff.mpr h.words]
    exact reduce_eq_some_iff.mpr h'.words
  sp := Nat.le_trans h'.sp h.sp
  pc := by
    rw [h'.pc, h.pc]
    omega
  lp := h'.lp.trans h.lp
  locals := h'.locals.trans h.locals
  instructions := h'.instructions.trans h.instructions
  constants := h'.constants.trans h.constants
  above := fun i hi hle =>
    (h'.above i hi (Nat.le_trans h.sp hle)).trans (h.above i hi hle)

/-- A run is a reduction by its instructions. -/
theorem Reduced.of_run (hsp : inte.sp.toNat ≤ stackSize) (hpc : inte.pc.toNat + n < 2 ^ 32)
    (h : interpreterRun n inte = some inte') : Reduced n inte inte' := by
  induction n generalizing inte with
  | zero =>
      cases h
      exact ⟨.done _, Nat.le_refl _, rfl, rfl, rfl, rfl, rfl, fun _ _ _ => rfl⟩
  | succ n ih =>
      obtain ⟨next, hexec, hrun⟩ := Option.bind_eq_some_iff.mp h
      have hstep := Reduced.of_exec hsp (by omega) hexec
      have hsp' : next.sp.toNat ≤ stackSize := Nat.le_trans hstep.sp hsp
      exact Reduced.trans hstep (ih hsp' (by rw [hstep.pc]; omega) hrun)

/-- There are no more instructions ahead than the program has. -/
theorem length_upcoming (inte : Interpreter) (n : Nat) :
    (upcoming inte n).length = min n (inte.instructions.length - inte.pc.toNat) := by
  rw [upcoming, List.length_take, List.length_drop]

/-- A run reads an instruction with each of its calls. -/
theorem length_of_run (hsp : inte.sp.toNat ≤ stackSize) (hpc : inte.pc.toNat + n < 2 ^ 32)
    (h : interpreterRun n inte = some inte') : (upcoming inte n).length = n := by
  induction n generalizing inte with
  | zero => rfl
  | succ n ih =>
      obtain ⟨next, hexec, hrun⟩ := Option.bind_eq_some_iff.mp h
      have hstep := Reduced.of_exec hsp (by omega) hexec
      rw [interpreterExec_eq] at hexec
      obtain ⟨instruction, hinstruction, -⟩ := Option.bind_eq_some_iff.mp hexec
      have hlen := ih (Nat.le_trans hstep.sp hsp) (by rw [hstep.pc]; omega) hrun
      rw [upcoming_succ hstep.pc hstep.instructions, List.length_append, hlen,
        upcoming_one hinstruction, List.length_singleton, Nat.add_comm]

/-- A run goes through when there are instructions and the fold of their operators has a value. -/
theorem run_some_of_folded {ws : List Int32} (hsp : inte.sp.toNat ≤ stackSize)
    (hpc : inte.pc.toNat + n < 2 ^ 32) (hlen : (upcoming inte n).length = n)
    (h : reduce ((upcoming inte n).filterMap operatorOf) (wordsOf inte) = some ws) :
    ∃ inte', interpreterRun n inte = some inte' := by
  induction n generalizing inte with
  | zero => exact ⟨inte, rfl⟩
  | succ n ih =>
      -- the operator of the first instruction has a value, and the others have one from there
      have hfirst : upcoming inte (n + 1) =
          upcoming inte 1 ++ (inte.instructions.drop (inte.pc.toNat + 1)).take n := by
        rw [upcoming, upcoming, Nat.add_comm n 1, List.take_add, List.drop_drop]
      rw [hfirst, List.filterMap_append, reduce_append_ops] at h
      obtain ⟨ws', hws, hrest⟩ := Option.bind_eq_some_iff.mp h
      rw [length_upcoming] at hlen
      obtain ⟨next, hexec⟩ := exec_some_of_reduce hsp (by omega) (by rw [hws]; rfl)
      have hstep := Reduced.of_exec hsp (by omega) hexec
      have hwords : ws' = wordsOf next :=
        Option.some.inj (hws.symm.trans (reduce_eq_some_iff.mpr hstep.words))
      have hnext : upcoming next n = (inte.instructions.drop (inte.pc.toNat + 1)).take n := by
        rw [upcoming, hstep.pc, hstep.instructions]
      obtain ⟨inte', hrun⟩ := ih (Nat.le_trans hstep.sp hsp) (by rw [hstep.pc]; omega)
        (by rw [length_upcoming, hstep.pc, hstep.instructions]; omega)
        (by rw [hnext, ← hwords]; exact hrest)
      exact ⟨inte', by rw [interpreterRun, hexec]; exact hrun⟩

end

/-- A run of the interpreter goes through exactly when there is an instruction for each of its calls
and the topmost word can be folded over the words below it by their operators, and it puts the fold
in the place of the words. -/
theorem interpreterRun_fold {inte : Interpreter} {n : Nat} (hsp : inte.sp.toNat ≤ stackSize)
    (hpc : inte.pc.toNat + n < 2 ^ 32) :
    ((∃ inte', interpreterRun n inte = some inte') ↔
      (upcoming inte n).length = n ∧
        ∃ ws, Folded ((upcoming inte n).filterMap operatorOf) (wordsOf inte) ws) ∧
      ∀ inte', interpreterRun n inte = some inte' → Reduced n inte inte' := by
  refine ⟨⟨?_, ?_⟩, fun inte' => Reduced.of_run hsp hpc⟩
  · rintro ⟨inte', hrun⟩
    exact ⟨length_of_run hsp hpc hrun, _, (Reduced.of_run hsp hpc hrun).words⟩
  · rintro ⟨hlen, ws, hfold⟩
    exact run_some_of_folded hsp hpc hlen (reduce_eq_some_iff.mpr hfold)

/-- `(7 - 2) * 3`, with one word left below. -/
def calculator : Interpreter :=
  { interpreterInit with
    sp := 4
    stack := (((interpreterInit.stack.set 0 9).set 1 3).set 2 2).set 3 7
    instructions := [1, 0x0102, 6] }

/-- The run of `calculator` is a fold that leaves two words. -/
theorem interpreterRun_fold_calculator :
    ∃ inte', interpreterRun 3 calculator = some inte' ∧ Reduced 3 calculator inte' ∧
      wordsOf inte' = [15, 9] := by
  obtain ⟨hiff, hreduced⟩ := interpreterRun_fold (show calculator.sp.toNat ≤ stackSize by decide)
    (show calculator.pc.toNat + 3 < 2 ^ 32 by decide)
  have hwords : reduce ((upcoming calculator 3).filterMap operatorOf) (wordsOf calculator) =
      some [15, 9] := by decide +kernel
  obtain ⟨inte', hrun⟩ := hiff.mpr ⟨by decide, _, reduce_eq_some_iff.mp hwords⟩
  have hred := hreduced inte' hrun
  have hres := (reduce_eq_some_iff.mpr hred.words).symm.trans hwords
  exact ⟨inte', hrun, hred, Option.some.inj hres⟩

end Nucleus.Proofs
