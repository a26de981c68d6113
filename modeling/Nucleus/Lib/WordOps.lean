import Nucleus.Lib.IndexLoop

/-!
# `Nucleus.Lib.WordOps`: 32-bit arithmetic that wraps, and that stops instead

A program over `WordOps` is run with the operations of the machine (`wrapping`) or with operations
that give none where the machine's wrap around (`checked`). A checked run that returns is a run in
which nothing wraps.

`wordLoop` is the loop `for (i = 0; i < n; ++i)` over such operations. With those of the machine it
is `indexLoop` (`wordLoop_wrapping`), and below `2 ^ 32` a checked loop does the same if its turns
do (`wordLoop_checked`).
-/

set_option autoImplicit false

namespace Nucleus.Lib

/-- The operations on 32-bit words that a program uses. -/
structure WordOps where
  add : UInt32 → UInt32 → Option UInt32
  sub : UInt32 → UInt32 → Option UInt32
  mul : UInt32 → UInt32 → Option UInt32
  shl : UInt32 → UInt32 → Option UInt32

/-- The operations of the machine. -/
def wrapping : WordOps where
  add a b := some (a + b)
  sub a b := some (a - b)
  mul a b := some (a * b)
  shl a k := some (a <<< k)

/-- The operations that stop where a result has no room. -/
def checked : WordOps where
  add a b := if a.toNat + b.toNat < 2 ^ 32 then some (a + b) else none
  sub a b := if b.toNat ≤ a.toNat then some (a - b) else none
  mul a b := if a.toNat * b.toNat < 2 ^ 32 then some (a * b) else none
  shl a k := if k.toNat < 32 ∧ a.toNat * 2 ^ k.toNat < 2 ^ 32 then some (a <<< k) else none

section
variable {a b : UInt32}

/-- Wrapping words add. -/
@[simp] theorem wrapping_add : wrapping.add a b = some (a + b) := rfl

/-- Wrapping words subtract. -/
@[simp] theorem wrapping_sub : wrapping.sub a b = some (a - b) := rfl

/-- Wrapping words multiply. -/
@[simp] theorem wrapping_mul : wrapping.mul a b = some (a * b) := rfl

/-- Wrapping words shift. -/
@[simp] theorem wrapping_shl : wrapping.shl a b = some (a <<< b) := rfl

/-- Below `2 ^ 32` a checked sum is the wrapping one. -/
theorem checked_add (h : a.toNat + b.toNat < 2 ^ 32) : checked.add a b = some (a + b) := if_pos h

/-- A checked difference without a borrow is the wrapping one. -/
theorem checked_sub (h : b.toNat ≤ a.toNat) : checked.sub a b = some (a - b) := if_pos h

/-- Below `2 ^ 32` a checked product is the wrapping one. -/
theorem checked_mul (h : a.toNat * b.toNat < 2 ^ 32) : checked.mul a b = some (a * b) := if_pos h

/-- A checked shift that loses no bit is the wrapping one. -/
theorem checked_shl (hk : b.toNat < 32) (h : a.toNat * 2 ^ b.toNat < 2 ^ 32) :
    checked.shl a b = some (a <<< b) := if_pos ⟨hk, h⟩

end

variable {σ ε : Type}

/-- An operation that gives a result goes on with it. -/
@[simp] theorem liftM_some_bind {α β : Type} (a : α) (f : α → ExceptT ε Option β) :
    ((liftM (some a) : ExceptT ε Option α) >>= f) = f a := rfl

/-- The loop from the index `i` and the state `s` on, none if it takes more than `fuel` turns. -/
def wordLoop (ops : WordOps) (body : σ → UInt32 → ExceptT ε Option σ) (n : Nat) :
    Nat → UInt32 → σ → ExceptT ε Option σ
  | 0, _, _ => none
  | fuel + 1, i, s =>
      if i.toNat < n then do
        let s ← body s i
        let i ← ops.add i 1
        wordLoop ops body n fuel i s
      else return s

variable {body : σ → UInt32 → ExceptT ε Option σ} {n : Nat}

/-- With the operations of the machine the index wraps. -/
theorem wordLoop_wrapping {step : σ → Nat → Except ε σ}
    (h : ∀ s (i : UInt32), i.toNat < n → body s i = some (step s i.toNat)) (fuel : Nat) (i : UInt32)
    (s : σ) :
    wordLoop wrapping body n fuel i s = indexLoop step n fuel i s := by
  induction fuel generalizing i s with
  | zero => rfl
  | succ fuel ih =>
      rw [wordLoop, indexLoop]
      split
      · rename_i hi
        rw [h s i hi]
        cases hstep : step s i.toNat with
        | error e => rfl
        | ok s' => exact ih (i + 1) s'
      · rfl

/-- Below `2 ^ 32` a checked loop whose turns do what those of the machine do does what its loop
does. The turns need to agree in the states of an invariant only. -/
theorem wordLoop_checked {body' : σ → UInt32 → ExceptT ε Option σ} {P : Nat → σ → Prop}
    (hn : n < 2 ^ 32)
    (hturn : ∀ s (i : UInt32), i.toNat < n → P i.toNat s → body s i = body' s i)
    (hstep : ∀ s s' (i : UInt32), i.toNat < n → P i.toNat s → body' s i = some (.ok s') →
      P (i.toNat + 1) s') (fuel : Nat) {i : UInt32} {s : σ} (hi : i.toNat ≤ n) (hs : P i.toNat s) :
    wordLoop checked body n fuel i s = wordLoop wrapping body' n fuel i s := by
  induction fuel generalizing i s with
  | zero => rfl
  | succ fuel ih =>
      rw [wordLoop, wordLoop]
      split
      · rename_i hlt
        have hone : (1 : UInt32).toNat = 1 := rfl
        -- the index is below `n`, so it has room for one more
        have hroom : i.toNat + (1 : UInt32).toNat < 2 ^ 32 := by omega
        have hnext : (i + 1).toNat = i.toNat + 1 := by
          rw [UInt32.toNat_add]
          exact Nat.mod_eq_of_lt hroom
        rw [hturn s i hlt hs, checked_add hroom, wrapping_add]
        match hrun : body' s i with
        | none => rfl
        | some (.error e) => rfl
        | some (.ok s') =>
            refine ih ?_ ?_
            · omega
            · rw [hnext]
              exact hstep s s' i hlt hs hrun
      · rfl

end Nucleus.Lib
