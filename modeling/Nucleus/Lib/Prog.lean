import Mathlib.Logic.Basic

/-!
# `Nucleus.Lib.Prog`: programs with a state, errors and fuel

`Prog σ ε α` is a C-like procedure: it reads and writes a state `σ`, returns an `α` or
stops with an error code `ε`, and keeps the state it reached in both cases. A result
`none` is a run that has not ended within its fuel. So a procedure returns when some fuel
gives it a result, and it runs for ever when no fuel does.

Three predicates state what a run does, each with one rule a combinator:

* `Spec m s Q`: if the run succeeds, then in `Q`.
* `Returns m s Q`: the run succeeds, and in `Q`.
* `Decides P m s Q`: the run ends; it succeeds exactly when `P` holds, and then in `Q`.

`Le` is the order in which more fuel gives more results, and every combinator is monotone
in it (`le_bind`, `le_ite`, `le_loop`).
-/

set_option autoImplicit false

namespace Nucleus.Lib

/-- A procedure on the state `σ` with results in `α` and errors in `ε`. -/
def Prog (σ ε α : Type) : Type := σ → Option (Except ε α × σ)

namespace Prog

variable {σ ε α β γ : Type}

instance : Monad (Prog σ ε) where
  pure a := fun s => some (.ok a, s)
  bind m f := fun s =>
    match m s with
    | none => none
    | some (.error e, s') => some (.error e, s')
    | some (.ok a, s') => f a s'

/-- The run that never ends. -/
def diverge : Prog σ ε α := fun _ => none

/-- Stop with the error `e`. -/
def fail (e : ε) : Prog σ ε α := fun _s => some (.error e, _s)

/-- Read a part of the state. -/
def gets (f : σ → α) : Prog σ ε α := fun s => some (.ok (f s), s)

/-- Change the state. -/
def modify (f : σ → σ) : Prog σ ε Unit := fun s => some (.ok (), f s)

/-- Run `m` and drop its result and its error code. The state `m` reached stays. -/
def ignoreError (m : Prog σ ε α) : Prog σ ε Unit := fun s =>
  match m s with
  | none => none
  | some (_, s') => some (.ok (), s')

/-- Run `m` and return its error code as a value. -/
def attempt (m : Prog σ ε α) : Prog σ ε (Except ε α) := fun s =>
  match m s with
  | none => none
  | some (r, s') => some (.ok r, s')

/-- `for (;;)` over the locals `b`: a turn either goes on with new locals (`yield`) or
leaves the loop (`done`). Each turn takes one unit of fuel. -/
def loop (body : β → Prog σ ε (ForInStep β)) : Nat → β → Prog σ ε β
  | 0, _ => diverge
  | n + 1, b => body b >>= fun
      | .done b' => pure b'
      | .yield b' => loop body n b'

/-! ### Runs of the combinators -/

@[simp] theorem pure_run (a : α) (s : σ) : (pure a : Prog σ ε α) s = some (.ok a, s) := rfl

@[simp] theorem diverge_run (s : σ) : (diverge : Prog σ ε α) s = none := rfl

@[simp] theorem fail_run (e : ε) (s : σ) : (fail e : Prog σ ε α) s = some (.error e, s) := rfl

@[simp] theorem gets_run (f : σ → α) (s : σ) :
    (gets f : Prog σ ε α) s = some (.ok (f s), s) := rfl

@[simp] theorem modify_run (f : σ → σ) (s : σ) :
    (modify f : Prog σ ε Unit) s = some (.ok (), f s) := rfl

/-- A sequence does not get behind a part that never ends. -/
theorem bind_run_none {m : Prog σ ε α} {f : α → Prog σ ε β} {s : σ} (h : m s = none) :
    (m >>= f) s = none := by
  show (match m s with | none => none | some (.error e, s') => _ | some (.ok a, s') => _) = _
  rw [h]

/-- A sequence stops at the first error. -/
theorem bind_run_error {m : Prog σ ε α} {f : α → Prog σ ε β} {s s' : σ} {e : ε}
    (h : m s = some (.error e, s')) : (m >>= f) s = some (.error e, s') := by
  show (match m s with | none => none | some (.error e, s') => _ | some (.ok a, s') => _) = _
  rw [h]

/-- A sequence goes on with the value and in the state that its first part reached. -/
theorem bind_run_ok {m : Prog σ ε α} {f : α → Prog σ ε β} {s s' : σ} {a : α}
    (h : m s = some (.ok a, s')) : (m >>= f) s = f a s' := by
  show (match m s with | none => none | some (.error e, s') => _ | some (.ok a, s') => _) = _
  rw [h]

/-- A sequence behind a read. -/
@[simp] theorem gets_bind_run (g : σ → α) (f : α → Prog σ ε β) (s : σ) :
    (gets g >>= f) s = f (g s) s := rfl

/-- A sequence behind a change. -/
@[simp] theorem modify_bind_run (g : σ → σ) (f : Unit → Prog σ ε β) (s : σ) :
    (modify g >>= f) s = f () (g s) := rfl

/-- Nothing runs behind an error. -/
@[simp] theorem fail_bind_run (e : ε) (f : α → Prog σ ε β) (s : σ) :
    (fail e >>= f) s = some (.error e, s) := rfl

/-- Sequences may be bracketed in either way. The three cases of the first part are those of `>>=`.
-/
theorem bind_assoc (m : Prog σ ε α) (f : α → Prog σ ε β) (g : β → Prog σ ε γ) :
    m >>= f >>= g = m >>= fun a => f a >>= g := by
  funext s
  rcases hm : m s with _ | ⟨_ | a, s₁⟩
  · rw [bind_run_none (bind_run_none hm), bind_run_none hm]
  · rw [bind_run_error (bind_run_error hm), bind_run_error hm]
  · rw [bind_run_ok (m := m) hm]
    rcases hf : f a s₁ with _ | ⟨_ | b, s₂⟩
    · rw [bind_run_none (by rw [bind_run_ok hm, hf]), bind_run_none hf]
    · rw [bind_run_error (by rw [bind_run_ok hm, hf]), bind_run_error hf]
    · rw [bind_run_ok (by rw [bind_run_ok hm, hf]), bind_run_ok hf]

/-- A sequence returns exactly when its first part returns and its second part returns from
there. -/
theorem bind_eq_ok {m : Prog σ ε α} {f : α → Prog σ ε β} {s s' : σ} {b : β} :
    (m >>= f) s = some (.ok b, s') ↔
      ∃ a s₁, m s = some (.ok a, s₁) ∧ f a s₁ = some (.ok b, s') := by
  constructor
  · intro h
    rcases hm : m s with _ | ⟨_ | a, s₁⟩
    · rw [bind_run_none hm] at h; cases h
    · rw [bind_run_error hm] at h; cases h
    · rw [bind_run_ok hm] at h
      exact ⟨a, s₁, rfl, h⟩
  · rintro ⟨a, s₁, hm, hf⟩
    rw [bind_run_ok hm, hf]

/-- A sequence has no result exactly when one of its parts has none. -/
theorem bind_eq_none {m : Prog σ ε α} {f : α → Prog σ ε β} {s : σ} :
    (m >>= f) s = none ↔
      m s = none ∨ ∃ a s₁, m s = some (.ok a, s₁) ∧ f a s₁ = none := by
  rcases hm : m s with _ | ⟨_ | a, s₁⟩
  · simp [bind_run_none hm]
  · simp [bind_run_error hm]
  · rw [bind_run_ok hm]
    constructor
    · intro h
      exact Or.inr ⟨a, s₁, rfl, h⟩
    · rintro (h | ⟨a', s', h, hf⟩)
      · cases h
      · cases h
        exact hf

/-- A run whose error is dropped succeeds when it ends. -/
theorem ignoreError_eq_ok {m : Prog σ ε α} {s s' : σ} {u : Unit} :
    ignoreError m s = some (.ok u, s') ↔ ∃ r, m s = some (r, s') := by
  unfold ignoreError
  rcases m s with _ | ⟨r, s₁⟩ <;> simp

/-- An attempt ends like its run, and its value says how. -/
theorem attempt_run (m : Prog σ ε α) (s : σ) :
    attempt m s = (m s).map fun r => (.ok r.1, r.2) := by
  unfold attempt
  rcases m s with _ | ⟨r, s'⟩ <;> rfl

/-- The run of `m` from `s` succeeds. -/
def succeeds (m : Prog σ ε α) (s : σ) : Bool :=
  match m s with
  | some (.ok _, _) => true
  | _ => false

/-- The test says that there is a value. -/
theorem succeeds_eq_true {m : Prog σ ε α} {s : σ} :
    succeeds m s = true ↔ ∃ a s', m s = some (.ok a, s') := by
  unfold succeeds
  rcases m s with _ | ⟨_ | a, s'⟩ <;> simp

/-! ### Loops -/

/-- A turn of a loop. -/
theorem loop_succ (body : β → Prog σ ε (ForInStep β)) (n : Nat) (b : β) :
    loop body (n + 1) b = body b >>= fun
      | .done b' => pure b'
      | .yield b' => loop body n b' := rfl

/-- A loop that finds itself at the same locals and the same state again has no result,
whatever its fuel. -/
theorem loop_eq_none_of_stuck {body : β → Prog σ ε (ForInStep β)} {I : β → σ → Prop}
    (hbody : ∀ b s, I b s →
      body b s = none ∨ ∃ b' s', body b s = some (.ok (.yield b'), s') ∧ I b' s') :
    ∀ n b s, I b s → loop body n b s = none := by
  intro n
  induction n with
  | zero => intro b s _; rfl
  | succ n ih =>
      intro b s hI
      rw [loop_succ, bind_eq_none]
      rcases hbody b s hI with h | ⟨b', s', h, hI'⟩
      · exact Or.inl h
      · exact Or.inr ⟨_, s', h, ih b' s' hI'⟩

/-! ### What a run that succeeds establishes -/

/-- If the run of `m` from `s` succeeds, then with a result and a state in `Q`. -/
def Spec (m : Prog σ ε α) (s : σ) (Q : α → σ → Prop) : Prop :=
  ∀ a s', m s = some (.ok a, s') → Q a s'

/-- The postcondition may be weakened. -/
theorem Spec.mono {m : Prog σ ε α} {s : σ} {Q Q' : α → σ → Prop} (h : Spec m s Q)
    (hQ : ∀ a s', Q a s' → Q' a s') : Spec m s Q' :=
  fun a s' hm => hQ a s' (h a s' hm)

/-- A sequence, from its first part: the postcondition of that one is about the rest. -/
theorem Spec.bind {m : Prog σ ε α} {f : α → Prog σ ε β} {s : σ} {Q : β → σ → Prop}
    (h : Spec m s fun a s' => Spec (f a) s' Q) : Spec (m >>= f) s Q := by
  intro b s' hmf
  obtain ⟨a, s₁, hm, hf⟩ := bind_eq_ok.mp hmf
  exact h a s₁ hm b s' hf

/-- The result of a run that succeeds. -/
theorem Spec.of_ok {m : Prog σ ε α} {a : α} {s s' : σ} {Q : α → σ → Prop}
    (hm : m s = some (.ok a, s')) (h : Q a s') : Spec m s Q := by
  intro b s'' hb
  rw [hm] at hb
  cases hb
  exact h

/-- A run that fails establishes everything. -/
theorem Spec.of_error {m : Prog σ ε α} {e : ε} {s s' : σ} {Q : α → σ → Prop}
    (hm : m s = some (.error e, s')) : Spec m s Q := by
  intro b s'' hb
  rw [hm] at hb
  cases hb

/-- A run that gives no result establishes everything. -/
theorem Spec.of_none {m : Prog σ ε α} {s : σ} {Q : α → σ → Prop} (hm : m s = none) :
    Spec m s Q := by
  intro b s'' hb
  rw [hm] at hb
  cases hb

/-- Returning a value. -/
theorem Spec.pure {a : α} {s : σ} {Q : α → σ → Prop} (h : Q a s) :
    Spec (pure a : Prog σ ε α) s Q := Spec.of_ok rfl h

/-- A function of the value. -/
theorem Spec.map {m : Prog σ ε α} {f : α → β} {s : σ} {Q : β → σ → Prop}
    (h : Spec m s fun a s' => Q (f a) s') : Spec (f <$> m) s Q :=
  Spec.bind (h.mono fun _ _ hQ => Spec.pure hQ)

/-- Reading the state. -/
theorem Spec.gets {f : σ → α} {s : σ} {Q : α → σ → Prop} (h : Q (f s) s) :
    Spec (gets f : Prog σ ε α) s Q := Spec.of_ok rfl h

/-- Changing the state. -/
theorem Spec.modify {f : σ → σ} {s : σ} {Q : Unit → σ → Prop} (h : Q () (f s)) :
    Spec (modify f : Prog σ ε Unit) s Q := Spec.of_ok rfl h

/-- Nothing is asked of an error. -/
theorem Spec.fail {e : ε} {s : σ} {Q : α → σ → Prop} : Spec (fail e : Prog σ ε α) s Q :=
  Spec.of_error rfl

/-- Nothing is asked of a run without an end. -/
theorem Spec.diverge {s : σ} {Q : α → σ → Prop} : Spec (diverge : Prog σ ε α) s Q :=
  Spec.of_none rfl

/-! ### Total correctness -/

/-- The run of `m` from `s` succeeds, with a result and a state in `Q`. -/
def Returns (m : Prog σ ε α) (s : σ) (Q : α → σ → Prop) : Prop :=
  ∃ a s', m s = some (.ok a, s') ∧ Q a s'

/-- A sequence returns when its parts do. -/
theorem Returns.bind {m : Prog σ ε α} {f : α → Prog σ ε β} {s : σ} {Q : β → σ → Prop}
    (h : Returns m s fun a s' => Returns (f a) s' Q) : Returns (m >>= f) s Q := by
  obtain ⟨a, s₁, hm, b, s', hf, hq⟩ := h
  exact ⟨b, s', bind_eq_ok.mpr ⟨a, s₁, hm, hf⟩, hq⟩

/-- Returning a value. -/
theorem Returns.pure {a : α} {s : σ} {Q : α → σ → Prop} (h : Q a s) :
    Returns (pure a : Prog σ ε α) s Q := ⟨a, s, rfl, h⟩

/-- Reading the state. -/
theorem Returns.gets {f : σ → α} {s : σ} {Q : α → σ → Prop} (h : Q (f s) s) :
    Returns (gets f : Prog σ ε α) s Q := ⟨f s, s, rfl, h⟩

/-- Changing the state. -/
theorem Returns.modify {f : σ → σ} {s : σ} {Q : Unit → σ → Prop} (h : Q () (f s)) :
    Returns (modify f : Prog σ ε Unit) s Q := ⟨(), f s, rfl, h⟩

/-! ### Runs that decide a proposition -/

/-- The run of `m` from `s` ends. When `P` holds it succeeds, with a result and a state in `Q`, and
otherwise it stops with an error. -/
inductive Decides (P : Prop) (m : Prog σ ε α) (s : σ) (Q : α → σ → Prop) : Prop where
  | ok {a : α} {s' : σ} : m s = some (.ok a, s') → P → Q a s' → Decides P m s Q
  | error {e : ε} {s' : σ} : m s = some (.error e, s') → ¬ P → Decides P m s Q

/-- The postcondition may be weakened where the proposition holds. -/
theorem Decides.mono {P : Prop} {m : Prog σ ε α} {s : σ} {Q Q' : α → σ → Prop}
    (h : Decides P m s Q) (hQ : P → ∀ a s', Q a s' → Q' a s') : Decides P m s Q' := by
  cases h with
  | ok hm hP hq => exact .ok hm hP (hQ hP _ _ hq)
  | error hm hP => exact .error hm hP

/-- The proposition may be replaced by an equivalent one. -/
theorem Decides.iff {P P' : Prop} {m : Prog σ ε α} {s : σ} {Q : α → σ → Prop}
    (h : Decides P m s Q) (hP : P ↔ P') : Decides P' m s Q := propext hP ▸ h

/-- The first part of a sequence decides, and the second one returns. -/
theorem Decides.before {P : Prop} {m : Prog σ ε α} {f : α → Prog σ ε β} {s : σ}
    {Q : β → σ → Prop} (h : Decides P m s fun a s' => Returns (f a) s' Q) :
    Decides P (m >>= f) s Q := by
  cases h with
  | ok hm hP hf =>
      obtain ⟨b, s', hf, hq⟩ := hf
      exact .ok (by rw [bind_run_ok hm, hf]) hP hq
  | error hm hP => exact .error (bind_run_error hm) hP

/-- A run that returns decides what holds. -/
theorem Decides.of_returns {P : Prop} {m : Prog σ ε α} {s : σ} {Q : α → σ → Prop} (hP : P)
    (h : Returns m s Q) : Decides P m s Q := by
  obtain ⟨a, s', hm, hq⟩ := h
  exact .ok hm hP hq

/-! ### More fuel, more results -/

/-- `Le m m'`: every result of `m` is a result of `m'`. -/
def Le (m m' : Prog σ ε α) : Prop := ∀ s r, m s = some r → m' s = some r

/-- The order is reflexive. -/
theorem Le.refl (m : Prog σ ε α) : Le m m := fun _ _ h => h

/-- A run without an end is below all others. -/
theorem le_diverge (m : Prog σ ε α) : Le diverge m := fun _ _ h => nomatch h

/-- A sequence is monotone in both parts. -/
theorem le_bind {m m' : Prog σ ε α} {f f' : α → Prog σ ε β} (hm : Le m m')
    (hf : ∀ a, Le (f a) (f' a)) : Le (m >>= f) (m' >>= f') := by
  intro s r h
  rcases hms : m s with _ | ⟨e | a, s₁⟩
  · rw [bind_run_none hms] at h; cases h
  · rw [bind_run_error hms] at h
    rw [bind_run_error (hm s _ hms), h]
  · rw [bind_run_ok hms] at h
    rw [bind_run_ok (hm s _ hms)]
    exact hf a s₁ r h

/-- A choice is monotone in both sides. -/
theorem le_ite {c : Prop} [Decidable c] {m m' k k' : Prog σ ε α} (hm : Le m m')
    (hk : Le k k') : Le (if c then m else k) (if c then m' else k') := by
  split
  · exact hm
  · exact hk

/-- A loop is monotone in its body and in its fuel. -/
theorem le_loop {body body' : β → Prog σ ε (ForInStep β)} (hbody : ∀ b, Le (body b) (body' b)) :
    ∀ {n m : Nat}, n ≤ m → ∀ b, Le (loop body n b) (loop body' m b) := by
  intro n
  induction n with
  | zero => intro m _ b; exact le_diverge _
  | succ n ih =>
      intro m hnm b
      obtain ⟨k, rfl⟩ : ∃ k, m = k + 1 := ⟨m - 1, by omega⟩
      refine le_bind (hbody b) fun r => ?_
      cases r with
      | done b' => exact Le.refl _
      | yield b' => exact ih (by omega) b'

end Prog

end Nucleus.Lib
