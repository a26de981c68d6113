import Nucleus.Lib.Prog

/-!
# `Nucleus.Lib.Gate`: runs that pass one gate after the other

A gate is a place of a run where it may stop with an error, and where it takes room that may not be
there. `Gated gs m s Q` says that the run of `m` from `s` comes to the gates `gs` in order: it
passes all of them and succeeds in `Q`, or at the first gate that it does not pass it stops with an
error, or at the first one without room it has no result.

The rules follow those of `Decides`. `Gated.decides` is the case in which there is room everywhere,
and `Gated.ne_none_iff` says when the run has a result.
-/

set_option autoImplicit false

namespace Nucleus.Lib

/-- A gate: what a run has to meet there, and whether there is room. -/
structure Gate where
  passes : Prop
  room : Prop

/-- Gates with equivalent conditions are equal. -/
theorem gate_eq {P P' R R' : Prop} (hpasses : P ↔ P') (hroom : R ↔ R') :
    (⟨P, R⟩ : Gate) = ⟨P', R'⟩ := by
  rw [propext hpasses, propext hroom]

/-- A run that comes to the gates in order, and stops at the first one that it does not pass, finds
room. -/
def RoomAt : List Gate → Prop
  | [] => True
  | g :: gs => g.passes → g.room ∧ RoomAt gs

/-- Room along two lists of gates. The second list counts only behind gates that were all passed. -/
theorem roomAt_append {gs hs : List Gate} :
    RoomAt (gs ++ hs) ↔ RoomAt gs ∧ ((∀ g ∈ gs, g.passes) → RoomAt hs) := by
  induction gs with
  | nil => simp [RoomAt]
  | cons g gs ih =>
      rw [List.cons_append, RoomAt, ih, RoomAt, List.forall_mem_cons]
      constructor
      · intro h
        exact ⟨fun hg => ⟨(h hg).1, (h hg).2.1⟩, fun hall => (h hall.1).2.2 hall.2⟩
      · intro h hg
        exact ⟨(h.1 hg).1, (h.1 hg).2, fun hall => h.2 ⟨hg, hall⟩⟩

/-- The gates in front of which all gates are passed have room. -/
theorem roomAt_iff {gs : List Gate} :
    RoomAt gs ↔ ∀ pre g post, gs = pre ++ g :: post → (∀ h ∈ pre, h.passes) → g.passes →
      g.room := by
  constructor
  · rintro h pre g post rfl hpre hg
    exact ((roomAt_append.mp h).2 hpre hg).1
  · induction gs with
    | nil => exact fun _ => trivial
    | cons g gs ih =>
        intro h hg
        refine ⟨h [] g gs rfl (fun h hh => absurd hh List.not_mem_nil) hg, ih ?_⟩
        rintro pre k post rfl hpre hk
        exact h (g :: pre) k post rfl (List.forall_mem_cons.mpr ⟨hg, hpre⟩) hk

namespace Prog

variable {σ ε α β : Type}

/-- The run of `m` from `s` comes to the gates `gs`. -/
inductive Gated (gs : List Gate) (m : Prog σ ε α) (s : σ) (Q : α → σ → Prop) : Prop where
  | ok {a : α} {s' : σ} : m s = some (.ok a, s') → (∀ g ∈ gs, g.passes ∧ g.room) → Q a s' →
      Gated gs m s Q
  | error {pre post : List Gate} {g : Gate} {e : ε} {s' : σ} : m s = some (.error e, s') →
      gs = pre ++ g :: post → (∀ h ∈ pre, h.passes ∧ h.room) → ¬ g.passes → Gated gs m s Q
  | full {pre post : List Gate} {g : Gate} : m s = none → gs = pre ++ g :: post →
      (∀ h ∈ pre, h.passes ∧ h.room) → g.passes → ¬ g.room → Gated gs m s Q

variable {gs hs : List Gate} {g : Gate} {m : Prog σ ε α} {f : α → Prog σ ε β} {s : σ}

/-- The postcondition may be weakened. -/
theorem Gated.mono {Q Q' : α → σ → Prop} (h : Gated gs m s Q) (hQ : ∀ a s', Q a s' → Q' a s') :
    Gated gs m s Q' := by
  cases h with
  | ok hm hgs hq => exact .ok hm hgs (hQ _ _ hq)
  | error hm heq hpre hg => exact .error hm heq hpre hg
  | full hm heq hpre hg hroom => exact .full hm heq hpre hg hroom

/-- Both parts of a sequence come to gates. -/
theorem Gated.bind {Q : β → σ → Prop} (h : Gated gs m s fun a s' => Gated hs (f a) s' Q) :
    Gated (gs ++ hs) (m >>= f) s Q := by
  cases h with
  | error hm heq hpre hg =>
      exact .error (bind_run_error hm) (by rw [heq, List.append_assoc]; rfl) hpre hg
  | full hm heq hpre hg hroom =>
      exact .full (bind_run_none hm) (by rw [heq, List.append_assoc]; rfl) hpre hg hroom
  | ok hm hgs hf =>
      cases hf with
      | ok hf hhs hq =>
          exact .ok (by rw [bind_run_ok hm, hf]) (List.forall_mem_append.mpr ⟨hgs, hhs⟩) hq
      | error hf heq hpre hg =>
          exact .error (by rw [bind_run_ok hm, hf]) (by rw [heq, ← List.append_assoc])
            (List.forall_mem_append.mpr ⟨hgs, hpre⟩) hg
      | full hf heq hpre hg hroom =>
          exact .full (by rw [bind_run_ok hm, hf]) (by rw [heq, ← List.append_assoc])
            (List.forall_mem_append.mpr ⟨hgs, hpre⟩) hg hroom

/-- A run without gates. -/
theorem Gated.of_returns {Q : α → σ → Prop} (h : Returns m s Q) : Gated [] m s Q := by
  obtain ⟨a, s', hm, hq⟩ := h
  exact .ok hm (fun g hg => absurd hg List.not_mem_nil) hq

/-- The first part of a sequence returns, and the second one comes to the gates. -/
theorem Gated.after {Q : β → σ → Prop} (h : Returns m s fun a s' => Gated gs (f a) s' Q) :
    Gated gs (m >>= f) s Q := (Gated.of_returns h).bind

/-- The first part of a sequence comes to the gates, and the second one returns. -/
theorem Gated.before {Q : β → σ → Prop} (h : Gated gs m s fun a s' => Returns (f a) s' Q) :
    Gated gs (m >>= f) s Q := by
  have hbind := (h.mono fun _ _ => Gated.of_returns).bind
  rwa [List.append_nil] at hbind

/-- A run that stops at its only gate. -/
theorem Gated.stops {Q : α → σ → Prop} {e : ε} {s' : σ} (hm : m s = some (.error e, s'))
    (hg : ¬ g.passes) : Gated [g] m s Q :=
  .error hm (List.nil_append [g]).symm (fun _ hh => absurd hh List.not_mem_nil) hg

/-- A run that finds no room at its only gate. -/
theorem Gated.overflows {Q : α → σ → Prop} (hm : m s = none) (hg : g.passes) (hroom : ¬ g.room) :
    Gated [g] m s Q :=
  .full hm (List.nil_append [g]).symm (fun _ hh => absurd hh List.not_mem_nil) hg hroom

/-- A gate with room. -/
theorem Gated.of_decides {P : Prop} {Q : α → σ → Prop} (h : Decides P m s Q)
    (hpasses : P ↔ g.passes) (hroom : g.room) : Gated [g] m s Q := by
  cases h with
  | ok hm hP hq =>
      refine .ok hm (fun h hh => ?_) hq
      obtain rfl := List.mem_singleton.mp hh
      exact ⟨hpasses.mp hP, hroom⟩
  | error hm hP => exact .stops hm fun hg => hP (hpasses.mpr hg)

/-- With room at all gates the run passes them, or it stops with an error. -/
theorem Gated.decides {Q : α → σ → Prop} (h : Gated gs m s Q) (hroom : ∀ g ∈ gs, g.room) :
    Decides (∀ g ∈ gs, g.passes) m s Q := by
  cases h with
  | ok hm hgs hq => exact .ok hm (fun g hg => (hgs g hg).1) hq
  | error hm heq _ hg => exact .error hm fun hall => hg (hall _ (by simp [heq]))
  | full _ heq _ _ hfull => exact absurd (hroom _ (by simp [heq])) hfull

/-- A run that succeeds passed all gates. -/
theorem Gated.of_ok {Q : α → σ → Prop} {a : α} {s' : σ} (h : Gated gs m s Q)
    (hm : m s = some (.ok a, s')) : (∀ g ∈ gs, g.passes) ∧ Q a s' := by
  cases h with
  | ok hm' hgs hq =>
      cases hm.symm.trans hm'
      exact ⟨fun g hg => (hgs g hg).1, hq⟩
  | error hm' => cases hm.symm.trans hm'
  | full hm' => cases hm.symm.trans hm'

/-- The run succeeds exactly when it passes all gates and finds room at them. -/
theorem Gated.ok_iff {Q : α → σ → Prop} (h : Gated gs m s Q) :
    (∃ a s', m s = some (.ok a, s') ∧ Q a s') ↔ ∀ g ∈ gs, g.passes ∧ g.room := by
  cases h with
  | ok hm hgs hq => exact iff_of_true ⟨_, _, hm, hq⟩ hgs
  | error hm heq _ hg =>
      refine iff_of_false ?_ fun hall => hg (hall _ (by simp [heq])).1
      rintro ⟨a, s', hok, -⟩
      cases hok.symm.trans hm
  | full hm heq _ _ hroom =>
      refine iff_of_false ?_ fun hall => hroom (hall _ (by simp [heq])).2
      rintro ⟨a, s', hok, -⟩
      cases hok.symm.trans hm

/-- The run has a result exactly when it finds room at the gates it comes to. -/
theorem Gated.ne_none_iff {Q : α → σ → Prop} (h : Gated gs m s Q) : m s ≠ none ↔ RoomAt gs := by
  cases h with
  | ok hm hgs _ =>
      rw [hm]
      refine iff_of_true (by simp) (roomAt_iff.mpr fun pre g post heq _ _ => ?_)
      exact (hgs g (by simp [heq])).2
  | @error pre post g _ _ hm heq hpre hg =>
      rw [hm]
      refine iff_of_true (by simp) ?_
      rw [heq, roomAt_append]
      refine ⟨roomAt_iff.mpr fun pre' h post' heq' _ _ => ?_, fun _ hpasses => absurd hpasses hg⟩
      exact (hpre h (by simp [heq'])).2
  | full hm heq hpre hg hfull =>
      refine iff_of_false (fun hne => hne hm) fun hroom => hfull ?_
      exact roomAt_iff.mp hroom _ _ _ heq (fun h hh => (hpre h hh).1) hg

end Prog

end Nucleus.Lib
