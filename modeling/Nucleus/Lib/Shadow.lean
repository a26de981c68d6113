import Nucleus.Lib.Prog

/-!
# `Nucleus.Lib.Shadow`: a run and its shadow

Two programs with the same results, side by side: the main run goes on from a state of its own,
and the shadow follows it from another state. The shadow may stop for good, with one error of
its own, and the main run goes on without it. So a shadow that did not stop has the outcome of
the main run, and a main run that ends leads the shadow to an end.

`Shadow stop D T m m' o t Q` is the judgment. The shadow is at `o`, where `none` is a shadow
that stopped before. If the shadow stops in this part of the run, then with the error `stop` and
in a state in `D`. If the main run stops with an error, both are in `T`; if it succeeds, both are
in `Q`. There is one rule for each combinator of `Prog`.
-/

set_option autoImplicit false

namespace Nucleus.Lib.Prog

variable {σ τ ε α β γ : Type}

/-- What the shadow `m` does from `o` beside a main run with the result `r`, and where it is
then. -/
inductive Follows (stop : ε) (D : σ → Prop) (m : Prog σ ε α) :
    Option σ → Option (Except ε α) → Option σ → Prop where
  | gone {r : Option (Except ε α)} : Follows stop D m none r none
  | stops {s s' : σ} {r : Option (Except ε α)} :
      m s = some (.error stop, s') → D s' → Follows stop D m (some s) r none
  | diverges {s : σ} : m s = none → Follows stop D m (some s) none none
  | keeps {s s' : σ} {r : Except ε α} :
      m s = some (r, s') → Follows stop D m (some s) (some r) (some s')

/-- The main run of `m'` from `t`, and the shadow's run of `m` from `o`. -/
structure Shadow (stop : ε) (D : σ → Prop) (T : ε → Option σ → τ → Prop) (m : Prog σ ε α)
    (m' : Prog τ ε α) (o : Option σ) (t : τ) (Q : α → Option σ → τ → Prop) : Prop where
  ends : m' t = none → Follows stop D m o none none
  fails : ∀ {e : ε} {t' : τ}, m' t = some (.error e, t') →
    ∃ o', Follows stop D m o (some (.error e)) o' ∧ T e o' t'
  returns : ∀ {a : α} {t' : τ}, m' t = some (.ok a, t') →
    ∃ o', Follows stop D m o (some (.ok a)) o' ∧ Q a o' t'

variable {stop : ε} {D : σ → Prop} {T : ε → Option σ → τ → Prop}

/-! ### The shadow through a sequence -/

/-- A sequence follows in its two parts. -/
theorem Follows.bind_ok {m : Prog σ ε α} {f : α → Prog σ ε β} {o o₁ o' : Option σ} {a : α}
    {r : Option (Except ε β)} (h : Follows stop D m o (some (.ok a)) o₁)
    (hf : Follows stop D (f a) o₁ r o') : Follows stop D (m >>= f) o r o' := by
  cases h with
  | gone =>
      cases hf
      exact .gone
  | stops hm hd =>
      cases hf
      exact .stops (bind_run_error hm) hd
  | keeps hm =>
      cases hf with
      | stops hs hd => exact .stops (by rw [bind_run_ok hm, hs]) hd
      | diverges hs => exact .diverges (by rw [bind_run_ok hm, hs])
      | keeps hs => exact .keeps (by rw [bind_run_ok hm, hs])

/-- A sequence follows up to the first error. -/
theorem Follows.bind_error {m : Prog σ ε α} {f : α → Prog σ ε β} {o o' : Option σ} {e : ε}
    (h : Follows stop D m o (some (.error e)) o') :
    Follows stop D (m >>= f) o (some (.error e)) o' := by
  cases h with
  | gone => exact .gone
  | stops hm hd => exact .stops (bind_run_error hm) hd
  | keeps hm => exact .keeps (bind_run_error hm)

/-- A sequence follows a part that never ends. -/
theorem Follows.bind_none {m : Prog σ ε α} {f : α → Prog σ ε β} {o : Option σ}
    (h : Follows stop D m o none none) : Follows stop D (m >>= f) o none none := by
  cases h with
  | gone => exact .gone
  | stops hm hd => exact .stops (bind_run_error hm) hd
  | diverges hm => exact .diverges (bind_run_none hm)

/-! ### The rules -/

/-- The postcondition may be weakened. -/
theorem Shadow.mono {m : Prog σ ε α} {m' : Prog τ ε α} {o : Option σ} {t : τ}
    {Q Q' : α → Option σ → τ → Prop} (h : Shadow stop D T m m' o t Q)
    (hQ : ∀ a o' t', Q a o' t' → Q' a o' t') : Shadow stop D T m m' o t Q' := by
  refine ⟨h.ends, h.fails, fun hm => ?_⟩
  obtain ⟨o', hfollows, hq⟩ := h.returns hm
  exact ⟨o', hfollows, hQ _ o' _ hq⟩

/-- What the main run establishes on its own. -/
theorem Shadow.also {m : Prog σ ε α} {m' : Prog τ ε α} {o : Option σ} {t : τ}
    {Q : α → Option σ → τ → Prop} {R : α → τ → Prop} (h : Shadow stop D T m m' o t Q)
    (hR : Spec m' t R) : Shadow stop D T m m' o t fun a o' t' => Q a o' t' ∧ R a t' := by
  refine ⟨h.ends, h.fails, fun hm => ?_⟩
  obtain ⟨o', hfollows, hq⟩ := h.returns hm
  exact ⟨o', hfollows, hq, hR _ _ hm⟩

/-- A sequence, from its first part. -/
theorem Shadow.bind {m : Prog σ ε α} {m' : Prog τ ε α} {f : α → Prog σ ε β}
    {f' : α → Prog τ ε β} {o : Option σ} {t : τ} {Q : β → Option σ → τ → Prop}
    (h : Shadow stop D T m m' o t fun a o' t' => Shadow stop D T (f a) (f' a) o' t' Q) :
    Shadow stop D T (m >>= f) (m' >>= f') o t Q := by
  rcases hm : m' t with _ | ⟨e | a, t₁⟩
  · refine ⟨fun _ => (h.ends hm).bind_none, fun hr => ?_, fun hr => ?_⟩
    all_goals
      rw [bind_run_none hm] at hr
      cases hr
  · obtain ⟨o₁, hfollows, ht⟩ := h.fails hm
    refine ⟨fun hr => ?_, fun hr => ?_, fun hr => ?_⟩
    all_goals
      rw [bind_run_error hm] at hr
      cases hr
    exact ⟨o₁, hfollows.bind_error, ht⟩
  · obtain ⟨o₁, hfollows, hf⟩ := h.returns hm
    refine ⟨fun hr => ?_, fun hr => ?_, fun hr => ?_⟩
    all_goals rw [bind_run_ok hm] at hr
    · exact hfollows.bind_ok (hf.ends hr)
    · obtain ⟨o', hfollows', ht⟩ := hf.fails hr
      exact ⟨o', hfollows.bind_ok hfollows', ht⟩
    · obtain ⟨o', hfollows', hq⟩ := hf.returns hr
      exact ⟨o', hfollows.bind_ok hfollows', hq⟩

/-- The main run returns, and a shadow that is there returns the same. -/
theorem Shadow.of_returns {m : Prog σ ε α} {m' : Prog τ ε α} {o : Option σ} {t t' : τ} {a : α}
    {Q : α → Option σ → τ → Prop} (h : m' t = some (.ok a, t')) (hnone : o = none → Q a none t')
    (hsome : ∀ s, o = some s → ∃ s', m s = some (.ok a, s') ∧ Q a (some s') t') :
    Shadow stop D T m m' o t Q := by
  refine ⟨fun hm => ?_, fun hm => ?_, fun hm => ?_⟩
  all_goals
    rw [h] at hm
    cases hm
  cases o with
  | none => exact ⟨none, .gone, hnone rfl⟩
  | some s =>
      obtain ⟨s', hs, hQ⟩ := hsome s rfl
      exact ⟨some s', .keeps hs, hQ⟩

/-- A step of both runs that returns the same. -/
theorem Shadow.step {m : Prog σ ε α} {m' : Prog τ ε α} {o : Option σ} {t t' : τ} {a : α}
    {g : σ → σ} {Q : α → Option σ → τ → Prop} (h : m' t = some (.ok a, t'))
    (ho : ∀ s, o = some s → m s = some (.ok a, g s)) (hQ : Q a (o.map g) t') :
    Shadow stop D T m m' o t Q := by
  refine Shadow.of_returns h ?_ ?_
  · rintro rfl
    exact hQ
  · rintro s rfl
    exact ⟨g s, ho s rfl, hQ⟩

/-- A step of both runs that stops with the same error. -/
theorem Shadow.throw {m : Prog σ ε α} {m' : Prog τ ε α} {o : Option σ} {t t' : τ} {e : ε}
    {g : σ → σ} {Q : α → Option σ → τ → Prop} (h : m' t = some (.error e, t'))
    (ho : ∀ s, o = some s → m s = some (.error e, g s)) (hT : T e (o.map g) t') :
    Shadow stop D T m m' o t Q := by
  refine ⟨fun hm => ?_, fun hm => ?_, fun hm => ?_⟩
  all_goals
    rw [h] at hm
    cases hm
  cases o with
  | none => exact ⟨none, .gone, hT⟩
  | some s => exact ⟨some (g s), .keeps (ho s rfl), hT⟩

/-- A step of the main run after which the shadow is gone. -/
theorem Shadow.leave {m : Prog σ ε α} {m' : Prog τ ε α} {s s' : σ} {t t' : τ} {a : α}
    {Q : α → Option σ → τ → Prop} (h : m' t = some (.ok a, t'))
    (hs : m s = some (.error stop, s')) (hD : D s') (hQ : Q a none t') :
    Shadow stop D T m m' (some s) t Q := by
  refine ⟨fun hm => ?_, fun hm => ?_, fun hm => ?_⟩
  all_goals
    rw [h] at hm
    cases hm
  exact ⟨none, .stops hs hD, hQ⟩

/-- Both runs have no result. -/
theorem Shadow.of_none {m : Prog σ ε α} {m' : Prog τ ε α} {o : Option σ} {t : τ}
    {Q : α → Option σ → τ → Prop} (h : m' t = none) (ho : ∀ s, o = some s → m s = none) :
    Shadow stop D T m m' o t Q := by
  refine ⟨fun _ => ?_, fun hm => ?_, fun hm => ?_⟩
  · cases o with
    | none => exact .gone
    | some s => exact .diverges (ho s rfl)
  all_goals
    rw [h] at hm
    cases hm

/-- The same value on both sides. -/
theorem Shadow.pure {o : Option σ} {t : τ} {a : α} {Q : α → Option σ → τ → Prop} (h : Q a o t) :
    Shadow stop D T (pure a : Prog σ ε α) (pure a) o t Q := by
  refine Shadow.step (g := id) rfl (fun s _ => rfl) ?_
  rwa [Option.map_id]

/-- A function of the value on both sides. -/
theorem Shadow.map {m : Prog σ ε α} {m' : Prog τ ε α} {f : α → β} {o : Option σ} {t : τ}
    {Q : β → Option σ → τ → Prop} (h : Shadow stop D T m m' o t fun a => Q (f a)) :
    Shadow stop D T (f <$> m) (f <$> m') o t Q :=
  Shadow.bind (h.mono fun _ _ _ hQ => Shadow.pure hQ)

/-- Both runs read the same. -/
theorem Shadow.gets {f : σ → α} {f' : τ → α} {o : Option σ} {t : τ}
    {Q : α → Option σ → τ → Prop} (h : ∀ s, o = some s → f s = f' t) (hQ : Q (f' t) o t) :
    Shadow stop D T (gets f : Prog σ ε α) (gets f') o t Q := by
  refine Shadow.step (g := id) rfl (fun s hs => ?_) ?_
  · rw [gets_run, h s hs]
    rfl
  · rwa [Option.map_id]

/-- Both runs read something, and the shadow's `a` may be another value than the main run's. -/
theorem Shadow.reads {f : σ → α} {f' : τ → α} {k : α → Prog σ ε β} {k' : α → Prog τ ε β}
    {o : Option σ} {t : τ} {Q : β → Option σ → τ → Prop}
    (h : ∀ a, (∀ s, o = some s → a = f s) → (o = none → a = f' t) →
      Shadow stop D T (k a) (k' (f' t)) o t Q) :
    Shadow stop D T (Prog.gets f >>= k) (Prog.gets f' >>= k') o t Q := by
  cases o with
  | none =>
      -- a shadow that is gone does nothing, whatever it would read
      have hgone : ∀ {r : Option (Except ε β)} {o' : Option σ},
          Follows stop D (k (f' t)) none r o' → Follows stop D (Prog.gets f >>= k) none r o' := by
        intro r o' hfollows
        cases hfollows
        exact .gone
      have hk := h (f' t) nofun fun _ => rfl
      refine ⟨fun hm => hgone (hk.ends hm), fun hm => ?_, fun hm => ?_⟩
      · obtain ⟨o', hfollows, hT⟩ := hk.fails hm
        exact ⟨o', hgone hfollows, hT⟩
      · obtain ⟨o', hfollows, hQ⟩ := hk.returns hm
        exact ⟨o', hgone hfollows, hQ⟩
  | some s =>
      have hreads : ∀ {r : Option (Except ε β)} {o' : Option σ},
          Follows stop D (k (f s)) (some s) r o' →
            Follows stop D (Prog.gets f >>= k) (some s) r o' := by
        intro r o' hfollows
        cases hfollows with
        | stops hm hd => exact .stops hm hd
        | diverges hm => exact .diverges hm
        | keeps hm => exact .keeps hm
      have hk := h (f s) (fun s' hs => by cases hs; rfl) nofun
      refine ⟨fun hm => hreads (hk.ends hm), fun hm => ?_, fun hm => ?_⟩
      · obtain ⟨o', hfollows, hT⟩ := hk.fails hm
        exact ⟨o', hreads hfollows, hT⟩
      · obtain ⟨o', hfollows, hQ⟩ := hk.returns hm
        exact ⟨o', hreads hfollows, hQ⟩

/-- A change on both sides. -/
theorem Shadow.modify {g : σ → σ} {g' : τ → τ} {o : Option σ} {t : τ}
    {Q : Unit → Option σ → τ → Prop} (hQ : Q () (o.map g) (g' t)) :
    Shadow stop D T (modify g : Prog σ ε Unit) (modify g') o t Q :=
  Shadow.step rfl (fun _ _ => rfl) hQ

/-- Both runs turn an error into a value. The shadow does not stop. -/
theorem Shadow.attempt {m : Prog σ ε α} {m' : Prog τ ε α} {o : Option σ} {t : τ}
    {Q : Except ε α → Option σ → τ → Prop} (hD : ∀ s, ¬ D s)
    (h : Shadow stop D (fun e => Q (.error e)) m m' o t fun a => Q (.ok a)) :
    Shadow stop D T (Prog.attempt m) (Prog.attempt m') o t Q := by
  -- an error that is caught is a result, which the shadow has too
  have hfollows : ∀ {r : Except ε α} {o' : Option σ}, Follows stop D m o (some r) o' →
      Follows stop D (Prog.attempt m) o (some (.ok r)) o' := by
    intro r o' hfollows
    cases hfollows with
    | gone => exact .gone
    | stops _ hd => exact absurd hd (hD _)
    | keeps hm => exact .keeps (by rw [attempt_run, hm]; rfl)
  have hnone : Follows stop D m o none none → Follows stop D (Prog.attempt m) o none none := by
    intro hfollows
    cases hfollows with
    | gone => exact .gone
    | stops _ hd => exact absurd hd (hD _)
    | diverges hm => exact .diverges (by rw [attempt_run, hm]; rfl)
  rcases hm : m' t with _ | ⟨r, t₁⟩
  · refine ⟨fun _ => hnone (h.ends hm), fun hr => ?_, fun hr => ?_⟩
    all_goals
      rw [attempt_run, hm] at hr
      cases hr
  · refine ⟨fun hr => ?_, fun hr => ?_, fun hr => ?_⟩
    all_goals
      rw [attempt_run, hm] at hr
      cases hr
    rcases r with e | a
    · obtain ⟨o', hf, hq⟩ := h.fails hm
      exact ⟨o', hfollows hf, hq⟩
    · obtain ⟨o', hf, hq⟩ := h.returns hm
      exact ⟨o', hfollows hf, hq⟩

/-- The same error on both sides. -/
theorem Shadow.fail {e : ε} {o : Option σ} {t : τ} {Q : α → Option σ → τ → Prop}
    (hT : T e o t) : Shadow stop D T (fail e : Prog σ ε α) (fail e) o t Q := by
  refine Shadow.throw (g := id) rfl (fun s _ => rfl) ?_
  rwa [Option.map_id]

/-- No end on both sides. -/
theorem Shadow.diverge {o : Option σ} {t : τ} {Q : α → Option σ → τ → Prop} :
    Shadow stop D T (diverge : Prog σ ε α) diverge o t Q :=
  Shadow.of_none rfl fun _ _ => rfl

/-- A choice that both sides make alike. -/
theorem Shadow.ite {c : Prop} [Decidable c] {m k : Prog σ ε α} {m' k' : Prog τ ε α}
    {o : Option σ} {t : τ} {Q : α → Option σ → τ → Prop}
    (hm : c → Shadow stop D T m m' o t Q) (hk : ¬ c → Shadow stop D T k k' o t Q) :
    Shadow stop D T (if c then m else k) (if c then m' else k') o t Q := by
  split
  · rename_i hc
    exact hm hc
  · rename_i hc
    exact hk hc

/-- The invariant rule: `I` holds whenever a turn begins. -/
theorem Shadow.loop {body : β → Prog σ ε (ForInStep β)} {body' : β → Prog τ ε (ForInStep β)}
    {I Q : β → Option σ → τ → Prop}
    (hbody : ∀ b o t, I b o t → Shadow stop D T (body b) (body' b) o t fun
      | .done b', o', t' => Q b' o' t'
      | .yield b', o', t' => I b' o' t') :
    ∀ (n : Nat) (b : β) (o : Option σ) (t : τ), I b o t →
      Shadow stop D T (loop body n b) (loop body' n b) o t Q := by
  intro n
  induction n with
  | zero => exact fun _ _ _ _ => Shadow.diverge
  | succ n ih =>
      intro b o t hI
      rw [loop_succ, loop_succ]
      refine Shadow.bind ((hbody b o t hI).mono fun r o' t' hr => ?_)
      cases r with
      | done b' => exact Shadow.pure hr
      | yield b' => exact ih b' o' t' hr

/-! ### What a judgment says -/

/-- A shadow beside a main run that ends stops with its own error, or it has the same outcome. -/
theorem Follows.of_some {m : Prog σ ε α} {s : σ} {r : Except ε α} {o' : Option σ}
    (h : Follows stop D m (some s) (some r) o') :
    (∃ s', m s = some (.error stop, s') ∧ D s' ∧ o' = none) ∨
      ∃ s', m s = some (r, s') ∧ o' = some s' := by
  cases h with
  | stops hm hd => exact Or.inl ⟨_, hm, hd, rfl⟩
  | keeps hm => exact Or.inr ⟨_, hm, rfl⟩

/-- A shadow beside a main run that does not end stops with its own error, or it does not end
either. -/
theorem Follows.of_none {m : Prog σ ε α} {s : σ} {o' : Option σ}
    (h : Follows stop D m (some s) none o') :
    (∃ s', m s = some (.error stop, s') ∧ D s') ∨ m s = none := by
  cases h with
  | stops hm hd => exact Or.inl ⟨_, hm, hd⟩
  | diverges hm => exact Or.inr hm

end Nucleus.Lib.Prog
