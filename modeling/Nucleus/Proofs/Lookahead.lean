import Nucleus.Proofs.Lexing
import Nucleus.Spec.Words

/-!
# `Nucleus.Proofs.Lookahead`: peeks of any depth

`nulang__lexer_peek` fills a queue of tokens, and `nulang__lexer_next` takes from its front.
`plainResult source n` is what the `n`-th call gives when only `next` is called. `Queues source
n lexer` is the simulation: after `n` calls of `next`, the queue holds the plain results from
`n` on, and the characters are those of the plain lexer behind them.
-/

set_option autoImplicit false

namespace Nucleus.Proofs

open Nucleus.Lang
open Nucleus.Spec

/-! ### The specification -/

/-- `NULANG_LEXER_MAX_PEEKS`. -/
def lexerMaxPeeks : Nat := 5

/-- A call of the lexer. -/
inductive LexCall where
  | peek (lookahead : Nat)
  | next
  deriving DecidableEq

/-- A peek is within the queue. -/
def LexCall.Allowed : LexCall → Prop
  | .peek lookahead => lookahead < lexerMaxPeeks
  | .next => True

instance (c : LexCall) : Decidable c.Allowed := by
  cases c <;> unfold LexCall.Allowed <;> infer_instance

/-- Make a call. -/
def lexCall : LexCall → Lexer → LexResult × Lexer
  | .peek lookahead, lexer => lexerPeek lexer lookahead
  | .next, lexer => lexerNext lexer

/-- The results of the calls `calls`, and the lexer after them. -/
def lexCalls : List LexCall → Lexer → List LexResult × Lexer
  | [], lexer => ([], lexer)
  | c :: calls, lexer =>
      ((lexCall c lexer).1 :: (lexCalls calls (lexCall c lexer).2).1,
        (lexCalls calls (lexCall c lexer).2).2)

/-- The result of the call number `n` when only `nulang__lexer_next` is called. -/
def plainResult (source : Source) (n : Nat) : LexResult := (lexerNext (lexerAfter source n)).1

/-- What the calls are to give after `n` calls of `next`: a `next` the next plain result, and a
peek the plain result that the `next` behind the `lookahead` ones to come would give. -/
def plainResults (source : Source) : Nat → List LexCall → List LexResult
  | _, [] => []
  | n, .peek lookahead :: calls => plainResult source (n + lookahead) :: plainResults source n calls
  | n, .next :: calls => plainResult source n :: plainResults source (n + 1) calls

/-- The call did not fail. -/
def Succeeded (r : LexResult) : Prop := ∃ token, r = .ok token

instance (r : LexResult) : Decidable (Succeeded r) :=
  match r with
  | .ok token => isTrue ⟨token, rfl⟩
  | .error _ => isFalse fun ⟨_, h⟩ => nomatch h

/-! ### The simulation -/

/-- After `n` calls of `next`: the queue holds the next plain results, and the characters are
those of the plain lexer behind them. -/
structure Queues (source : Source) (n : Nat) (lexer : Lexer) : Prop where
  peeks : ∀ i token, lexer.peeks[i]? = some token → plainResult source (n + i) = .ok token
  chars : lexer.chars = (lexerAfter source (n + lexer.peeks.length)).chars

/-- A lexer on which only `next` is called has an empty queue. -/
theorem lexerAfter_peeks (source : Source) (n : Nat) : (lexerAfter source n).peeks = [] := by
  induction n with
  | zero => rfl
  | succ n ih =>
      rw [lexerAfter, lexerNext, ih]

/-- The plain lexer reads one token in each call. -/
theorem lexerParseToken_lexerAfter (source : Source) (n : Nat) :
    lexerParseToken (lexerAfter source n).chars =
      (plainResult source n, (lexerAfter source (n + 1)).chars) := by
  rw [plainResult, lexerAfter, lexerNext, lexerAfter_peeks]

section
variable {source : Source} {n : Nat} {lexer : Lexer}

/-- A new lexer has an empty queue. -/
theorem queues_lexerInit (source : Source) : Queues source 0 (lexerInit source) :=
  ⟨fun i token h => by simp [lexerInit] at h, rfl⟩

/-- Reading one token more into the queue. -/
theorem Queues.push (h : Queues source n lexer) {token : Token}
    (htoken : plainResult source (n + lexer.peeks.length) = .ok token) :
    Queues source n
      ⟨(lexerAfter source (n + lexer.peeks.length + 1)).chars, lexer.peeks ++ [token]⟩ := by
  refine ⟨fun i t hi => ?_, by rw [List.length_append]; rfl⟩
  rcases Nat.lt_trichotomy i lexer.peeks.length with hlt | rfl | hgt
  · rw [List.getElem?_append_left hlt] at hi
    exact h.peeks i t hi
  · rw [List.getElem?_append_right (Nat.le_refl _), Nat.sub_self] at hi
    obtain rfl : token = t := Option.some.inj hi
    exact htoken
  · have hnone : (lexer.peeks ++ [token])[i]? = none := by
      rw [List.getElem?_eq_none_iff, List.length_append, List.length_singleton]
      omega
    rw [hnone] at hi
    cases hi

/-- The loop of a peek: it fills the queue up to `lookahead`, or it stops with an error. -/
theorem Queues.lexerPeekLoop {lookahead : Nat} : ∀ (fuel : Nat) {lexer : Lexer},
    Queues source n lexer → lookahead + 1 ≤ lexer.peeks.length + fuel →
    (Succeeded (lexerPeekLoop lookahead fuel lexer).1 →
      (lexerPeekLoop lookahead fuel lexer).1 = plainResult source (n + lookahead) ∧
        Queues source n (lexerPeekLoop lookahead fuel lexer).2) ∧
      (lexerPeekLoop lookahead fuel lexer).2.peeks.length ≤ lexer.peeks.length + fuel := by
  intro fuel
  -- the fuel is the number of tokens that are missing in the queue
  induction fuel with
  | zero =>
      intro lexer h hfuel
      refine ⟨fun _ => ⟨?_, h⟩, Nat.le_refl _⟩
      have hlt : lookahead < lexer.peeks.length := by omega
      have hget : lexer.peeks[lookahead]? = some lexer.peeks[lookahead] :=
        List.getElem?_eq_getElem hlt
      show (.ok (lexer.peeks.getD lookahead Token.eof) : LexResult) = _
      rw [h.peeks lookahead _ hget, List.getD_eq_getElem?_getD, hget]
      rfl
  | succ fuel ih =>
      intro lexer h hfuel
      have hparse := lexerParseToken_lexerAfter source (n + lexer.peeks.length)
      rw [← h.chars] at hparse
      rw [Nucleus.Lang.lexerPeekLoop, hparse]
      rcases hres : plainResult source (n + lexer.peeks.length) with e | token
      · refine ⟨?_, Nat.le_add_right _ _⟩
        rintro ⟨t, ht⟩
        cases ht
      · obtain ⟨hok, hlen⟩ := ih (h.push hres)
          (by rw [List.length_append, List.length_singleton]; omega)
        rw [List.length_append, List.length_singleton] at hlen
        exact ⟨hok, Nat.le_trans hlen (by omega)⟩

/-- A peek that succeeds shows the plain result and leaves the simulation where it was. -/
theorem Queues.peek {lookahead : Nat} (h : Queues source n lexer)
    (hok : Succeeded (lexerPeek lexer lookahead).1) :
    (lexerPeek lexer lookahead).1 = plainResult source (n + lookahead) ∧
      Queues source n (lexerPeek lexer lookahead).2 :=
  (Queues.lexerPeekLoop _ h (by omega)).1 hok

/-- The queue grows up to the depth of a peek. -/
theorem Queues.peek_length {lookahead : Nat} (h : Queues source n lexer)
    (hlookahead : lookahead < lexerMaxPeeks) (hlen : lexer.peeks.length ≤ lexerMaxPeeks) :
    (lexerPeek lexer lookahead).2.peeks.length ≤ lexerMaxPeeks := by
  have hgrow := (Queues.lexerPeekLoop (lookahead + 1 - lexer.peeks.length) h
    (show lookahead + 1 ≤ _ by omega)).2
  have hbound : lexer.peeks.length + (lookahead + 1 - lexer.peeks.length) ≤ lexerMaxPeeks := by
    omega
  exact Nat.le_trans hgrow hbound

/-- A `next` gives the next plain result. -/
theorem Queues.next (h : Queues source n lexer) :
    (lexerNext lexer).1 = plainResult source n ∧ Queues source (n + 1) (lexerNext lexer).2 := by
  obtain ⟨chars, peeks⟩ := lexer
  cases peeks with
  | nil =>
      obtain rfl : chars = (lexerAfter source n).chars := h.chars
      rw [lexerNext, lexerParseToken_lexerAfter]
      exact ⟨rfl, fun i token hi => by simp at hi, rfl⟩
  | cons token peeks =>
      refine ⟨(h.peeks 0 token rfl).symm, fun i t hi => ?_, ?_⟩
      · have hres := h.peeks (i + 1) t hi
        rw [Nat.add_right_comm, Nat.add_assoc]
        exact hres
      · rw [Nat.add_assoc, Nat.add_comm 1]
        exact h.chars

/-- The next token comes from the queue, which gets no longer. -/
theorem length_peeks_next (lexer : Lexer) :
    (lexerNext lexer).2.peeks.length ≤ lexer.peeks.length := by
  obtain ⟨chars, peeks⟩ := lexer
  cases peeks with
  | nil =>
      rw [lexerNext]
  | cons token peeks => exact Nat.le_succ _

end

/-! ### Runs -/

/-- A call keeps the queue within its bound, also when it fails. -/
theorem Queues.length_lexCall {source : Source} {n : Nat} {lexer : Lexer} {c : LexCall}
    (h : Queues source n lexer) (hc : c.Allowed) (hlen : lexer.peeks.length ≤ lexerMaxPeeks) :
    (lexCall c lexer).2.peeks.length ≤ lexerMaxPeeks := by
  cases c with
  | peek lookahead => exact h.peek_length hc hlen
  | next => exact Nat.le_trans (length_peeks_next lexer) hlen

/-- Calls that succeed give the plain results, from any state of the simulation. -/
theorem Queues.lexCalls {source : Source} {calls : List LexCall} :
    ∀ {n : Nat} {lexer : Lexer}, Queues source n lexer → lexer.peeks.length ≤ lexerMaxPeeks →
      (∀ c ∈ calls, c.Allowed) → (∀ r ∈ (lexCalls calls lexer).1, Succeeded r) →
      (lexCalls calls lexer).1 = plainResults source n calls ∧
        (lexCalls calls lexer).2.peeks.length ≤ lexerMaxPeeks ∧
        ∃ m, Queues source m (lexCalls calls lexer).2 := by
  induction calls with
  | nil => exact fun h hlen _ _ => ⟨rfl, hlen, _, h⟩
  | cons c calls ih =>
      intro n lexer h hlen hallowed hok
      have hlen' := h.length_lexCall (hallowed c (by simp)) hlen
      have hallowed' : ∀ c ∈ calls, c.Allowed := fun d hd => hallowed d (by simp [hd])
      have hhead := hok _ List.mem_cons_self
      have htail : ∀ r ∈ (Nucleus.Proofs.lexCalls calls (lexCall c lexer).2).1, Succeeded r :=
        fun r hr => hok r (List.mem_cons_of_mem _ hr)
      simp only [Nucleus.Proofs.lexCalls]
      -- a peek may fill the queue, and a call of the next token takes from it
      cases c with
      | peek lookahead =>
          obtain ⟨hres, h'⟩ := h.peek hhead
          obtain ⟨hrest, hend⟩ := ih h' hlen' hallowed' htail
          exact ⟨congrArg₂ List.cons hres hrest, hend⟩
      | next =>
          obtain ⟨hres, h'⟩ := h.next
          obtain ⟨hrest, hend⟩ := ih h' hlen' hallowed' htail
          exact ⟨congrArg₂ List.cons hres hrest, hend⟩

/-- Up to the first error, every interleaving of peeks and nexts gives the results that a run of
nexts alone gives at the same places: a `next` the next one, a peek the one that many calls
ahead. The queue holds at most `NULANG_LEXER_MAX_PEEKS` tokens, also after a further call, which
may be the one that fails. -/
theorem lexCalls_transparent {source : Source} {calls : List LexCall}
    (hallowed : ∀ c ∈ calls, c.Allowed)
    (hok : ∀ r ∈ (lexCalls calls (lexerInit source)).1, Succeeded r) :
    (lexCalls calls (lexerInit source)).1 = plainResults source 0 calls ∧
      (lexCalls calls (lexerInit source)).2.peeks.length ≤ lexerMaxPeeks ∧
      ∀ c : LexCall, c.Allowed →
        (lexCall c (lexCalls calls (lexerInit source)).2).2.peeks.length ≤ lexerMaxPeeks := by
  obtain ⟨hres, hlen, m, h⟩ :=
    (queues_lexerInit source).lexCalls (Nat.zero_le _) hallowed hok
  exact ⟨hres, hlen, fun c hc => h.length_lexCall hc hlen⟩

/-- Peeks past the end of a source, and nexts behind them. -/
theorem lexCalls_transparent_pastEnd :
    (lexCalls [.peek 2, .next, .peek 0, .next, .next] (lexerInit ⟨"let x".toList, by decide⟩)).1 =
      plainResults ⟨"let x".toList, by decide⟩ 0 [.peek 2, .next, .peek 0, .next, .next] :=
  (lexCalls_transparent (by decide) (by decide +kernel)).1

end Nucleus.Proofs
