import Mathlib.Algebra.Group.Nat.Defs
import Mathlib.Logic.Basic

/-!
# Outcomes of an imperative call

A call of a C function on a state `σ` can return normally, return an error code,
be stopped at a fault point by a kill of the whole process, or run into undefined
behaviour (a wild access, a null dereference, an endless recursion). `Prog` is the
state monad over these four outcomes. An error and a kill both leave a state behind,
undefined behaviour leaves none.

`Prog.wp` is the weakest precondition of a call: what must hold before it for its
normal result to satisfy `Q` and its other exits to satisfy `X`. The composition rules
below are the only facts about `Prog` that later modules use.
-/

namespace Outcome

open List

/-- The result of running a call: `ok` is a normal return, `err` an error code, `halt` a
kill of the process at a fault point, `stuck` undefined behaviour. -/
inductive Out (ε φ σ α : Type) where
  | ok (a : α) (s : σ)
  | err (e : ε) (s : σ)
  | halt (f : φ) (s : σ)
  | stuck

/-- A call that works on a state `σ`. -/
def Prog (ε φ σ α : Type) : Type := σ → Out ε φ σ α

/-- What the exits other than a normal return have to satisfy. -/
structure Exits (ε φ σ : Type) where
  err : ε → σ → Prop
  halt : φ → σ → Prop
  stuck : Prop

namespace Prog

variable {ε φ σ α β : Type}

@[simp] def pure (a : α) : Prog ε φ σ α := fun s => .ok a s

def bind (x : Prog ε φ σ α) (f : α → Prog ε φ σ β) : Prog ε φ σ β := fun s =>
  match x s with
  | .ok a s' => f a s'
  | .err e s' => .err e s'
  | .halt h s' => .halt h s'
  | .stuck => .stuck

instance : Monad (Prog ε φ σ) where
  pure := Prog.pure
  bind := Prog.bind

/-- Read the state. -/
def get : Prog ε φ σ σ := fun s => .ok s s

/-- Read a part of the state. -/
def gets (f : σ → α) : Prog ε φ σ α := fun s => .ok (f s) s

/-- Change the state. -/
def modify (f : σ → σ) : Prog ε φ σ Unit := fun s => .ok () (f s)

/-- Return an error code. -/
def throw (e : ε) : Prog ε φ σ α := fun s => .err e s

/-- The process is killed. -/
def halt (f : φ) : Prog ε φ σ α := fun s => .halt f s

/-- Undefined behaviour. -/
def stuck : Prog ε φ σ α := fun _ => .stuck

/-- Make a call only under a condition. -/
def when (c : Prop) [Decidable c] (x : Prog ε φ σ Unit) : Prog ε φ σ Unit :=
  if c then x else Prog.pure ()

/-- Run a call whose error code the caller looks at itself (or ignores). -/
def attempt (x : Prog ε φ σ α) : Prog ε φ σ (Except ε α) := fun s =>
  match x s with
  | .ok a s' => .ok (.ok a) s'
  | .err e s' => .ok (.error e) s'
  | .halt h s' => .halt h s'
  | .stuck => .stuck

/-- Run a call and change the state once more when it returns an error code. -/
def onErr (x : Prog ε φ σ α) (f : ε → σ → σ) : Prog ε φ σ α := fun s =>
  match x s with
  | .ok a s' => .ok a s'
  | .err e s' => .err e (f e s')
  | .halt h s' => .halt h s'
  | .stuck => .stuck

/-- Run a call on the part `get` of a larger state and put the result back. -/
def zoom {τ : Type} (get : τ → σ) (put : τ → σ → τ) (x : Prog ε φ σ α) : Prog ε φ τ α := fun t =>
  match x (get t) with
  | .ok a s => .ok a (put t s)
  | .err e s => .err e (put t s)
  | .halt h s => .halt h (put t s)
  | .stuck => .stuck

/-- Make a call a number of times and collect the results. -/
def times (x : Prog ε φ σ α) : Nat → Prog ε φ σ (List α)
  | 0 => Pure.pure []
  | k + 1 => do
    let as ← times x k
    let a ← x
    Pure.pure (as ++ [a])

end Prog

variable {ε φ σ α β : Type} {x : Prog ε φ σ α}

/-- The weakest precondition of a call. -/
def wp (x : Prog ε φ σ α) (Q : α → σ → Prop) (X : Exits ε φ σ) (s : σ) : Prop :=
  match x s with
  | .ok a s' => Q a s'
  | .err e s' => X.err e s'
  | .halt h s' => X.halt h s'
  | .stuck => X.stuck

variable {Q Q' : α → σ → Prop} {X X' : Exits ε φ σ} {s : σ}

/-! ## Rules -/

@[simp] theorem wp_pure (a : α) : wp (Prog.pure a : Prog ε φ σ α) Q X s = Q a s := rfl

@[simp] theorem wp_pure' (a : α) :
    wp (Pure.pure a : Prog ε φ σ α) Q X s = Q a s := rfl

@[simp] theorem wp_get {Q : σ → σ → Prop} : wp (Prog.get : Prog ε φ σ σ) Q X s = Q s s := rfl

@[simp] theorem wp_gets (f : σ → α) : wp (Prog.gets f : Prog ε φ σ α) Q X s = Q (f s) s := rfl

@[simp] theorem wp_modify (f : σ → σ) {Q : Unit → σ → Prop} :
    wp (Prog.modify f : Prog ε φ σ Unit) Q X s = Q () (f s) := rfl

@[simp] theorem wp_throw (e : ε) : wp (Prog.throw e : Prog ε φ σ α) Q X s = X.err e s := rfl

@[simp] theorem wp_stuck : wp (Prog.stuck : Prog ε φ σ α) Q X s = X.stuck := rfl

@[simp] theorem wp_bind (x : Prog ε φ σ α) (f : α → Prog ε φ σ β) {Q : β → σ → Prop} :
    wp (x >>= f) Q X s = wp x (fun a s' => wp (f a) Q X s') X s := by
  show wp (Prog.bind x f) Q X s = _
  unfold wp Prog.bind
  cases x s <;> rfl

@[simp] theorem wp_ite (c : Prop) [Decidable c] (x y : Prog ε φ σ α) :
    wp (if c then x else y) Q X s ↔ (c → wp x Q X s) ∧ (¬ c → wp y Q X s) := by
  by_cases h : c <;> simp [h]

@[simp] theorem wp_when (c : Prop) [Decidable c] (x : Prog ε φ σ Unit) {Q : Unit → σ → Prop} :
    wp (Prog.when c x) Q X s ↔ (c → wp x Q X s) ∧ (¬ c → Q () s) := by
  unfold Prog.when
  simp

@[simp] theorem wp_attempt (x : Prog ε φ σ α) {Q : Except ε α → σ → Prop} :
    wp (Prog.attempt x) Q X s
      = wp x (fun a => Q (.ok a)) ⟨fun e => Q (.error e), X.halt, X.stuck⟩ s := by
  unfold wp Prog.attempt
  cases x s <;> rfl

@[simp] theorem wp_onErr (x : Prog ε φ σ α) (f : ε → σ → σ) :
    wp (Prog.onErr x f) Q X s = wp x Q ⟨fun e s' => X.err e (f e s'), X.halt, X.stuck⟩ s := by
  unfold wp Prog.onErr
  cases x s <;> rfl

@[simp] theorem wp_zoom {τ : Type} (get : τ → σ) (put : τ → σ → τ) (x : Prog ε φ σ α)
    {Q : α → τ → Prop} {X : Exits ε φ τ} {t : τ} :
    wp (Prog.zoom get put x) Q X t = wp x (fun a s => Q a (put t s))
      ⟨fun e s => X.err e (put t s), fun f s => X.halt f (put t s), X.stuck⟩ (get t) := by
  unfold wp Prog.zoom
  cases x (get t) <;> rfl

theorem wp_mono (h : wp x Q X s) (hQ : ∀ a s', Q a s' → Q' a s')
    (hE : ∀ e s', X.err e s' → X'.err e s') (hH : ∀ f s', X.halt f s' → X'.halt f s')
    (hU : X.stuck → X'.stuck) : wp x Q' X' s := by
  unfold wp at *
  cases hx : x s with
  | ok a s' => rw [hx] at h; exact hQ a s' h
  | err e s' => rw [hx] at h; exact hE e s' h
  | halt f s' => rw [hx] at h; exact hH f s' h
  | stuck => rw [hx] at h; exact hU h

theorem wp_post (h : wp x Q X s) (hQ : ∀ a s', Q a s' → Q' a s') : wp x Q' X s :=
  wp_mono h hQ (fun _ _ h => h) (fun _ _ h => h) id

theorem wp_and (h : wp x Q X s) (h' : wp x Q' X' s) :
    wp x (fun a s' => Q a s' ∧ Q' a s')
      ⟨fun e s' => X.err e s' ∧ X'.err e s', fun f s' => X.halt f s' ∧ X'.halt f s',
        X.stuck ∧ X'.stuck⟩ s := by
  unfold wp at *
  cases hx : x s <;> rw [hx] at h h' <;> exact ⟨h, h'⟩

theorem wp_ok (h : wp x Q X s) {a : α} {s' : σ} (hx : x s = .ok a s') : Q a s' := by
  unfold wp at h; rw [hx] at h; exact h

theorem ok_of_wp (h : wp x Q X s) (herr : ∀ e s', ¬ X.err e s') (hhalt : ∀ f s', ¬ X.halt f s')
    (hstuck : ¬ X.stuck) : ∃ a s', x s = .ok a s' ∧ Q a s' := by
  unfold wp at h
  cases hx : x s with
  | ok a s' => exact ⟨a, s', rfl, by rwa [hx] at h⟩
  | err e s' => exact absurd (by rwa [hx] at h) (herr e s')
  | halt f s' => exact absurd (by rwa [hx] at h) (hhalt f s')
  | stuck => exact absurd (by rwa [hx] at h) hstuck

theorem wp_of_eq {a : α} {s' : σ}
    (h : wp x (fun b t => b = a ∧ t = s') ⟨fun _ _ => False, fun _ _ => False, False⟩ s) :
    x s = .ok a s' := by
  obtain ⟨b, t, hx, rfl, rfl⟩ := ok_of_wp h (fun _ _ h => h) (fun _ _ h => h) id
  exact hx

theorem wp_eq_ok {a : α} {s' : σ} (hx : x s = .ok a s') : wp x Q X s = Q a s' := by
  unfold wp
  rw [hx]

theorem wp_err (h : wp x Q X s) {e : ε} {s' : σ} (hx : x s = .err e s') : X.err e s' := by
  unfold wp at h; rw [hx] at h; exact h

theorem wp_halted (h : wp x Q X s) {f : φ} {s' : σ} (hx : x s = .halt f s') : X.halt f s' := by
  unfold wp at h; rw [hx] at h; exact h

theorem wp_run (x : Prog ε φ σ α) (s : σ) :
    wp x (fun a t => x s = .ok a t)
      ⟨fun e t => x s = .err e t, fun f t => x s = .halt f t, x s = .stuck⟩ s := by
  unfold wp
  cases h : x s <;> rfl

theorem ok_bind {f : α → Prog ε φ σ β} {b : β} {s' : σ} (h : (x >>= f) s = .ok b s') :
    ∃ a s1, x s = .ok a s1 ∧ f a s1 = .ok b s' := by
  change Prog.bind x f s = _ at h
  unfold Prog.bind at h
  cases hx : x s with
  | ok a s1 =>
    rw [hx] at h
    exact ⟨a, s1, rfl, h⟩
  | err e s1 => rw [hx] at h; cases h
  | halt f s1 => rw [hx] at h; cases h
  | stuck => rw [hx] at h; cases h

theorem stuck_of_wp (h : wp x Q X s) (hok : ∀ a s', ¬ Q a s') (herr : ∀ e s', ¬ X.err e s')
    (hhalt : ∀ f s', ¬ X.halt f s') : x s = .stuck := by
  unfold wp at h
  cases hx : x s with
  | ok a s' => rw [hx] at h; exact absurd h (hok a s')
  | err e s' => rw [hx] at h; exact absurd h (herr e s')
  | halt f s' => rw [hx] at h; exact absurd h (hhalt f s')
  | stuck => rfl

/-- The value and the state of a normal return. -/
def Prog.value (x : Prog ε φ σ α) (s : σ) : Option (α × σ) :=
  match x s with
  | .ok a s' => some (a, s')
  | _ => none

theorem ok_of_value {v : α × σ} (h : Prog.value x s = some v) : x s = .ok v.1 v.2 := by
  unfold Prog.value at h
  cases hx : x s <;> rw [hx] at h <;> cases h
  rfl

/-- Exits that nothing is said about. -/
def Prog.free : Exits ε φ σ := ⟨fun _ _ => True, fun _ _ => True, True⟩

theorem wp_free (h : wp x Q X s) (hQ : ∀ a s', Q a s' → Q' a s') : wp x Q' Prog.free s :=
  wp_mono h hQ (fun _ _ _ => trivial) (fun _ _ _ => trivial) fun _ => trivial

theorem wp_free_of (h : ∀ a s', x s = .ok a s' → Q a s') : wp x Q Prog.free s :=
  wp_free (wp_run x s) h

/-- Whether a call returns normally, with a value that passes a test. -/
def Prog.returns (x : Prog ε φ σ α) (test : α → Bool) (s : σ) : Bool :=
  match x s with
  | .ok a _ => test a
  | _ => false

/-- The state a call leaves behind when it returns. -/
def Prog.after (x : Prog ε φ σ α) (s : σ) : σ :=
  match x s with
  | .ok _ s' => s'
  | _ => s

theorem ok_of_returns {test : α → Bool} (h : Prog.returns x test s = true) :
    ∃ a, x s = .ok a (Prog.after x s) ∧ test a = true := by
  unfold Prog.returns at h
  unfold Prog.after
  cases hx : x s with
  | ok a s' =>
    rw [hx] at h
    exact ⟨a, rfl, h⟩
  | err e s' => rw [hx] at h; cases h
  | halt f s' => rw [hx] at h; cases h
  | stuck => rw [hx] at h; cases h

/-- Whether a call returns an error code, with a code and a state that pass a test. -/
def Prog.fails (x : Prog ε φ σ α) (test : ε → σ → Bool) (s : σ) : Bool :=
  match x s with
  | .err e s' => test e s'
  | _ => false

theorem err_of_fails {test : ε → σ → Bool} (h : Prog.fails x test s = true) :
    ∃ e s', x s = .err e s' ∧ test e s' = true := by
  unfold Prog.fails at h
  cases hx : x s with
  | err e s' =>
    rw [hx] at h
    exact ⟨e, s', rfl, h⟩
  | ok a s' => rw [hx] at h; cases h
  | halt f s' => rw [hx] at h; cases h
  | stuck => rw [hx] at h; cases h

/-- Whether a call ends at a halt, with a point and a state that pass a test. -/
def Prog.halts (x : Prog ε φ σ α) (test : φ → σ → Bool) (s : σ) : Bool :=
  match x s with
  | .halt f s' => test f s'
  | _ => false

theorem halt_of_halts {test : φ → σ → Bool} (h : Prog.halts x test s = true) :
    ∃ f s', x s = .halt f s' ∧ test f s' = true := by
  unfold Prog.halts at h
  cases hx : x s with
  | halt f s' =>
    rw [hx] at h
    exact ⟨f, s', rfl, h⟩
  | ok a s' => rw [hx] at h; cases h
  | err e s' => rw [hx] at h; cases h
  | stuck => rw [hx] at h; cases h

theorem wp_of_returns {test : α → Bool} (h : Prog.returns x test s = true) :
    wp x (fun a _ => test a = true) ⟨fun _ _ => False, fun _ _ => False, False⟩ s := by
  unfold Prog.returns at h
  unfold wp
  cases hx : x s <;> rw [hx] at h
  · exact h
  all_goals cases h

/-- A call that is made `k` times, with an invariant `I` that counts the calls and results that depend
on the count only. -/
theorem wp_times {I : Nat → σ → Prop} {r : α → β} {f : Nat → β}
    (hstep : ∀ c s, I c s → wp x (fun a s' => I (c + 1) s' ∧ r a = f c) X s) (h : I 0 s) (k : Nat) :
    wp (Prog.times x k) (fun as s' => I k s' ∧ as.map r = (List.range k).map f) X s := by
  induction k with
  | zero => exact ⟨h, rfl⟩
  | succ k ih =>
    rw [Prog.times, wp_bind]
    refine wp_post ih ?_
    rintro as s' ⟨hI, has⟩
    rw [wp_bind]
    refine wp_post (hstep k s' hI) ?_
    rintro a s'' ⟨hI', ha⟩
    refine ⟨hI', ?_⟩
    rw [map_append, has, range_succ, map_append, map_singleton, ha,
      map_singleton]

/-! ## Predicates that a call keeps -/

/-- Whatever the call does, it keeps `I`. -/
def Preserves (I : σ → Prop) (x : Prog ε φ σ α) : Prop :=
  ∀ s, I s → wp x (fun _ s' => I s') ⟨fun _ s' => I s', fun _ s' => I s', True⟩ s

section Preserves

variable {I : σ → Prop}

theorem Preserves.wp (hx : Preserves I x) (hs : I s) (hQ : ∀ a s', I s' → Q a s')
    (hE : ∀ e s', I s' → X.err e s') (hH : ∀ f s', I s' → X.halt f s') (hU : X.stuck) :
    Outcome.wp x Q X s :=
  wp_mono (hx s hs) hQ hE hH fun _ => hU

theorem Preserves.free (hx : Preserves I x) (hs : I s) (hQ : ∀ a s', I s' → Q a s') :
    Outcome.wp x Q Prog.free s := wp_free (hx s hs) hQ

theorem Preserves.pure (a : α) : Preserves I (Pure.pure a : Prog ε φ σ α) := fun _ h => h

theorem Preserves.get : Preserves I (Prog.get : Prog ε φ σ σ) := fun _ h => h

theorem Preserves.gets (f : σ → α) : Preserves I (Prog.gets f : Prog ε φ σ α) := fun _ h => h

theorem Preserves.throw (e : ε) : Preserves I (Prog.throw e : Prog ε φ σ α) := fun _ h => h

theorem Preserves.stuck : Preserves I (Prog.stuck : Prog ε φ σ α) := fun _ _ => trivial

theorem Preserves.modify {f : σ → σ} (h : ∀ s, I s → I (f s)) :
    Preserves I (Prog.modify f : Prog ε φ σ Unit) := h

theorem Preserves.bind {f : α → Prog ε φ σ β} (hx : Preserves I x) (hf : ∀ a, Preserves I (f a)) :
    Preserves I (x >>= f) := by
  intro s hs
  rw [wp_bind]
  exact wp_post (hx s hs) fun a s' h => hf a s' h

theorem Preserves.ite {c : Prop} [Decidable c] {y : Prog ε φ σ α} (hx : Preserves I x)
    (hy : Preserves I y) : Preserves I (if c then x else y) := by
  split <;> assumption

theorem Preserves.when {c : Prop} [Decidable c] {x : Prog ε φ σ Unit} (hx : Preserves I x) :
    Preserves I (Prog.when c x) := by
  unfold Prog.when
  split
  · exact hx
  · exact .pure ()

theorem Preserves.attempt (hx : Preserves I x) : Preserves I (Prog.attempt x) := by
  intro s hs
  rw [wp_attempt]
  exact hx s hs

theorem Preserves.onErr {f : ε → σ → σ} (hx : Preserves I x) (hf : ∀ e s, I s → I (f e s)) :
    Preserves I (Prog.onErr x f) := by
  intro s hs
  rw [wp_onErr]
  exact wp_mono (hx s hs) (fun _ _ h => h) (fun e s' h => hf e s' h)
    (fun _ _ h => h) id

end Preserves

end Outcome
