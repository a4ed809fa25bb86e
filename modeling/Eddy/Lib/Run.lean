import Mathlib.Logic.Basic

/-!
# Runs of a system

A system is a step function `step : S → A → Option S` on states `S` and events `A`; an event that
cannot happen in a state gives `none`. `Run step ok s t` says that `t` is reached from `s` by steps
that all meet the condition `ok`.

* `Run.invariant`: what a step keeps, every run keeps;
* `exec`, `ExecOk`, `Run.of_exec`: the run on a given list of events;
* `exec_keeps_or`: a predicate that each step keeps or trades for another one holds after the list,
  or the other one held after a part of it; `not_keeps_or`: a list on which it is lost.
-/

namespace Runs

variable {S A : Type} {step : S → A → Option S} {ok : S → A → Prop}

/-- The states reached by steps that all meet `ok`. -/
inductive Run (step : S → A → Option S) (ok : S → A → Prop) : S → S → Prop where
  | refl (s : S) : Run step ok s s
  | tail {s t u : S} (a : A) (h : Run step ok s t) (hok : ok t a) (hs : step t a = some u) :
      Run step ok s u

namespace Run

theorem single {s t : S} {a : A} (hok : ok s a) (hs : step s a = some t) : Run step ok s t :=
  .tail a (.refl s) hok hs

theorem trans {s t u : S} (h : Run step ok s t) (h' : Run step ok t u) : Run step ok s u := by
  induction h' with
  | refl => exact h
  | tail a _ hok hs ih => exact .tail a ih hok hs

theorem invariant {I : S → Prop} (hstep : ∀ s a t, I s → ok s a → step s a = some t → I t)
    {s t : S} (h : Run step ok s t) (hs : I s) : I t := by
  induction h with
  | refl => exact hs
  | tail a _ hok hst ih => exact hstep _ a _ ih hok hst

end Run

/-- The state after a list of events. -/
def exec (step : S → A → Option S) : List A → S → Option S
  | [], s => some s
  | a :: rest, s => (step s a).bind (exec step rest)

theorem exec_append (l l' : List A) (s : S) :
    exec step (l ++ l') s = (exec step l s).bind (exec step l') := by
  induction l generalizing s with
  | nil => rfl
  | cons a rest ih =>
    show (step s a).bind (exec step (rest ++ l')) = _
    rw [exec, Option.bind_assoc]
    congr 1
    funext t
    exact ih t

/-- Every step on the list meets `ok`. -/
def ExecOk (step : S → A → Option S) (ok : S → A → Prop) : List A → S → Prop
  | [], _ => True
  | a :: rest, s => ok s a ∧ ∀ t, step s a = some t → ExecOk step ok rest t

instance [∀ s a, Decidable (ok s a)] : ∀ (l : List A) (s : S), Decidable (ExecOk step ok l s)
  | [], _ => .isTrue .intro
  | a :: rest, s =>
    have : Decidable (∀ t, step s a = some t → ExecOk step ok rest t) :=
      match step s a with
      | none => .isTrue nofun
      | some t =>
        have := instDecidableExecOk rest t
        decidable_of_iff (ExecOk step ok rest t)
          ⟨fun ht _ e => Option.some.inj e ▸ ht, fun ht => ht t rfl⟩
    inferInstanceAs (Decidable (_ ∧ _))

theorem ExecOk.trivial (l : List A) (s : S) : ExecOk step (fun _ _ => True) l s := by
  induction l generalizing s with
  | nil => exact .intro
  | cons a rest ih => exact ⟨.intro, fun t _ => ih t⟩

theorem Run.of_exec {l : List A} {s t : S} (hok : ExecOk step ok l s)
    (h : exec step l s = some t) : Run step ok s t := by
  induction l generalizing s with
  | nil =>
    cases h
    exact .refl _
  | cons a rest ih =>
    obtain ⟨m, hm, hrest⟩ := Option.bind_eq_some_iff.mp h
    exact (Run.single hok.1 hm).trans (ih (hok.2 m hm) hrest)

/-- A predicate that each step keeps or trades for `Q` holds after a list of events, or `Q` held
after the first ones of them. -/
theorem exec_keeps_or {P Q : S → Prop}
    (hstep : ∀ s a t, P s → ok s a → step s a = some t → P t ∨ Q t) {l : List A} {s t : S}
    (hok : ExecOk step ok l s) (h : exec step l s = some t) (hs : P s) :
    P t ∨ ∃ n m, exec step (l.take n) s = some m ∧ Q m := by
  induction l generalizing s with
  | nil =>
    cases h
    exact .inl hs
  | cons a rest ih =>
    obtain ⟨m, hm, hrest⟩ := Option.bind_eq_some_iff.mp h
    have hfirst : ∀ n, exec step ((a :: rest).take (n + 1)) s = exec step (rest.take n) m := by
      intro n
      rw [List.take_succ_cons, exec, hm]
      rfl
    rcases hstep s a m hs hok.1 hm with hp | hq
    · rcases ih (hok.2 m hm) hrest hp with hp' | ⟨n, u, hu, hq⟩
      · exact .inl hp'
      · exact .inr ⟨n + 1, u, (hfirst n).trans hu, hq⟩
    · exact .inr ⟨1, m, hfirst 0, hq⟩

/-- Events after which the predicate does not hold, without the other one on the way. -/
theorem not_keeps_or {P Q : S → Prop} [DecidablePred P] [DecidablePred Q] {before after : List A}
    {s0 s : S} (hs : exec step before s0 = some s)
    (hend : (exec step (before ++ after) s0).any (fun t => decide (¬ P t)) = true)
    (hway : ∀ n ≤ after.length,
      (exec step (before ++ after.take n) s0).all (fun t => decide (¬ Q t)) = true) :
    ¬ ∀ t, exec step after s = some t →
      P t ∨ ∃ n m, exec step (after.take n) s = some m ∧ Q m := by
  have hafter : ∀ l, exec step l s = exec step (before ++ l) s0 := by
    intro l
    rw [exec_append, hs]
    rfl
  intro h
  obtain ⟨t, ht, hp⟩ := (Option.any_eq_true _ _).mp hend
  rcases h t ((hafter after).trans ht) with hP | ⟨n, m, hm, hq⟩
  · exact of_decide_eq_true hp hP
  · have hno := hway (min n after.length) (Nat.min_le_right ..)
    rw [← hafter, ← List.take_eq_take_min, hm] at hno
    exact of_decide_eq_true hno hq

end Runs
