import Mathlib.Data.Nat.Init
import Mathlib.Tactic.Common

/-!
# Runs of a partial transition function

A system is a partial step function on states and events. `Reachable` collects the states reached
from an initial one by steps that satisfy a side condition `ok` on the state and the event, and
`IsRun` describes a finite stretch of a run, state by state.
-/

namespace Runs

variable {σ ε : Type*} {start : σ → Prop} {step : σ → ε → Option σ} {ok : σ → ε → Prop}

inductive Reachable (start : σ → Prop) (step : σ → ε → Option σ) (ok : σ → ε → Prop) : σ → Prop
  | start {s : σ} (h : start s) : Reachable start step ok s
  | next {s s' : σ} {e : ε} (h : Reachable start step ok s) (hok : ok s e)
      (hs : step s e = some s') : Reachable start step ok s'

namespace Reachable

/-- A property that holds at the start and survives every step holds in every reachable state. -/
theorem invariant {Inv : σ → Prop} (hstart : ∀ s, start s → Inv s)
    (hstep : ∀ s e s', Inv s → ok s e → step s e = some s' → Inv s') {s : σ}
    (h : Reachable start step ok s) : Inv s := by
  induction h with
  | start h => exact hstart _ h
  | next _ hok hs ih => exact hstep _ _ _ ih hok hs

theorem mono {ok' : σ → ε → Prop} (hok : ∀ s e, ok s e → ok' s e) {s : σ}
    (h : Reachable start step ok s) : Reachable start step ok' s := by
  induction h with
  | start h => exact .start h
  | next _ he hs ih => exact ih.next (hok _ _ he) hs

end Reachable

/-- The states `s 0, …, s n` are joined by the steps on `e 0, …, e (n - 1)`. -/
def IsRun (step : σ → ε → Option σ) (s : ℕ → σ) (e : ℕ → ε) (n : ℕ) : Prop :=
  ∀ i < n, step (s i) (e i) = some (s (i + 1))

/-- What every single step keeps, a stretch of a run keeps. -/
theorem IsRun.invariant {s : ℕ → σ} {e : ℕ → ε} {n : ℕ} (h : IsRun step s e n) {Inv : ℕ → Prop}
    (h0 : Inv 0) (hstep : ∀ i < n, step (s i) (e i) = some (s (i + 1)) → Inv i → Inv (i + 1)) :
    ∀ i ≤ n, Inv i := by
  intro i
  induction i with
  | zero => exact fun _ => h0
  | succ i ih => exact fun hi => hstep i (by omega) (h i (by omega)) (ih (by omega))

/-- Every state of a run whose steps satisfy the side condition is reachable if its first one is. -/
theorem IsRun.reachable {s : ℕ → σ} {e : ℕ → ε} {n : ℕ} (h : IsRun step s e n)
    (h0 : Reachable start step ok (s 0)) (hok : ∀ i < n, ok (s i) (e i)) :
    ∀ i ≤ n, Reachable start step ok (s i) :=
  h.invariant h0 (fun i hi hs hr => hr.next (hok i hi) hs)

end Runs
