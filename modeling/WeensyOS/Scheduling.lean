import WeensyOS.Refinement

/-!
# Round-robin scheduling

While a runnable process waits, every selection by `schedule` moves `current` closer to it in the
cyclic order of slots, and nothing else moves `current`. So no process is selected twice before it.
-/

namespace WeensyOS
open Runs

/-- How many slots after `a` the slot `b` comes in cyclic order, from 1 to `NPROC`. -/
def cyclicDistance (a b : ℕ) : ℕ := (b + (nProc - 1) - a) % nProc + 1

/-- A selection that passes no runnable slot gets closer to every other runnable slot. -/
theorem FirstRunnableAfter.closer {state : ℕ → ProcState} {cur p q : ℕ}
    (h : FirstRunnableAfter state cur p) (hcur : cur < 16) (hq : q < 16)
    (hrun : state q = .runnable) (hne : p ≠ q) : cyclicDistance p q < cyclicDistance cur q := by
  obtain ⟨d, h1, h2, rfl, -, hfirst⟩ := h
  have hreach : (cur + cyclicDistance cur q) % nProc = q := by
    simp only [cyclicDistance, nProc]
    omega
  have hle : d ≤ cyclicDistance cur q := by
    by_contra! hlt
    have hpass := hfirst (cyclicDistance cur q) (by unfold cyclicDistance; omega) hlt
    rw [hreach] at hpass
    exact hpass hrun
  have hlt : d ≠ cyclicDistance cur q := by
    rintro rfl
    exact hne hreach
  simp only [cyclicDistance, nProc] at *
  omega

theorem step_selection {L : KernelLayout} {M M' : Machine} {e : Event} (hM : RunOk M)
    (hs : M.step L e = some M') (ho : M'.outcome = .schedule) :
    FirstRunnableAfter M'.kernel.states M.kernel.currentProc.pid M'.kernel.current := by
  cases e with
  | store va b =>
      obtain ⟨t, -, -, -, -, rfl⟩ := Machine.step_store hs
      cases ho
  | trap cpu t =>
      obtain ⟨hres, k, o, he, rfl⟩ := Machine.step_trap hs
      obtain ⟨-, heff⟩ := exception_effect hM.table (hM.runnable hres) he
      have hpid : M.kernel.currentProc.pid = M.kernel.current := hM.table.pid _
      rw [hpid]
      exact scheduleLoop_some hM.table.current (heff.schedule ho)

theorem step_no_selection {L : KernelLayout} {M M' : Machine} {e : Event} (hM : RunOk M)
    (hs : M.step L e = some M') (ho : M'.outcome = .run) :
    M'.kernel.current = M.kernel.current := by
  cases e with
  | store va b =>
      obtain ⟨t, -, -, -, -, rfl⟩ := Machine.step_store hs
      rfl
  | trap cpu t =>
      obtain ⟨hres, k, o, he, rfl⟩ := Machine.step_trap hs
      obtain ⟨-, heff⟩ := exception_effect hM.table (hM.runnable hres) he
      exact heff.run ho

/-- One step towards the waiting process `q`: a selection comes strictly closer, and anything else
that goes on running keeps the distance. -/
theorem step_distance {L : KernelLayout} {M M' : Machine} {e : Event} {q : ℕ} (hM : RunOk M)
    (hs : M.step L e = some M') (hq : M'.kernel.states q = .runnable)
    (hsel : ¬ (M'.outcome = .schedule ∧ M'.kernel.current = q)) :
    (M'.outcome = .schedule →
      cyclicDistance M'.kernel.current q < cyclicDistance M.kernel.current q) ∧
    (M'.outcome.resumed = true →
      cyclicDistance M'.kernel.current q ≤ cyclicDistance M.kernel.current q) := by
  have hq16 : q < 16 := by
    by_contra! hge
    rw [(step_runOk hM hs).table.above q hge] at hq
    cases hq
  have hstrict (ho : M'.outcome = .schedule) :
      cyclicDistance M'.kernel.current q < cyclicDistance M.kernel.current q := by
    have hfirst := step_selection hM hs ho
    rw [show M.kernel.currentProc.pid = M.kernel.current from hM.table.pid _] at hfirst
    exact hfirst.closer hM.table.current hq16 hq (fun hc => hsel ⟨ho, hc⟩)
  refine ⟨hstrict, fun hres => ?_⟩
  cases ho : M'.outcome with
  | run => rw [step_no_selection hM hs ho]
  | schedule => exact (hstrict ho).le
  | spin => rw [ho] at hres; cases hres
  | returned => rw [ho] at hres; cases hres

/-- Along a stretch in which `q` waits, the distance to `q` does not grow. -/
theorem distance_antitone {L : KernelLayout} {s : ℕ → Machine} {e : ℕ → Event} {n q : ℕ}
    (hrun : IsRun (Machine.step L) s e n) (hok : ∀ i ≤ n, RunOk (s i))
    (hwait : ∀ i ≤ n, (s i).kernel.states q = .runnable)
    (hsel : ∀ i < n, ¬ ((s (i + 1)).outcome = .schedule ∧ (s (i + 1)).kernel.current = q))
    {i d : ℕ} (h : i + d < n) :
    cyclicDistance (s (i + d)).kernel.current q ≤ cyclicDistance (s i).kernel.current q := by
  induction d with
  | zero => exact le_rfl
  | succ d ih =>
      have hstep := (step_distance (hok (i + d) (by omega)) (hrun (i + d) (by omega))
        (hwait (i + d + 1) (by omega)) (hsel (i + d) (by omega))).2
        (Machine.step_resumed (hrun _ h))
      exact hstep.trans (ih (by omega))

theorem reach_selection {L : KernelLayout} {images : ℕ → ElfImage} {command : Option String}
    {s : ℕ → Machine} {e : ℕ → Event} {n q : ℕ}
    (hstart : Machine.Reach L images command (fun _ e => e.isOrdinaryTrap) (s 0))
    (hrun : IsRun (Machine.step L) s e n) (hsteps : ∀ i < n, (e i).isOrdinaryTrap) :
    (∀ i < n, (s (i + 1)).outcome = .schedule →
      FirstRunnableAfter (s (i + 1)).kernel.states (s i).kernel.currentProc.pid
        (s (i + 1)).kernel.current ∧ (s (i + 1)).kernel.current ≠ 0) ∧
    (∀ i ≤ n, (∃ p < nProc, (s i).kernel.states p = .runnable) →
      (scheduleLoop (s i).kernel.states nProc (s i).kernel.currentProc.pid).isSome) ∧
    ((∀ i ≤ n, (s i).kernel.states q = .runnable) →
      (∀ i < n, ¬ ((s (i + 1)).outcome = .schedule ∧ (s (i + 1)).kernel.current = q)) →
      ∀ i j, i < j → j < n → (s (i + 1)).outcome = .schedule → (s (j + 1)).outcome = .schedule →
        (s (i + 1)).kernel.current ≠ (s (j + 1)).kernel.current) := by
  have hok (i : ℕ) (hi : i ≤ n) : RunOk (s i) :=
    reach_runOk (hrun.reachable hstart hsteps i hi)
  refine ⟨fun i hi ho => ?_, fun i hi hp => ?_, fun hwait hsel i j hij hj hoi hoj heq => ?_⟩
  · have hfirst := step_selection (hok i (by omega)) (hrun i hi) ho
    refine ⟨hfirst, fun h0 => ?_⟩
    obtain ⟨d, -, -, -, hst, -⟩ := hfirst
    rw [h0, (hok (i + 1) hi).table.zero] at hst
    cases hst
  · obtain ⟨p, hp, hst⟩ := hp
    refine scheduleLoop_isSome ?_ hp hst
    rw [Kernel.currentProc, (hok i hi).table.pid]
    exact (hok i hi).table.current
  · have hlater := (step_distance (hok j (by omega)) (hrun j hj) (hwait (j + 1) (by omega))
      (hsel j hj)).1 hoj
    have hbetween := distance_antitone hrun hok hwait hsel (i := i + 1) (d := j - (i + 1))
      (by omega)
    rw [show i + 1 + (j - (i + 1)) = j by omega, heq] at hbetween
    omega

theorem reach_selection_sample : ∃ M M', Machine.Boots sampleLayout (sampleImages 3) none M ∧
    M.step sampleLayout (.trap (sampleCpu 0) .timer) = some M' ∧ M'.outcome = .schedule ∧
    FirstRunnableAfter M'.kernel.states M.kernel.currentProc.pid M'.kernel.current := by
  obtain ⟨M, hM⟩ := sample_boots sampleLayout 3 none (by decide)
  have hfit := sample_fits sampleLayout 3 none (by decide)
  obtain ⟨w, hboot, hb, hrep, hres⟩ := boots_represents hfit hM
  have hcomplete := World.boot_complete hfit (sample_disjoint 3 none) hboot
  obtain ⟨M', hs, -, ho⟩ := step_exists (sampleCpu 0) .timer hrep hres (hb.checked hcomplete) rfl
    trivial fun ht => by cases ht
  have hsel : M'.outcome = .schedule := by
    obtain ⟨p, hp⟩ := Option.isSome_iff_exists.mp (scheduleLoop_isSome hrep.wf.current
      hrep.wf.current (hrep.runnable hres))
    rw [ho]
    change w.schedule.2 = .schedule
    rw [World.schedule, show nProc = 16 from rfl, hp]
  refine ⟨M, M', hM, hs, hsel, ?_⟩
  exact ((reach_selection (s := fun i => if i = 0 then M else M')
    (e := fun _ => .trap (sampleCpu 0) .timer) (n := 1) (q := 0) (.start hM)
    (fun i hi => by
      obtain rfl : i = 0 := by omega
      exact hs)
    (fun _ _ => rfl)).1 0 Nat.one_pos hsel).1

end WeensyOS
