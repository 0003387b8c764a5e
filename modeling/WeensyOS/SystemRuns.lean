import WeensyOS.SystemRefinement

/-!
# Runs of the machine are runs of the system

In both directions: what the machine does in a disciplined run the system can do, and what the
system can do next the machine does, since none of the kernel's assertions fails.
-/

namespace WeensyOS
open ByteMemory World Runs

variable {L : KernelLayout} {images : ℕ → ElfImage} {command : Option String} {M M' : Machine}
  {w : World}

/-- The processor runs the current process with the registers of its descriptor. -/
def Machine.Loaded (M : Machine) : Prop := M.cpu = exceptionReturn M.kernel.currentProc.registers

theorem reach_loaded {ok : Machine → Event → Prop} (h : Machine.Reach L images command ok M) :
    M.Loaded := by
  refine h.invariant ?_ fun M e M' hM _ hs => ?_
  · rintro M ⟨m, k, -, rfl⟩
    rfl
  · cases e with
    | store va b =>
        obtain ⟨t, -, -, -, -, rfl⟩ := Machine.step_store hs
        exact hM
    | trap cpu t =>
        obtain ⟨-, k, o, -, rfl⟩ := Machine.step_trap hs
        rfl

/-- A disciplined run of the machine, state by state and step by step, is a run of the system in
which the running process has the processor's registers. -/
theorem run_system (hfit : ImagesFit L images command) (hdisj : ImagesDisjoint images command)
    {s : ℕ → Machine} {e : ℕ → Event} {n : ℕ}
    (hstart : Machine.Reach L images command Disciplined (s 0))
    (hrun : IsRun (Machine.step L) s e n) (hsteps : ∀ i < n, Disciplined (s i) (e i)) :
    (∀ i < n, System.Step (s i).kernel.system (e i) (s (i + 1)).kernel.system
      (s (i + 1)).outcome) ∧
    ∀ i ≤ n, (s i).outcome.resumed = true →
      ∃ p, (s i).kernel.system.process (s i).kernel.system.current = some p ∧
        p.cpu = (s i).cpu ∧ p.runnable = true := by
  have hreach := hrun.reachable hstart hsteps
  constructor
  · intro i hi
    obtain ⟨w, hw, hex⟩ := reach_exact hfit hdisj (fun _ _ he => he) (hreach i hi.le)
    exact step_system hw hex (hsteps i hi) (hrun i hi)
  · intro i hi hres
    obtain ⟨w, hw, -⟩ := reach_exact hfit hdisj (fun _ _ he => he) (hreach i hi)
    refine ⟨_, hw.current_process (hw.live hres), (reach_loaded (hreach i hi)).symm, ?_⟩
    exact decide_eq_true (hw.runnable hres)

theorem run_system_sample : ∃ M M',
    Machine.Boots sampleLayout (sampleImages 0) (some "fork") M ∧
    M.step sampleLayout (.trap (sampleCpu 0) .fork) = some M' ∧
    System.Step M.kernel.system (.trap (sampleCpu 0) .fork) M'.kernel.system M'.outcome := by
  obtain ⟨M, hM⟩ := sample_boots sampleLayout 0 (some "fork") (by decide)
  obtain ⟨w, hw, hrep, hres⟩ := sample_world sampleLayout (by norm_num) hM
  obtain ⟨M', hs, -, -⟩ := step_exists (sampleCpu 0) .fork hrep hres
    (hw.booting.checked hw.complete) rfl trivial fun ht => by cases ht
  have hdisc := sample_fork_disciplined hw (by norm_num) hrep hres
  refine ⟨M, M', hM, hs, ?_⟩
  have hsys := (run_system (s := fun i => if i = 0 then M else M')
    (e := fun _ => .trap (sampleCpu 0) .fork) (n := 1) (sample_fits _ _ _ (by decide))
    (sample_disjoint _ _) (.start hM)
    (fun i hi => by
      obtain rfl : i = 0 := by omega
      exact hs)
    (fun i hi => by
      obtain rfl : i = 0 := by omega
      exact hdisc)).1 0 (by norm_num)
  rwa [if_pos rfl, if_neg (by norm_num)] at hsys

/-! Progress. -/

/-- Discipline that also keeps the owners of shared pages alive. -/
def Orderly (M : Machine) (e : Event) : Prop := Disciplined M e ∧ NoOrphan M e

theorem reach_owned (hfit : ImagesFit L images command) (hdisj : ImagesDisjoint images command)
    (h : Machine.Reach L images command Orderly M) :
    Tracks L (fun w => w.Exact L ∧ w.Owned) M := by
  refine reach_represents hfit (fun w hboot hb => ?_) (fun M w e hw hinv he => ?_)
    (fun M w cpu t hw hres _ hinv he => ?_) h
  · exact ⟨Tallied.of_booting _ hb (boot_complete hfit hdisj hboot), Owned.of_booting hb⟩
  · exact he.1.admits hw hinv.1
  · obtain ⟨hex, hown⟩ := hinv
    obtain ⟨hdisc, horphan⟩ := he
    have hrun := hw.live hres
    have hreg := hdisc.regular hw hrun hex
    refine ⟨hex.trap hw.wf hrun hreg, hown.trap hex hw.wf hrun hreg fun ht pn hu ho => ?_⟩
    rw [← hw.sim.info] at ho ⊢
    rw [← hw.sim.current] at ho
    exact horphan ht pn hu.lt ho

/-- The events that user code can cause: page faults come from user mode, and addresses are
canonical. -/
def Event.fromUser : Event → Prop
  | .store va _ => va < 2 ^ 47
  | .trap _ t => t.user

theorem Machine.step_store_eq {va : ℕ} {b : UInt8} {t : Translation}
    (hres : M.outcome.resumed = true)
    (ht : walk M.kernel.mem M.kernel.currentProc.pagetable va = some t)
    (hva : va < 2 ^ 47) (hw : t.writable = true) (hu : t.user = true) :
    ∃ M', M.step L (.store va b) = some M' := by
  simp only [Machine.step, hres, userStore, ht, hw, hu, hva]
  simp

theorem Represents.store_exists {va : ℕ} {b : UInt8} {S' : System} {o : Outcome}
    (h : Represents L M w) (hres : M.outcome.resumed = true)
    (hva : va < 2 ^ 47) (hstep : System.Step M.kernel.system (.store va b) S' o) :
    ∃ M', M.step L (.store va b) = some M' := by
  have hrun := h.live hres
  have hwalk (t : Translation)
      (ht : walk M.kernel.mem (M.kernel.processes w.current).pagetable va = some t)
      (hw : t.writable = true) (hu : t.user = true) : ∃ M', M.step L (.store va b) = some M' := by
    rw [← h.sim.current] at ht
    exact Machine.step_store_eq hres ht hva hw hu
  cases hstep with
  | console hcons =>
      simp only [pageSize, consolePage] at hcons
      exact hwalk _ (h.sim.mem.walk_kernel hrun (by omega)) rfl (decide_eq_true hcons)
  | store hp hcell =>
      have hown := h.current_process hrun
      obtain rfl := Option.some.inj (hown.symm.trans hp)
      dsimp only at hcell
      rw [h.sim.current] at hcell
      by_cases hrange : procStartAddr ≤ va ∧ va < memsizeVirtual
      · rw [h.memory_eq hrun hrange, Option.map_eq_some_iff] at hcell
        obtain ⟨r, hr, hc⟩ := hcell
        have htop : va < 0x400000 := by
          have := hrange.2
          simp only [memsizeVirtual] at this
          omega
        have ht := h.sim.mem.walk_user h.wf hrun hrange.1 htop
        rw [hr] at ht
        exact hwalk _ ht (congrArg Cell.writable hc) rfl
      · rw [Kernel.memory_outside hrange] at hcell
        cases hcell

/-- Every trap of a process that runs is served. -/
theorem reach_trap_exists (hfit : ImagesFit L images command)
    (hdisj : ImagesDisjoint images command) (h : Machine.Reach L images command Orderly M)
    (hres : M.outcome.resumed = true) {cpu : Cpu} {t : Trap} (hd : Disciplined M (.trap cpu t))
    (huser : t.user) : ∃ M', M.step L (.trap cpu t) = some M' := by
  obtain ⟨w, hw, hex, hown⟩ := reach_owned hfit hdisj h
  have hchk := hown.checked hex hw.wf fun pn hu => hex.held_of_pos hu
  have hreg := hd.regular hw (hw.live hres) hex
  obtain ⟨M', hs, -, -⟩ := step_exists cpu t hw hres hchk hd.1 huser fun ht =>
    ⟨fun _ _ => (hreg.range ht).1, fun hlow hfree hin =>
      (hreg.range ht).high hlow hfree hin (hreg.range ht).1⟩
  exact ⟨M', hs⟩

/-- The kernel never panics: whatever step the system can make, the machine makes one. -/
theorem reach_progress (hfit : ImagesFit L images command)
    (hdisj : ImagesDisjoint images command) (h : Machine.Reach L images command Orderly M)
    (hres : M.outcome.resumed = true) {e : Event} (hd : Disciplined M e) (huser : e.fromUser)
    {S' : System} {o : Outcome} (hstep : System.Step M.kernel.system e S' o) :
    ∃ M', M.step L e = some M' ∧ M'.outcome ≠ .returned ∧
      System.Step M.kernel.system e M'.kernel.system M'.outcome := by
  obtain ⟨w, hw, hex, -⟩ := reach_owned hfit hdisj h
  have hexists : ∃ M', M.step L e = some M' := by
    cases e with
    | store va b => exact hw.store_exists hres huser hstep
    | trap cpu t => exact reach_trap_exists hfit hdisj h hres hd huser
  obtain ⟨M', hs⟩ := hexists
  have hsys := step_system hw hex hd hs
  exact ⟨M', hs, hsys.ne_returned, hsys⟩

theorem reach_progress_sample : ∃ M M',
    Machine.Boots sampleLayout (sampleImages 0) (some "fork") M ∧
    M.step sampleLayout (.trap (sampleCpu 7) .getpid) = some M' ∧ M'.outcome ≠ .returned := by
  obtain ⟨M, hM⟩ := sample_boots sampleLayout 0 (some "fork") (by decide)
  obtain ⟨w, -, hrep, hres⟩ := sample_world sampleLayout (by norm_num) hM
  obtain ⟨M', hs, hout, -⟩ := reach_progress (e := .trap (sampleCpu 7) .getpid)
    (sample_fits _ _ _ (by decide)) (sample_disjoint _ _) (.start hM) hres
    ⟨rfl, nofun, nofun⟩ trivial
    (.getpid (hrep.current_process (hrep.live hres)))
  exact ⟨M, M', hM, hs, hout⟩

end WeensyOS
