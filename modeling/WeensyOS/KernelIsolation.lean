import WeensyOS.Refinement

/-!
# The kernel's half of every address space

Below `PROC_START_ADDR` every page table agrees with the kernel's own: addresses are mapped to
themselves, and users have access to the console only. `page_alloc` compares its argument as a
64-bit number with `PROC_START_ADDR`, while a page walk reads only 48 of its bits, so it keeps this
only for arguments whose low 48 bits do not fall below `PROC_START_ADDR` either.
-/

namespace WeensyOS
open ByteMemory World

/-- Every process sees the kernel's half of memory as the kernel does. -/
def KernelIsolated (L : KernelLayout) (k : Kernel) : Prop :=
  ∀ p, k.Live p → ∀ va < procStartAddr,
    walk k.mem (k.processes p).pagetable va = walk k.mem L.kernelPagetables va ∧
    walk k.mem (k.processes p).pagetable va =
      some ⟨va, true, decide (va / pageSize = consoleAddr / pageSize)⟩

/-- No `page_alloc` gets a page for an aligned address that is high as a number and low as an
address. -/
def NoLowAlias (M : Machine) : Event → Prop
  | .store _ _ => True
  | .trap cpu t => t = .pageAlloc → (freePages M.kernel.pageinfo).Nonempty →
      procStartAddr ≤ cpu.rdi.toNat → cpu.rdi.toNat % pageSize = 0 →
      procStartAddr ≤ cpu.rdi.toNat % 2 ^ 48

theorem Tree.walk_identity {m : Memory} {T : Fin 5 → ℕ} {leaf : ℕ → ℕ} (h : Tree m T leaf) {va : ℕ}
    (hva : va < 0x100000) (hleaf : leaf (va / 4096) = kernelLeaf (va / 4096)) :
    walk m (T 0 * 4096) va = some ⟨va, true, decide (va / 4096 = 0xB8)⟩ := by
  rw [h.walk_eq, if_pos (by unfold inTree; omega),
    show va / 4096 % 1024 = va / 4096 by omega, hleaf]
  exact Translation.ofEntry_kernelLeaf hva

variable {L : KernelLayout} {images : ℕ → ElfImage} {command : Option String} {M : Machine}
  {w : World}

theorem Represents.kernelIsolated (h : Represents L M w) : KernelIsolated L M.kernel := by
  intro p hp va hva
  have hlive := (h.sim.live p).mp hp
  have hown : walk M.kernel.mem L.kernelPagetables va =
      some ⟨va, true, decide (va / 4096 = 0xB8)⟩ := by
    rw [← L.tables_zero]
    exact h.sim.mem.kernel.walk_identity hva
      (kernelOwnLeaf_kernel _ (by simp only [procStartAddr] at hva; omega))
  have hproc := h.sim.mem.walk_kernel hlive hva
  exact ⟨hproc.trans hown.symm, hproc⟩

theorem NoLowAlias.high {cpu : Cpu} (h : Represents L M w)
    (hlow : NoLowAlias M (.trap cpu .pageAlloc)) :
    w.AllocHigh cpu.rdi.toNat := by
  intro hge hfree hin halign
  have hne : (freePages M.kernel.pageinfo).Nonempty := by
    rwa [h.sim.info, freePages_nonempty]
  have hmod := hlow rfl hne hge halign
  unfold inTree at hin
  simp only [procStartAddr] at hmod
  omega

/-- Along every run whose `page_alloc` calls respect the boundary in the low 48 bits of their
argument, too, no mapping below `PROC_START_ADDR` is ever replaced or exposed. -/
theorem reach_kernelIsolated (hfit : ImagesFit L images command)
    (h : Machine.Reach L images command (fun M e => e.isOrdinaryTrap = true ∧ NoLowAlias M e) M) :
    KernelIsolated L M.kernel := by
  have htracks : Tracks L (fun _ => True) M := by
    apply reach_represents hfit (fun _ _ _ => trivial) _ (fun _ _ _ _ _ _ _ _ _ => trivial) h
    intro M w e hw _ he
    cases e with
    | store va b => cases he.1
    | trap cpu t =>
        refine ⟨he.1, fun ht => ?_⟩
        subst ht
        exact NoLowAlias.high hw he.2
  obtain ⟨w, hw, -⟩ := htracks
  exact hw.kernelIsolated

theorem reach_kernelIsolated_sample : ∃ M, Machine.Reach sampleLayout (sampleImages 3) none
    (fun M e => e.isOrdinaryTrap = true ∧ NoLowAlias M e) M ∧
    KernelIsolated sampleLayout M.kernel := by
  obtain ⟨M, hM⟩ := sample_boots sampleLayout 3 none (by decide)
  exact ⟨M, .start hM, reach_kernelIsolated (sample_fits _ _ _ (by decide)) (.start hM)⟩

/-- `page_alloc` at an address whose low 48 bits fall below the kernel: the call succeeds, and the
caller's table has the new page there. -/
theorem exception_lowAlias {k : Kernel} (cpu : Cpu) {pn : ℕ} (h : Sim L k w) (hw : w.Wf L)
    (hrun : w.state w.current = .runnable) (hchk : w.Checked L)
    (halign : cpu.rdi.toNat % 4096 = 0) (hge : procStartAddr ≤ cpu.rdi.toNat)
    (hin : inTree cpu.rdi.toNat) (hlow : cpu.rdi.toNat / 4096 % 1024 < 64)
    (hpn : lowestFree w.info = some pn) :
    ∃ k', exception L k (Registers.ofWords (trapFrame cpu .pageAlloc)) 0 = .ok (k', .run) ∧
      k'.Live w.current ∧ (k'.processes w.current).pagetable = w.frames w.current 0 * 4096 ∧
      Tree k'.mem (w.frames w.current)
        (Function.update (w.leaf w.current) (cpu.rdi.toNat / 4096 % 1024) (pn * 4096 + 7)) := by
  set p := w.current with hp
  have hlive : w.Live p := by
    rw [Live, hrun]
    decide
  have hpn512 := (lowestFree_eq_some hpn).2.1
  set reg := Registers.ofWords (trapFrame cpu .pageAlloc) with hreg
  have h₁ : Sim L (k.updateProc k.current (fun q => { q with registers := reg })) w :=
    h.updateProc _ fun _ => ⟨rfl, rfl, rfl⟩
  obtain ⟨m, lt, sh, hshow, ha⟩ := h₁.showMemory_ok hw hchk
    (showsMemory_of_ordinary cpu rfl trivial : showsMemory reg)
  have hm := h₁.mem.console_frame hw ha
  have hinstall := (hm.tree p hlive).sysPageAlloc w.info p cpu.rdi.isLt
  rw [hpn, toInt8_pid hw.current] at hinstall
  dsimp only at hinstall
  rw [if_neg (not_lt.mpr hge), if_neg (not_not.mpr halign), if_pos hin] at hinstall
  have htree := (hm.tree p hlive).setLeaf (Nat.mod_lt (cpu.rdi.toNat / 4096) (by norm_num))
    (show pn * 4096 + 7 < 2 ^ 64 by omega)
  set m' := setEntry m (leafTable (w.frames p) (cpu.rdi.toNat / 4096 % 1024) * 4096)
    (cpu.rdi.toNat / 4096 % 1024 % 512) (pn * 4096 + 7) with hm'
  have hkernel : Tree m' L.tables kernelOwnLeaf := by
    apply hm.kernel.frame (Tree.agreeOff_tables m (w.frames p) _ _)
    rintro j' ⟨j, hj⟩
    exact hw.frames_ne_kernel hlive j j' hj.symm
  have hset : setPagetable L m' (w.frames p 0 * 4096) = .ok () := by
    apply setPagetable_ok hkernel htree
    intro i hi hi'
    rw [Function.update_of_ne (by omega), w.leaf_kernel p i hi']
  have hroot : (k.processes p).pagetable = w.frames p 0 * 4096 := h.mem.root p hlive
  have hstate : (k.processes p).state = .runnable := by
    rw [← hrun, ← h.state]
    rfl
  have hpid : (k.processes p).pid = p := h.pid p
  rw [← h.info] at hinstall
  generalize Function.update k.pageinfo pn ⟨p, 1⟩ = info at hinstall
  -- The kernel after the call, and after its return to the caller.
  let k₂ : Kernel := { k.updateProc k.current (fun q => { q with registers := reg }) with
    mem := m, lastTicks := lt, showing := sh }
  let k₃ : Kernel := ({ k₂ with mem := m', pageinfo := info } : Kernel).setRax k.current 0
  have hproc : k₃.processes p = { k.processes p with registers := { reg with regRax := 0 } } := by
    have hcur : k.current = p := h.current
    simp [k₃, k₂, Kernel.setRax, Kernel.updateProc, hcur]
  have hdispatch : dispatch k₂ reg 0 = .ok (k₃, .break) := by
    have hpt : k₂.currentProc.pagetable = (k.processes p).pagetable := by
      simp [k₂, Kernel.currentProc, h.current, hp]
    have hpid₂ : k₂.currentProc.pid = p := by
      simp [k₂, Kernel.currentProc, h.current, ← hp, hpid]
    have hreg₂ : k₂.currentProc.registers = reg := by simp [k₂, Kernel.currentProc]
    unfold dispatch
    rw [hreg, intno_ofWords, ← hreg, hreg₂, hpt, hpid₂]
    change (sysPageAllocFindFree m k.pageinfo (k.processes p).pagetable p cpu.rdi.toNat >>= _) = _
    rw [hroot, hinstall]
    rfl
  have hleave : leave L k₃ .break = .ok (k₃, .run) := by
    have hcur₃ : k₃.current = p := h.current
    unfold leave run
    rw [Kernel.currentProc, hcur₃, hproc]
    dsimp only
    rw [if_pos hstate, assert_true hstate, ok_bind, hroot, show k₃.mem = m' from rfl, hset, ok_bind,
      ← hcur₃]
    rfl
  refine ⟨k₃, ?_, ?_, ?_, htree⟩
  · unfold exception
    dsimp only
    rw [Kernel.updateProc_mem, setPagetable_kernel h.mem.kernel, ok_bind, hshow, ok_bind, hdispatch,
      ok_bind]
    exact hleave
  · rw [Kernel.Live, hproc, hstate]
    decide
  · rw [hproc]
    exact hroot

/-- A page at `2 ^ 48 + 0x10000` passes the comparison with `PROC_START_ADDR` and replaces the
kernel's mapping of `0x10000`. -/
theorem not_kernelIsolated : ¬ ∀ M, Machine.Reach sampleLayout (sampleImages 0) (some "fork")
    (fun _ e => e.isOrdinaryTrap = true) M → KernelIsolated sampleLayout M.kernel := by
  intro hall
  obtain ⟨M, hM⟩ := sample_boots sampleLayout 0 (some "fork") (by decide)
  obtain ⟨w, hw, hrep, hres⟩ := sample_world sampleLayout (by norm_num) hM
  have hinit := (card_freePages_init sampleLayout).1
  have hroom := hw.room
  obtain ⟨pn, hpn⟩ := exists_lowestFree (show 0 < (freePages w.info).card by omega)
  have hpn512 := (lowestFree_eq_some hpn).2.1
  obtain ⟨k, he, hlive, hroot, htree⟩ := exception_lowAlias (sampleCpu (2 ^ 48 + 0x10000))
    hrep.sim hrep.wf (hrep.runnable hres) (hw.booting.checked hw.complete) (by decide) (by decide)
    (by decide) (by decide) hpn
  have hreach : Machine.Reach sampleLayout (sampleImages 0) (some "fork")
      (fun _ e => e.isOrdinaryTrap = true) (Machine.resume k .run) :=
    .next (e := .trap (sampleCpu (2 ^ 48 + 0x10000)) .pageAlloc) (.start hM) rfl
      (Machine.step_trap_eq hres he)
  have hwalk := (hall _ hreach w.current hlive 0x10000 (by norm_num)).2
  change walk k.mem (k.processes w.current).pagetable 0x10000 = _ at hwalk
  rw [hroot, htree.walk_eq, if_pos (by decide)] at hwalk
  change Translation.ofEntry (Function.update (w.leaf w.current) 16 (pn * 4096 + 7) 16) _ =
    _ at hwalk
  rw [Function.update_self, show pn * 4096 + 7 = Ref.entry (some ⟨pn, true⟩) from rfl,
    Translation.ofEntry_ref (r := ⟨pn, true⟩) hpn512] at hwalk
  have huser := congrArg (Option.map Translation.user) hwalk
  simp at huser

end WeensyOS
