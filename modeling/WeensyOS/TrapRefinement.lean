import WeensyOS.ForkRefinement

/-!
# The exception handler refines the abstract memory manager

`exit` only reads memory. With it every branch of `exception` has a counterpart on worlds, and one
trap of the kernel that passes `check_virtual_memory` is one trap of the abstract memory manager.
-/

namespace WeensyOS
open ByteMemory World

variable {L : KernelLayout} {m : Memory} {w w' : World} {pt : ℕ → ℕ}

/-- The tables that `INT_SYS_EXIT` finds are the five tables of the process. -/
theorem Tree.exitTables_eq {T : Fin 5 → ℕ} {leaf : ℕ → ℕ} (h : Tree m T leaf) :
    exitTables m (T 0 * 4096) = (List.finRange 5).map T := by
  have haddr (j : Fin 5) : pteAddr (T j * 4096 + 7) = T j * 4096 :=
    pteAddr_frame (by have := h.lt j; omega) (by norm_num)
  have hnum (j : Fin 5) : (pageNumber (T j * 4096)).toNat = T j := by
    have := h.lt j
    rw [pageNumber_eq (by omega), Nat.mul_div_cancel _ (by norm_num)]
    exact Int.toNat_natCast _
  have h1 := h.l1 0 (by norm_num)
  have h2 := h.l2 0 (by norm_num)
  have h3 := h.l3 0 (by norm_num)
  have h4 := h.l3 1 (by norm_num)
  simp only [if_true, one_ne_zero, if_false] at h1 h2 h3 h4
  simp only [exitTables, h1, h2, h3, h4, haddr, List.map_cons, List.map_nil, hnum]
  rfl

theorem World.releaseTables_info {p : ℕ} {js : List (Fin 5)} (hnd : js.Nodup) (w : World) :
    (js.foldl (releaseTable p) w).info = WeensyOS.releaseTables w.info (js.map (w.frames p)) ∧
      ∀ i, (js.foldl (releaseTable p) w).held (p, .page i) = w.held (p, .page i) := by
  induction js generalizing w with
  | nil => exact ⟨rfl, fun _ => rfl⟩
  | cons j js ih =>
      obtain ⟨hj, hnd'⟩ := List.nodup_cons.mp hnd
      obtain ⟨hinfo, hheld⟩ := ih hnd' (releaseTable p w j)
      have hframes : js.map ((releaseTable p w j).frames p) = js.map (w.frames p) := by
        refine List.map_congr_left fun j' hj' => ?_
        have hne : j' ≠ j := by
          rintro rfl
          exact hj hj'
        simp [frames, releaseTable, hne]
      refine ⟨?_, fun i => ?_⟩
      · rw [List.foldl_cons, hinfo, hframes]
        rfl
      · rw [List.foldl_cons, hheld]
        simp [releaseTable]

theorem exitPage_mapping (p : ℕ) (tables : List ℕ) (r : Option Ref) (info : PageInfos) :
    exitPage p tables (Ref.mapping r) info =
      match r with
      | none => info
      | some r => releaseRef p tables r info := by
  rcases r with _ | ⟨pn, b⟩
  · simp [exitPage, Ref.mapping, VaMapping.unmapped]
  · cases b with
    | true => simp [exitPage, Ref.mapping, Ref.perm, releaseRef]
    | false =>
        simp only [exitPage, Ref.mapping, Ref.perm, releaseRef]
        by_cases hc : 0 < pn ∧ (info pn).refcount ≠ 0
        · simp [hc]
        · simp [hc]

theorem exitLoop_ok {p pagetable : ℕ} {tables : List ℕ} (hpt : pagetable ≠ 0) (n i : ℕ)
    (hlook : ∀ x, i ≤ x → x < i + n →
      virtualMemoryLookup m pagetable (x * 4096) = Ref.mapping (w.held (p, .page x))) :
    exitLoop m pagetable p tables n (i * 4096) w.info = (releaseSlots p tables n i w).info := by
  induction n generalizing i w with
  | zero => rfl
  | succ n ih =>
      have hinfo : exitPage p tables (virtualMemoryLookup m pagetable (i * 4096)) w.info =
          (releaseSlot p tables i w).info := by
        rw [hlook i le_rfl (by omega), exitPage_mapping, releaseSlot]
        cases w.held (p, .page i) <;> rfl
      rw [exitLoop, if_pos hpt, hinfo, releaseSlots, pageSize,
        show i * 4096 + 4096 = (i + 1) * 4096 by omega]
      refine ih (i + 1) fun x hx hx' => ?_
      rw [hlook x (by omega) (by omega), releaseSlot]
      have hne : x ≠ i := by omega
      split
      · rfl
      · simp [hne]

theorem sysExit_pageinfo {k : Kernel} {tables : List ℕ}
    (h : exitTables k.mem k.currentProc.pagetable = tables) :
    (sysExit k).pageinfo = exitLoop k.mem k.currentProc.pagetable k.currentProc.pid tables userPages
      (256 * 4096) (WeensyOS.releaseTables k.pageinfo tables) := by
  subst h
  simp only [sysExit, Nat.reduceMul]

theorem sysExit_ok {k : Kernel} (h : Sim L k w) (hw : w.Wf L) (hrun : w.Live w.current) :
    Sim L (sysExit k) w.exit ∧ (sysExit k).mem = k.mem := by
  have hpt : k.currentProc.pagetable = w.frames w.current 0 * 4096 := by
    rw [Kernel.currentProc, h.current]
    exact h.mem.root _ hrun
  have hpid : k.currentProc.pid = w.current := by
    rw [Kernel.currentProc, h.pid, h.current]
  have hn : 256 + userPages ≤ 1024 := by norm_num
  have hlook (x : ℕ) (hx : 256 ≤ x) (hx' : x < 256 + userPages) :
      virtualMemoryLookup k.mem k.currentProc.pagetable (x * 4096) =
        Ref.mapping (w.held (w.current, .page x)) := by
    have := h.mem.lookup_user hw hrun hx (by omega)
    rw [Kernel.currentProc, h.current]
    exact this
  have htables : exitTables k.mem k.currentProc.pagetable =
      (List.finRange 5).map (w.frames w.current) := by
    rw [hpt]
    exact (h.mem.tree _ hrun).exitTables_eq
  obtain ⟨hrel, hheld⟩ := releaseTables_info (p := w.current) (List.nodup_finRange 5) w
  have hinfo : (sysExit k).pageinfo = w.exit.info := by
    have hpt0 : k.currentProc.pagetable ≠ 0 := by
      have := hw.zero_ne_frames _ hrun 0
      omega
    rw [sysExit_pageinfo htables, hpid, h.info, ← hrel,
      exitLoop_ok hpt0 userPages 256 fun x hx hx' => by rw [hlook x hx hx', hheld]]
    simp only [World.exit, drop, setState_info, procStartAddr, pageSize, Nat.reduceDiv]
  have hcur := exit_current hw hrun
  have hfield (q : ℕ) : ((sysExit k).processes q).pid = (k.processes q).pid ∧
      ((sysExit k).processes q).pagetable = (k.processes q).pagetable ∧
      ((sysExit k).processes q).state = if q = k.current then .free else (k.processes q).state := by
    rw [sysExit_processes, Function.update_apply]
    split_ifs with hq
    · rw [hq]
      exact ⟨rfl, rfl, rfl⟩
    · exact ⟨rfl, rfl, rfl⟩
  have hmem : (sysExit k).mem = k.mem := by simp only [sysExit, Kernel.updateProc_mem]
  refine ⟨Sim.of_parts (fun p => (k.processes p).pagetable) hinfo ?_
    (fun q => (hfield q).1.trans (h.pid q)) ?_ (fun q _ => (hfield q).2.1) ?_, hmem⟩
  · rw [exit_state hw hrun, ← h.state, ← h.current]
    funext q
    rw [Function.update_apply]
    exact (hfield q).2.2
  · rw [sysExit_current, h.current, hcur]
  · rw [hmem]
    have hsub (q : ℕ) (hq : w.exit.Live q) : q ≠ w.current ∧ w.Live q := by
      rw [Live, exit_state hw hrun, Function.update_apply] at hq
      split_ifs at hq with hqc
      · exact absurd rfl hq
      · exact ⟨hqc, hq⟩
    have hsame (q : ℕ) (hq : q ≠ w.current) (s : Slot) : w.exit.held (q, s) = w.held (q, s) := by
      rw [exit_held hw hrun, if_neg hq]
    have hframes (q : ℕ) (hq : q ≠ w.current) : w.exit.frames q = w.frames q := by
      funext j
      rw [frames, frames, hsame q hq]
    have hleaf (q : ℕ) (hq : q ≠ w.current) : w.exit.leaf q = w.leaf q := by
      funext i
      rw [leaf, leaf, hsame q hq]
    refine ⟨h.mem.kernel, fun q hq => ?_, fun q hq => ?_⟩
    · rw [hframes q (hsub q hq).1]
      exact h.mem.root q (hsub q hq).2
    · rw [hframes q (hsub q hq).1, hleaf q (hsub q hq).1]
      exact h.mem.tree q (hsub q hq).2

/-- The pages that the branch of a trap may write to. -/
def TrapTouched (w w' : World) (next : Next) (pn : ℕ) : Prop :=
  pn = consolePage ∨ (∃ j, pn = w.frames w.current j) ∨ ForkTouched w w' next pn

/-- A page fault that user code caused. Other traps come from user code anyway. -/
def Trap.user : Trap → Prop
  | .pagefault err _ => err.toNat &&& pferrUser ≠ 0
  | _ => True

section dispatch
variable {k : Kernel} {cpu : Cpu} {t : Trap} (h : Sim L k w) (hw : w.Wf L) (hrun : w.Live w.current)
  (hreg : k.currentProc.registers = Registers.ofWords (trapFrame cpu t))
include h hw hrun hreg

theorem dispatch_pageAlloc (ht : t = .pageAlloc) (halloc : w.AllocOk cpu.rdi.toNat) :
    ∃ k', dispatch k (Registers.ofWords (trapFrame cpu t)) t.cr2 = .ok (k', .break) ∧
      Sim L k' (w.pageAlloc w.current cpu.rdi.toNat) ∧
      AgreeOff 4096 (fun pn => ∃ j, pn = w.frames w.current j) k.mem k'.mem := by
  have hpt : k.currentProc.pagetable = (k.processes w.current).pagetable := by
    rw [Kernel.currentProc, h.current]
  have hpid : k.currentProc.pid = w.current := by rw [Kernel.currentProc, h.pid, h.current]
  obtain ⟨m', hok, hm', ha⟩ := sysPageAllocFindFree_ok cpu.rdi.toNat h.mem hw hrun hw.current
    cpu.rdi.isLt halloc
  obtain ⟨hst, hcur⟩ := pageAlloc_state w w.current cpu.rdi.toNat
  unfold dispatch
  rw [intno_ofWords, hreg, hpt, hpid, h.info]
  subst t
  change ∃ k', (sysPageAllocFindFree k.mem w.info (k.processes w.current).pagetable w.current
    cpu.rdi.toNat >>= _) = _ ∧ _
  rw [hok, ok_bind]
  refine ⟨_, rfl, Sim.setRax ?_ _ _, ha⟩
  exact ⟨rfl, h.state.trans hst.symm, h.pid, h.current.trans hcur.symm, hm'⟩

theorem dispatch_pagefault {err : BitVec 64} {cr2 : ℕ} (ht : t = .pagefault err cr2)
    (huser : t.user) :
    ∃ k', dispatch k (Registers.ofWords (trapFrame cpu t)) t.cr2 = .ok (k', .break) ∧
      Sim L k' (w.setState w.current .broken) ∧ AgreeOff 4096 (· = consolePage) k.mem k'.mem := by
  subst t
  have herr : ¬ (Registers.ofWords (trapFrame cpu (.pagefault err cr2))).regErr.toNat &&&
      pferrUser = 0 := huser
  have hprint := agreeOff_consolePrintf k.mem (cpos 24 0) 0x0C00 (pagefaultMessage
    k.currentProc.pid (Registers.ofWords (trapFrame cpu (.pagefault err cr2))) cr2)
  unfold dispatch
  rw [intno_ofWords]
  simp only [Trap.intno, Trap.cr2, if_neg herr]
  generalize (consolePrintf k.mem (cpos 24 0) 0x0C00 (pagefaultMessage k.currentProc.pid
    (Registers.ofWords (trapFrame cpu (.pagefault err cr2))) cr2)).1 = m' at hprint ⊢
  have hfield (q : ℕ) : ((({ k with mem := m' } : Kernel).updateProc k.current
      (fun q => { q with state := .broken })).processes q).pid = (k.processes q).pid ∧
      ((({ k with mem := m' } : Kernel).updateProc k.current
      (fun q => { q with state := .broken })).processes q).pagetable = (k.processes q).pagetable ∧
      ((({ k with mem := m' } : Kernel).updateProc k.current
      (fun q => { q with state := .broken })).processes q).state =
        if q = k.current then .broken else (k.processes q).state := by
    rw [Kernel.updateProc_apply]
    split_ifs with hq
    · rw [hq]
      exact ⟨rfl, rfl, rfl⟩
    · exact ⟨rfl, rfl, rfl⟩
  refine ⟨_, rfl, Sim.of_parts (fun p => (k.processes p).pagetable) h.info ?_
    (fun q => (hfield q).1.trans (h.pid q)) h.current (fun q _ => (hfield q).2.1) ?_, hprint⟩
  · rw [setState_state, ← h.state, ← h.current]
    funext q
    rw [Function.update_apply]
    exact (hfield q).2.2
  · have hlive (q : ℕ) : (w.setState w.current .broken).Live q ↔ w.Live q := live_broken hrun q
    have hm := h.mem.console_frame hw hprint
    exact ⟨hm.kernel, fun q hq => hm.root q ((hlive q).mp hq),
      fun q hq => hm.tree q ((hlive q).mp hq)⟩

theorem dispatch_ok (hchk : w.Checked L) (ht : t.ordinary = true) (huser : t.user)
    (halloc : t = .pageAlloc → w.AllocOk cpu.rdi.toNat) :
    ∃ k', dispatch k (Registers.ofWords (trapFrame cpu t)) t.cr2 =
        .ok (k', (w.dispatch t cpu.rdi.toNat).2) ∧
      Sim L k' (w.dispatch t cpu.rdi.toNat).1 ∧
      AgreeOff 4096 (TrapTouched w (w.dispatch t cpu.rdi.toNat).1 (w.dispatch t cpu.rdi.toNat).2)
        k.mem k'.mem := by
  have hn := intno_ofWords cpu t
  cases t with
  | timer =>
      refine ⟨{ k with ticks := (k.ticks + 1) % 2 ^ 32 }, by unfold dispatch; rw [hn]; rfl, ?_,
        AgreeOff.refl _ _ _⟩
      exact ⟨h.info, h.state, h.pid, h.current, h.mem⟩
  | pagefault err cr2 =>
      obtain ⟨k', hd, hs, ha⟩ := dispatch_pagefault h hw hrun hreg rfl huser
      exact ⟨k', hd, hs, ha.mono fun _ => Or.inl⟩
  | gpf err => cases ht
  | syscall n =>
      fin_cases n
      any_goals cases ht
      · exact ⟨k.setRax k.current (BitVec.ofNat 64 k.currentProc.pid),
          by unfold dispatch; rw [hn]; rfl, h.setRax _ _, AgreeOff.refl _ _ _⟩
      · exact ⟨k, by unfold dispatch; rw [hn]; rfl, h, AgreeOff.refl _ _ _⟩
      · obtain ⟨k', hd, hs, ha⟩ := dispatch_pageAlloc h hw hrun hreg rfl (halloc rfl)
        exact ⟨k', hd, hs, ha.mono fun _ hj => Or.inr (Or.inl hj)⟩
      · obtain ⟨k', hd, hs, ha⟩ := sysFork_ok h hw hchk hrun
        refine ⟨k', ?_, hs, ha.mono fun _ hj => Or.inr (Or.inr hj)⟩
        unfold dispatch
        rw [hn]
        exact hd
      · obtain ⟨hs, hm⟩ := sysExit_ok h hw hrun
        refine ⟨sysExit k, by unfold dispatch; rw [hn]; rfl, hs, ?_⟩
        rw [hm]
        exact AgreeOff.refl _ _ _

end dispatch

theorem run_ok {k : Kernel} (h : Sim L k w) {p : ℕ} (hp : w.state p = .runnable) :
    run L k p = .ok { k with current := p } ∧
      Sim L { k with current := p } { w with current := p } := by
  have hlive : w.Live p := by
    rw [Live, hp]
    decide
  have hstate : (k.processes p).state = .runnable := by
    rw [← hp, ← h.state]
    rfl
  refine ⟨?_, h.info, h.state, h.pid, rfl, h.mem.of_held rfl rfl⟩
  unfold run
  rw [assert_true hstate, ok_bind, h.mem.setPagetable_live hlive, ok_bind]
  rfl

theorem schedule_ok {k : Kernel} (h : Sim L k w) (hw : w.Wf L) :
    ∃ k', schedule L k = .ok (k', w.schedule.2) ∧ Sim L k' w.schedule.1 ∧ k'.mem = k.mem := by
  have hpid : k.currentProc.pid = w.current := by rw [Kernel.currentProc, h.pid, h.current]
  unfold WeensyOS.schedule World.schedule
  rw [h.state, hpid]
  cases hl : scheduleLoop w.state nProc w.current with
  | none => exact ⟨k, rfl, h, rfl⟩
  | some p =>
      obtain ⟨d, -, -, -, hp, -⟩ := scheduleLoop_some hw.current hl
      obtain ⟨hr, hs⟩ := run_ok h hp
      exact ⟨_, by dsimp only; rw [hr]; rfl, hs, rfl⟩

theorem leave_ok {k : Kernel} (h : Sim L k w) (hw : w.Wf L) (next : Next) :
    ∃ k', leave L k next = .ok (k', (w.leave next).2) ∧ Sim L k' (w.leave next).1 ∧
      k'.mem = k.mem := by
  cases next with
  | «return» => exact ⟨k, rfl, h, rfl⟩
  | schedule => exact schedule_ok h hw
  | «break» =>
      have hstate : k.currentProc.state = w.state w.current := by
        rw [← h.state, ← h.current]
        rfl
      simp only [WeensyOS.leave, World.leave, hstate]
      split_ifs with hc
      · obtain ⟨hr, hs⟩ := run_ok h hc
        rw [h.current, hr]
        exact ⟨_, rfl, hs, rfl⟩
      · exact schedule_ok h hw

theorem World.Wf.schedule (hw : w.Wf L) : w.schedule.1.Wf L := by
  unfold World.schedule
  cases hl : scheduleLoop w.state nProc w.current with
  | none => exact hw
  | some p =>
      obtain ⟨d, -, -, hp, -, -⟩ := scheduleLoop_some hw.current hl
      refine hw.of_info rfl rfl ?_ fun _ _ => rfl
      rw [hp]
      exact Nat.mod_lt _ (by norm_num)

theorem World.Wf.leave (hw : w.Wf L) (next : Next) : (w.leave next).1.Wf L := by
  unfold World.leave
  split
  · exact hw
  · exact hw.schedule
  · split_ifs
    · exact hw
    · exact hw.schedule

theorem World.Wf.dispatch (hw : w.Wf L) (hchk : w.Checked L) (hrun : w.Live w.current) (t : Trap)
    {addr : ℕ} (halloc : t = .pageAlloc → w.AllocOk addr) : (w.dispatch t addr).1.Wf L := by
  unfold World.dispatch
  split
  · exact hw
  · exact hw
  · exact hw.pageAlloc hrun (halloc rfl)
  · exact hw.fork hchk hrun
  · exact hw.exit hrun
  · exact hw.broken hrun
  · exact hw

theorem World.Wf.trap (hw : w.Wf L) (hchk : w.Checked L) (hrun : w.Live w.current) (t : Trap)
    {addr : ℕ} (halloc : t = .pageAlloc → w.AllocOk addr) : (w.trap t addr).1.Wf L :=
  (hw.dispatch hchk hrun t halloc).leave _

/-- A process that is resumed is runnable. -/
theorem World.trap_runnable (hw : w.Wf L) (hchk : w.Checked L) (hrun : w.Live w.current) (t : Trap)
    {addr : ℕ} (halloc : t = .pageAlloc → w.AllocOk addr)
    (ho : (w.trap t addr).2.resumed = true) :
    (w.trap t addr).1.state (w.trap t addr).1.current = .runnable := by
  have hw₁ := hw.dispatch hchk hrun t halloc
  unfold World.trap at ho ⊢
  generalize w.dispatch t addr = r at hw₁ ho ⊢
  obtain ⟨w₁, next⟩ := r
  have hsched (h : w₁.schedule.2.resumed = true) :
      w₁.schedule.1.state w₁.schedule.1.current = .runnable := by
    unfold World.schedule at h ⊢
    cases hl : scheduleLoop w₁.state nProc w₁.current with
    | none =>
        rw [hl] at h
        cases h
    | some p =>
        obtain ⟨d, -, -, -, hp, -⟩ := scheduleLoop_some hw₁.current hl
        exact hp
  unfold World.leave at ho ⊢
  cases next with
  | «return» => cases ho
  | schedule => exact hsched ho
  | «break» =>
      dsimp only at ho ⊢
      split_ifs at ho ⊢ with hc
      · exact hc
      · exact hsched ho

section exception
variable {k : Kernel} {cpu : Cpu} {t : Trap}

theorem showsMemory_of_ordinary (cpu : Cpu) (ht : t.ordinary = true) (huser : t.user) :
    showsMemory (Registers.ofWords (trapFrame cpu t)) := by
  unfold showsMemory
  rw [intno_ofWords, err_ofWords]
  cases t with
  | timer => exact Or.inl (by decide)
  | pagefault err cr2 => exact Or.inr huser
  | gpf err => cases ht
  | syscall n =>
      have := n.isLt
      simp only [Trap.intno]
      omega

/-- One trap, from a state that passes the kernel's own check. -/
theorem exception_ok (h : Sim L k w) (hw : w.Wf L) (hrun : w.Live w.current) (hchk : w.Checked L)
    (ht : t.ordinary = true) (huser : t.user)
    (halloc : t = .pageAlloc → w.AllocOk cpu.rdi.toNat) :
    ∃ k', exception L k (Registers.ofWords (trapFrame cpu t)) t.cr2 =
        .ok (k', (w.trap t cpu.rdi.toNat).2) ∧
      Sim L k' (w.trap t cpu.rdi.toNat).1 ∧
      AgreeOff 4096 (TrapTouched w (w.dispatch t cpu.rdi.toNat).1 (w.dispatch t cpu.rdi.toNat).2)
        k.mem k'.mem := by
  have h₁ : Sim L (k.updateProc k.current
      (fun q => { q with registers := Registers.ofWords (trapFrame cpu t) })) w :=
    h.updateProc _ fun _ => ⟨rfl, rfl, rfl⟩
  obtain ⟨m, lt, sh, hshow, ha⟩ := h₁.showMemory_ok hw hchk
    (showsMemory_of_ordinary cpu ht huser)
  have h₂ : Sim L { k.updateProc k.current
      (fun q => { q with registers := Registers.ofWords (trapFrame cpu t) }) with
      mem := m, lastTicks := lt, showing := sh } w :=
    ⟨h₁.info, h₁.state, h₁.pid, h₁.current, h₁.mem.console_frame hw ha⟩
  obtain ⟨k₃, hd, h₃, ha₃⟩ := dispatch_ok h₂ hw hrun
    (show _ = Registers.ofWords (trapFrame cpu t) by simp [Kernel.currentProc]) hchk ht huser halloc
  obtain ⟨k', hl, h', hmem⟩ := leave_ok h₃ (hw.dispatch hchk hrun t halloc)
    (w.dispatch t cpu.rdi.toNat).2
  refine ⟨k', ?_, h', ?_⟩
  · unfold exception
    dsimp only
    rw [Kernel.updateProc_mem, setPagetable_kernel h.mem.kernel, ok_bind, hshow, ok_bind, hd,
      ok_bind]
    exact hl
  · rw [hmem]
    exact (ha.mono fun _ => Or.inl).trans ha₃

/-- A trap that the kernel survives passed the check and asked for nothing unaligned. -/
theorem exception_checked (h : Sim L k w) (hw : w.Wf L) (ht : t.ordinary = true) {k' : Kernel}
    {o : Outcome}
    (he : exception L k (Registers.ofWords (trapFrame cpu t)) t.cr2 = .ok (k', o)) :
    t.user ∧ w.Checked L ∧ (t = .pageAlloc → procStartAddr ≤ cpu.rdi.toNat →
      (lowestFree w.info).isSome → cpu.rdi.toNat % 4096 = 0) := by
  obtain ⟨m, lt, sh, k₂, next, hd, -⟩ := exception_inv he
  have huser : t.user := by
    cases t with
    | pagefault err cr2 =>
        intro herr
        unfold dispatch at hd
        rw [intno_ofWords] at hd
        simp only [Trap.intno] at hd
        rw [if_pos (show (Registers.ofWords (trapFrame cpu (.pagefault err cr2))).regErr.toNat &&&
          pferrUser = 0 from herr)] at hd
        cases hd
    | _ => trivial
  have hsim : Sim L (k.updateProc k.current
      (fun q => { q with registers := Registers.ofWords (trapFrame cpu t) })) w :=
    h.updateProc _ fun _ => ⟨rfl, rfl, rfl⟩
  refine ⟨huser, ?_, fun hp hlow hfree => ?_⟩
  · unfold exception at he
    dsimp only at he
    rw [bind_eq_ok] at he
    obtain ⟨_, -, he⟩ := he
    rw [bind_eq_ok] at he
    obtain ⟨k₁, hshow, -⟩ := he
    exact (hsim.check_iff hw).mp (showMemory_checks (showsMemory_of_ordinary cpu ht huser) hshow)
  · by_contra hodd
    subst t
    rw [← h.info] at hfree
    unfold dispatch at hd
    rw [intno_ofWords] at hd
    simp only [Trap.intno, Kernel.currentProc, Kernel.updateProc_current, Kernel.updateProc_same,
      Kernel.updateProc_pageinfo] at hd
    change (sysPageAllocFindFree m k.pageinfo (k.processes k.current).pagetable
      (k.processes k.current).pid cpu.rdi.toNat >>= _) = _ at hd
    rw [sysPageAllocFindFree_unaligned _ hlow hfree hodd] at hd
    cases hd

end exception

end WeensyOS
