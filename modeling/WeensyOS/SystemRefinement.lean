import WeensyOS.ProcessView
import WeensyOS.ForkAtomicity

/-!
# The machine is the system that programs see

Every step of a disciplined run of the machine is one step of the `System`: a program cannot tell
the kernel, with its page tables, frames and shared pages, from processes with private memories.
-/

namespace WeensyOS
open ByteMemory World Runs

variable {L : KernelLayout} {M M' : Machine} {w : World} {p q va : ℕ} {cpu : Cpu} {t : Trap}

section view
variable (h : Represents L M w)

include h

theorem Represents.memory_eq (hp : w.Live p) (hva : procStartAddr ≤ va ∧ va < memsizeVirtual) :
    M.kernel.memory p va = (w.held (p, .page (va / 4096))).map (fun r =>
      ⟨r.writable, M.kernel.mem (r.frame * 4096 + va % 4096)⟩) := by
  obtain ⟨hlo, hhi⟩ := hva
  have htop : va < 0x400000 := by
    simp only [memsizeVirtual] at hhi
    omega
  have hview := h.view_eq hp hlo htop
  rw [Kernel.memory, if_pos ⟨hlo, hhi⟩, hview]
  cases w.held (p, .page (va / 4096)) with
  | none => rfl
  | some r => rfl

theorem Represents.process_eq (p : ℕ) : M.kernel.process p =
    if w.state p = .free then none else
      some ⟨exceptionReturn (M.kernel.processes p).registers, M.kernel.memory p,
        w.state p = .runnable⟩ := by
  have hstate : M.kernel.states p = w.state p := congrFun h.sim.state p
  rw [Kernel.process]
  by_cases hfree : w.state p = .free
  · rw [if_pos hfree, if_neg]
    exact not_not.mpr (hstate.trans hfree)
  · rw [if_neg hfree, if_pos, hstate]
    exact fun hc => hfree (hstate.symm.trans hc)

theorem Represents.process_eq_none (p : ℕ) : M.kernel.process p = none ↔ w.state p = .free := by
  rw [h.process_eq p]
  split_ifs with hfree
  · exact iff_of_true rfl hfree
  · exact iff_of_false (by simp) hfree

theorem Represents.runnable_iff (p : ℕ) :
    M.kernel.system.Runnable p ↔ w.state p = .runnable := by
  unfold System.Runnable
  change (∃ q, M.kernel.process p = some q ∧ q.runnable = true) ↔ _
  rw [h.process_eq p]
  constructor
  · rintro ⟨q, hq, hr⟩
    split_ifs at hq with hfree
    obtain rfl := Option.some.inj hq
    exact of_decide_eq_true hr
  · intro hr
    refine ⟨_, if_neg (by rw [hr]; decide), decide_eq_true hr⟩

theorem Represents.tableOk : TableOk M.kernel := by
  refine ⟨(congrFun h.sim.state 0).trans h.wf.zero,
    fun p hp => (congrFun h.sim.state p).trans (h.wf.above p hp), h.sim.pid, ?_⟩
  rw [h.sim.current]
  exact h.wf.current

theorem Represents.current_process (hrun : w.Live w.current) :
    M.kernel.process M.kernel.current = some ⟨exceptionReturn M.kernel.currentProc.registers,
      M.kernel.memory M.kernel.current, w.state w.current = .runnable⟩ := by
  rw [h.process_eq, h.sim.current, if_neg hrun, Kernel.currentProc, h.sim.current]

theorem Represents.firstFree_iff (c : ℕ) : M.kernel.system.FirstFree c ↔
    findFreeSlot w.state (nProc - 1) 1 = some c := by
  have hfree (p : ℕ) : M.kernel.system.process p = none ↔ w.state p = .free := h.process_eq_none p
  unfold System.FirstFree
  simp only [ne_eq, hfree]
  constructor
  · rintro ⟨h1, h2, h3, h4⟩
    cases hs : findFreeSlot w.state (nProc - 1) 1 with
    | none => exact absurd h3 (findFreeSlot_none hs c h1 (by simp only [nProc] at h2 ⊢; omega))
    | some c' =>
        obtain ⟨h1', h2', h3', h4'⟩ := findFreeSlot_some hs
        rcases lt_trichotomy c c' with hlt | rfl | hlt
        · exact absurd h3 (h4' c h1 hlt)
        · rfl
        · exact absurd h3' (h4 c' h1' hlt)
  · intro hs
    obtain ⟨h1, h2, h3, h4⟩ := findFreeSlot_some hs
    exact ⟨h1, by simp only [nProc] at h2 ⊢; omega, h3, h4⟩

end view

/-! What a trap leaves as it was. -/

theorem World.dispatch_other {addr : ℕ} (hw : w.Wf L) (hrun : w.Live w.current)
    (hreg : w.Regular (fun _ => Tally.exact) t addr) (hq : q ≠ w.current) (hlive : w.Live q)
    (s : Slot) : (w.dispatch t addr).1.held (q, s) = w.held (q, s) := by
  have hne (s' : Slot) : (q, s) ≠ (w.current, s') := fun hc => hq (Prod.mk.inj hc).1
  unfold World.dispatch
  split
  · rfl
  · rfl
  · obtain ⟨-, hlo, hhi⟩ := hreg.range rfl
    cases hpn : lowestFree w.info with
    | none => rw [World.pageAlloc, hpn]
    | some pn => rw [pageAlloc_give hlo hhi hpn, give_held, Function.update_of_ne (hne _)]
  · cases hslot : findFreeSlot w.state (nProc - 1) 1 with
    | none => rw [World.fork, hslot]
    | some c =>
        have hroom := hreg.room rfl (by rw [hslot]; rfl)
        obtain ⟨hf, -⟩ := fork_forked hw hrun hslot (by omega)
        refine hf.other q s ?_
        rintro rfl
        exact hlive (findFreeSlot_some hslot).2.2.1
  · exact (exit_held hw hrun _).trans (if_neg hq)
  · rfl
  · rfl

section trap
variable (h : Represents L M w) (hex : w.Exact L) (hd : Disciplined M (.trap cpu t))
  (hs : M.step L (.trap cpu t) = some M')

include h hex hd hs

/-- A page whose entry a trap leaves alone keeps its contents. -/
theorem trap_memory (hp : w.Live p) (hp' : (w.trap t cpu.rdi.toNat).1.Live p)
    (hheld : (w.dispatch t cpu.rdi.toNat).1.held (p, .page (va / 4096)) =
      w.held (p, .page (va / 4096))) : M'.kernel.memory p va = M.kernel.memory p va := by
  by_cases hva : procStartAddr ≤ va ∧ va < memsizeVirtual
  · have hrun := h.live (Machine.step_resumed hs)
    have hadm := hd.admits h hex
    have hreg := hd.regular h hrun hex
    obtain ⟨-, -, hrep', -, hagree⟩ := step_refines h hadm.1 hadm.2 hs
    rw [hrep'.memory_eq hp' hva, h.memory_eq hp hva, World.trap, (leave_same _ _).held, hheld]
    cases hr : w.held (p, .page (va / 4096)) with
    | none => rfl
    | some r =>
        have htouch := hex.not_touched h.wf hrun (w.dispatch t cpu.rdi.toNat).2
          (hex.dispatch h.wf hrun hreg) hr (hheld.trans hr)
        have hbyte : M'.kernel.mem (r.frame * 4096 + va % 4096) =
            M.kernel.mem (r.frame * 4096 + va % 4096) := by
          apply hagree
          rwa [show (r.frame * 4096 + va % 4096) / 4096 = r.frame by omega]
        rw [Option.map_some, Option.map_some, hbyte]
  · rw [Kernel.memory_outside hva, Kernel.memory_outside hva]

/-- Other processes do not notice. -/
theorem trap_other (hq : q ≠ M.kernel.current) (hlive : w.Live q) :
    M'.kernel.process q = M.kernel.process q := by
  have hrun := h.live (Machine.step_resumed hs)
  have hadm := hd.admits h hex
  have hreg := hd.regular h hrun hex
  obtain ⟨-, -, hrep', -, -⟩ := step_refines h hadm.1 hadm.2 hs
  obtain ⟨hres, k, o, he, rfl⟩ := Machine.step_trap hs
  have htable := h.tableOk
  have hstate : M.kernel.currentProc.state = .runnable := by
    rw [Kernel.currentProc, h.sim.current]
    exact (congrFun h.sim.state w.current).trans (h.runnable hres)
  obtain ⟨-, heff⟩ := exception_effect htable hstate he
  have hsame : k.processes q = M.kernel.processes q :=
    heff.other q hq ((h.sim.live q).mpr hlive)
  have hstates : (w.trap t cpu.rdi.toNat).1.state q = w.state q := by
    have hk' : k.states q = (w.trap t cpu.rdi.toNat).1.state q := congrFun hrep'.sim.state q
    have hk : M.kernel.states q = w.state q := congrFun h.sim.state q
    rw [← hk', ← hk, Kernel.states, Kernel.states, hsame]
  have hmemory : (Machine.resume k o).kernel.memory q = M.kernel.memory q := by
    funext va
    refine trap_memory h hex hd hs hlive ?_ ?_
    · rw [Live, hstates]
      exact hlive
    · exact World.dispatch_other h.wf hrun hreg (h.sim.current ▸ hq) hlive _
  have hprocess := hrep'.process_eq q
  rw [hstates, if_neg hlive] at hprocess
  rw [hprocess, h.process_eq q, if_neg hlive]
  change some (Process.mk (exceptionReturn (k.processes q).registers)
    ((Machine.resume k o).kernel.memory q) _) = _
  rw [hsame, hmemory]

omit hex hd in
/-- The registers that the caller gets back. -/
theorem trap_cpu (ho : M'.outcome ≠ .returned) :
    exceptionReturn (M'.kernel.processes M.kernel.current).registers =
      { cpu with rax := callResult M.kernel cpu t } := by
  obtain ⟨hres, k, o, he, rfl⟩ := Machine.step_trap hs
  have hstate : M.kernel.currentProc.state = .runnable := by
    rw [Kernel.currentProc, h.sim.current]
    exact (congrFun h.sim.state w.current).trans (h.runnable hres)
  obtain ⟨-, heff⟩ := exception_effect h.tableOk hstate he
  change exceptionReturn (k.processes M.kernel.current).registers = _
  rw [heff.own ho, trapResult_ofWords, exceptionReturn_trapFrame]

/-- The table of processes after a trap that makes no new one. The caller is `p'`. -/
theorem trap_process {p' : Option Process} {st : ProcState}
    (hstate : (w.dispatch t cpu.rdi.toNat).1.state = Function.update w.state w.current st)
    (hp' : M'.kernel.process M.kernel.current = p') :
    M'.kernel.process = (M.kernel.system.set M.kernel.current p').process := by
  have hrun := h.live (Machine.step_resumed hs)
  have hadm := hd.admits h hex
  obtain ⟨-, -, hrep', -, -⟩ := step_refines h hadm.1 hadm.2 hs
  funext q
  change _ = Function.update M.kernel.process M.kernel.current p' q
  by_cases hq : q = M.kernel.current
  · rw [hq, Function.update_self, hp']
  · rw [Function.update_of_ne hq]
    by_cases hlive : w.Live q
    · exact trap_other h hex hd hs hq hlive
    · have hfree : w.state q = .free := not_not.mp hlive
      rw [(h.process_eq_none q).mpr hfree, hrep'.process_eq_none, World.trap,
        (leave_same _ _).state, hstate, Function.update_of_ne (h.sim.current ▸ hq), hfree]

/-- The caller after a trap that leaves its memory alone. -/
theorem trap_caller {st : ProcState} (ho : M'.outcome ≠ .returned)
    (hstate : (w.dispatch t cpu.rdi.toNat).1.state = Function.update w.state w.current st)
    (hst : st ≠ .free)
    (hheld : ∀ s, (w.dispatch t cpu.rdi.toNat).1.held (w.current, s) = w.held (w.current, s)) :
    M'.kernel.process M.kernel.current = some
      ⟨{ cpu with rax := callResult M.kernel cpu t }, M.kernel.memory M.kernel.current,
        st = .runnable⟩ := by
  have hrun := h.live (Machine.step_resumed hs)
  have hadm := hd.admits h hex
  obtain ⟨-, -, hrep', -, -⟩ := step_refines h hadm.1 hadm.2 hs
  have hst' : (w.trap t cpu.rdi.toNat).1.state w.current = st := by
    rw [World.trap, (leave_same _ _).state, hstate, Function.update_self]
  have hmemory : M'.kernel.memory M.kernel.current = M.kernel.memory M.kernel.current := by
    funext va
    rw [h.sim.current]
    refine trap_memory h hex hd hs hrun ?_ (hheld _)
    rw [Live, hst']
    exact hst
  rw [hrep'.process_eq, trap_cpu h hs ho, hmemory, h.sim.current, hst', if_neg hst]

end trap

/-- The scheduler of the machine chooses as that of the system does. -/
theorem Represents.switch {S : System} (h' : Represents L M' w.schedule.1)
    (ho : M'.outcome = w.schedule.2) (hcur : w.current < 16)
    (hproc : M'.kernel.process = S.process) (hS : S.current = w.current) :
    S.Switch M'.kernel.system M'.outcome := by
  have hstate : w.schedule.1.state = w.state := by
    unfold World.schedule
    split <;> rfl
  have hrunnable (p : ℕ) : S.Runnable p ↔ w.state p = .runnable := by
    have hiff := h'.runnable_iff p
    rw [hstate] at hiff
    rw [← hiff, System.Runnable, System.Runnable]
    exact exists_congr fun q => and_congr_left' (iff_of_eq (congrArg (· = some q)
      (congrFun hproc.symm p)))
  have habove (p : ℕ) (hp : 16 ≤ p) : w.state p = .free := by
    rw [← hstate]
    exact h'.wf.above p hp
  cases hl : scheduleLoop w.state nProc w.current with
  | some p =>
      have hout : w.schedule = ({ w with current := p }, .schedule) := by rw [World.schedule, hl]
      have hcur' : M'.kernel.current = p := by rw [h'.sim.current, hout]
      obtain ⟨d, h1, h2, h3, h4, h5⟩ := scheduleLoop_some hcur hl
      have hsys : M'.kernel.system = { S with current := p } := by
        rw [Kernel.system, hproc, hcur']
      rw [ho, hout, hsys]
      refine .schedule ⟨d, h1, h2, hS ▸ h3, (hrunnable p).mpr h4, fun d' hd hd' => ?_⟩
      rw [hS, hrunnable]
      exact h5 d' hd hd'
  | none =>
      have hout : w.schedule = (w, .spin) := by rw [World.schedule, hl]
      have hcur' : M'.kernel.current = S.current := by rw [h'.sim.current, hout, hS]
      have hsys : M'.kernel.system = S := by rw [Kernel.system, hproc, hcur']
      rw [ho, hout, hsys]
      refine .spin fun p hp => ?_
      have hr := (hrunnable p).mp hp
      have hp16 : p < 16 := by
        by_contra! hge
        rw [habove p hge] at hr
        cases hr
      have := scheduleLoop_isSome hcur hp16 hr
      rw [hl] at this
      cases this

/-! One trap after the other. -/

section steps
variable (h : Represents L M w) (hex : w.Exact L)

include h hex

theorem system_switch {st : ProcState} {S : System} (hd : Disciplined M (.trap cpu t))
    (hs : M.step L (.trap cpu t) = some M')
    (hstate : (w.dispatch t cpu.rdi.toNat).1.state = Function.update w.state w.current st)
    (hcur : (w.dispatch t cpu.rdi.toNat).1.current = w.current)
    (hleave : w.trap t cpu.rdi.toNat = (w.dispatch t cpu.rdi.toNat).1.schedule)
    (hS : S = M.kernel.system.set M.kernel.current (M'.kernel.process M.kernel.current)) :
    S.Switch M'.kernel.system M'.outcome := by
  have hadm := hd.admits h hex
  obtain ⟨-, -, hrep', ho, -⟩ := step_refines h hadm.1 hadm.2 hs
  rw [hleave] at hrep' ho
  subst hS
  apply hrep'.switch ho
  · rw [hcur]
    exact h.wf.current
  · exact trap_process h hex hd hs hstate rfl
  · rw [hcur]
    exact h.sim.current

theorem system_leave (ht : t = .timer ∨ t = .yield) (hs : M.step L (.trap cpu t) = some M')
    (hd : Disciplined M (.trap cpu t)) :
    System.Step M.kernel.system (.trap cpu t) M'.kernel.system M'.outcome := by
  have hres := Machine.step_resumed hs
  have hrun := h.runnable hres
  have hdisp : w.dispatch t cpu.rdi.toNat = (w, .schedule) := by rcases ht with rfl | rfl <;> rfl
  have hresult : callResult M.kernel cpu t = cpu.rax := by rcases ht with rfl | rfl <;> rfl
  have hadm := hd.admits h hex
  obtain ⟨-, -, -, ho, -⟩ := step_refines h hadm.1 hadm.2 hs
  have hstate : (w.dispatch t cpu.rdi.toNat).1.state =
      Function.update w.state w.current .runnable := by
    rw [hdisp, ← hrun, Function.update_eq_self]
  have hret : M'.outcome ≠ .returned := by
    rw [ho, World.trap, hdisp]
    change w.schedule.2 ≠ _
    unfold World.schedule
    split <;> exact fun hc => by cases hc
  refine .leave ht (h.current_process (h.live hres)) (system_switch h hex hd hs hstate
    (by rw [hdisp]) (by rw [World.trap, hdisp]; rfl) ?_)
  rw [trap_caller h hex hd hs hret hstate (by decide) (fun _ => by rw [hdisp]), hresult, hrun]
  rfl

theorem system_fault {err : BitVec 64} {cr2 : ℕ}
    (hs : M.step L (.trap cpu (.pagefault err cr2)) = some M')
    (hd : Disciplined M (.trap cpu (.pagefault err cr2))) :
    System.Step M.kernel.system (.trap cpu (.pagefault err cr2)) M'.kernel.system M'.outcome := by
  have hres := Machine.step_resumed hs
  have hadm := hd.admits h hex
  obtain ⟨-, -, -, ho, -⟩ := step_refines h hadm.1 hadm.2 hs
  have hleave : w.trap (.pagefault err cr2) cpu.rdi.toNat =
      (w.setState w.current .broken).schedule := by
    change (w.setState w.current .broken).leave .break = _
    rw [World.leave, if_neg]
    rw [setState_state, setState_current, Function.update_self]
    decide
  have hret : M'.outcome ≠ .returned := by
    rw [ho, hleave]
    unfold World.schedule
    split <;> exact fun hc => by cases hc
  refine .fault (h.current_process (h.live hres)) (system_switch h hex hd hs rfl rfl
    hleave ?_)
  rw [trap_caller h hex hd hs hret rfl (by decide) fun _ => rfl]
  rfl

theorem system_exit (hs : M.step L (.trap cpu .exit) = some M')
    (hd : Disciplined M (.trap cpu .exit)) :
    System.Step M.kernel.system (.trap cpu .exit) M'.kernel.system M'.outcome := by
  have hrun := h.live (Machine.step_resumed hs)
  have hadm := hd.admits h hex
  obtain ⟨-, -, hrep', -, -⟩ := step_refines h hadm.1 hadm.2 hs
  have hstate := exit_state h.wf hrun
  have hleave : w.trap .exit cpu.rdi.toNat = w.exit.schedule := by
    rw [trap_exit, World.leave, if_neg]
    rw [hstate, exit_current h.wf hrun, Function.update_self]
    decide
  refine .exit (system_switch h hex hd hs hstate (exit_current h.wf hrun) hleave ?_)
  have hfree : (w.trap .exit cpu.rdi.toNat).1.state w.current = .free := by
    rw [World.trap, (leave_same _ _).state]
    exact (congrFun hstate _).trans (Function.update_self ..)
  have hnone : M'.kernel.process M.kernel.current = none := by
    rw [h.sim.current]
    exact (hrep'.process_eq_none _).mpr hfree
  rw [hnone]
  rfl

omit hex in
/-- Calls that go straight back to a caller that can run. -/
theorem trap_return {w' : World} (hs : M.step L (.trap cpu t) = some M')
    (hadm : w.Admits (.trap cpu t)) (hdisp : w.dispatch t cpu.rdi.toNat = (w', .break))
    (hcur : w'.current = w.current) (hrun : w'.state w.current = .runnable) :
    Represents L M' w' ∧ M'.outcome = .run ∧ M'.kernel.current = M.kernel.current := by
  obtain ⟨-, -, hrep', ho, -⟩ := step_refines h hadm.1 hadm.2 hs
  have hleave : w.trap t cpu.rdi.toNat = (w', .run) := by
    rw [World.trap, hdisp]
    change w'.leave .break = _
    rw [World.leave, if_pos (hcur ▸ hrun)]
  rw [hleave] at hrep' ho
  exact ⟨hrep', ho, by rw [hrep'.sim.current, hcur, h.sim.current]⟩

/-- Calls that change nothing but the result. -/
theorem system_result {p' : Process} (hs : M.step L (.trap cpu t) = some M')
    (hd : Disciplined M (.trap cpu t)) (hdisp : w.dispatch t cpu.rdi.toNat = (w, .break))
    (hp : M.kernel.system.process M.kernel.current = some p') :
    M'.kernel.system = M.kernel.system.set M.kernel.current
        (some (p'.resume cpu (callResult M.kernel cpu t))) ∧ M'.outcome = .run := by
  have hrun := h.runnable (Machine.step_resumed hs)
  obtain ⟨-, ho, hcur⟩ := trap_return h hs (hd.admits h hex) hdisp rfl hrun
  have hstate : (w.dispatch t cpu.rdi.toNat).1.state =
      Function.update w.state w.current .runnable := by
    rw [hdisp, ← hrun, Function.update_eq_self]
  have hcaller := trap_caller h hex hd hs (by rw [ho]; decide) hstate (by decide)
    fun _ => by rw [hdisp]
  refine ⟨?_, ho⟩
  have hp' := (h.current_process (h.live (Machine.step_resumed hs))).symm.trans hp
  obtain rfl := Option.some.inj hp'
  rw [Kernel.system, trap_process h hex hd hs hstate hcaller, hcur, hrun]
  rfl

theorem system_getpid (hs : M.step L (.trap cpu .getpid) = some M')
    (hd : Disciplined M (.trap cpu .getpid)) :
    System.Step M.kernel.system (.trap cpu .getpid) M'.kernel.system M'.outcome := by
  have hp := h.current_process (h.live (Machine.step_resumed hs))
  obtain ⟨hsys, ho⟩ := system_result h hex hs hd rfl hp
  have hpid : callResult M.kernel cpu .getpid = BitVec.ofNat 64 M.kernel.current := by
    rw [callResult, Kernel.currentProc, h.sim.pid]
  rw [hsys, ho, hpid]
  exact .getpid hp

theorem system_memoryFull (hfull : lowestFree w.info = none)
    (hs : M.step L (.trap cpu .pageAlloc) = some M') (hd : Disciplined M (.trap cpu .pageAlloc)) :
    System.Step M.kernel.system (.trap cpu .pageAlloc) M'.kernel.system M'.outcome := by
  have hp := h.current_process (h.live (Machine.step_resumed hs))
  have hdisp : w.dispatch .pageAlloc cpu.rdi.toNat = (w, .break) := by
    change (w.pageAlloc w.current cpu.rdi.toNat, Next.break) = _
    rw [World.pageAlloc, hfull]
  obtain ⟨hsys, ho⟩ := system_result h hex hs hd hdisp hp
  have hresult : callResult M.kernel cpu .pageAlloc = -1 := by
    rw [callResult, pageAllocResult, h.sim.info, hfull]
    rfl
  rw [hsys, ho, hresult]
  exact .memoryFull hp

theorem system_noSlot (hfull : findFreeSlot w.state (nProc - 1) 1 = none)
    (hs : M.step L (.trap cpu .fork) = some M') (hd : Disciplined M (.trap cpu .fork)) :
    System.Step M.kernel.system (.trap cpu .fork) M'.kernel.system M'.outcome := by
  have hp := h.current_process (h.live (Machine.step_resumed hs))
  have hdisp : w.dispatch .fork cpu.rdi.toNat = (w, .break) := by
    change w.fork = _
    rw [World.fork, hfull]
  obtain ⟨hsys, ho⟩ := system_result h hex hs hd hdisp hp
  have hresult : callResult M.kernel cpu .fork = -1 := by
    rw [callResult, h.sim.state, hfull]
  rw [hsys, ho, hresult]
  refine .noSlot hp fun c hc => ?_
  rw [h.firstFree_iff, hfull] at hc
  cases hc

theorem system_pageAlloc {pn : ℕ} (hpn : lowestFree w.info = some pn)
    (hs : M.step L (.trap cpu .pageAlloc) = some M') (hd : Disciplined M (.trap cpu .pageAlloc)) :
    System.Step M.kernel.system (.trap cpu .pageAlloc) M'.kernel.system M'.outcome := by
  have hres := Machine.step_resumed hs
  have hlive := h.live hres
  have hrun := h.runnable hres
  have hp := h.current_process hlive
  have hreg := hd.regular h hlive hex
  have hempty := hreg.empty rfl (by rw [hpn]; rfl)
  obtain ⟨halign, hlo, hhi⟩ := hreg.range rfl
  have hgive := pageAlloc_give (p := w.current) hlo hhi hpn
  have hdisp : w.dispatch .pageAlloc cpu.rdi.toNat =
      (w.give w.current (.page (cpu.rdi.toNat / 4096)) pn, .break) := by
    change (w.pageAlloc w.current cpu.rdi.toNat, Next.break) = _
    rw [hgive]
  obtain ⟨hrep', ho, hcur⟩ := trap_return h hs (hd.admits h hex) hdisp rfl
    ((congrFun (give_state ..) _).trans hrun)
  have hlive' : (w.give w.current (.page (cpu.rdi.toNat / 4096)) pn).Live w.current := hlive
  have hrange {va : ℕ} (hva : va / pageSize = cpu.rdi.toNat / pageSize) :
      procStartAddr ≤ va ∧ va < memsizeVirtual := by
    simp only [pageSize, procStartAddr, memsizeVirtual] at hva halign hlo hhi ⊢
    omega
  have hstate : (w.dispatch .pageAlloc cpu.rdi.toNat).1.state =
      Function.update w.state w.current .runnable := by
    rw [hdisp, ← hrun, Function.update_eq_self]
    rfl
  have hresult : callResult M.kernel cpu .pageAlloc = 0 := by
    rw [callResult, pageAllocResult, h.sim.info, hpn]
    dsimp only
    rw [if_neg (not_lt.mpr hlo)]
    rfl
  have hmemory : M'.kernel.memory M.kernel.current = fun va =>
      if va / pageSize = cpu.rdi.toNat / pageSize then
        some ⟨true, M'.kernel.mem (pn * 4096 + va % 4096)⟩
      else M.kernel.memory M.kernel.current va := by
    funext va
    rw [h.sim.current]
    split_ifs with hva
    · rw [hrep'.memory_eq hlive' (hrange hva), give_held, show va / 4096 = cpu.rdi.toNat / 4096
        from hva, Function.update_self]
      rfl
    · refine trap_memory h hex hd hs hlive ?_ ?_
      · rw [World.trap, Live, (leave_same _ _).state, hdisp]
        exact hlive
      · rw [hdisp, give_held, Function.update_of_ne]
        intro hc
        exact hva (Slot.page.inj (Prod.mk.inj hc).2)
  have hcaller : M'.kernel.process M.kernel.current = some
      ⟨{ cpu with rax := 0 }, M'.kernel.memory M.kernel.current, true⟩ := by
    rw [hrep'.process_eq, trap_cpu h hs (by rw [ho]; decide), hresult, h.sim.current, give_state,
      hrun]
    rfl
  have hsys : M'.kernel.system = M.kernel.system.set M.kernel.current (some
      ⟨{ cpu with rax := 0 }, M'.kernel.memory M.kernel.current, true⟩) := by
    rw [Kernel.system, trap_process h hex hd hs hstate hcaller, hcur]
    rfl
  have hstep := @System.Step.pageAlloc M.kernel.system _ cpu
    (fun va => M'.kernel.mem (pn * 4096 + va % 4096)) hp fun va hva => by
      dsimp only
      rw [h.sim.current, h.memory_eq hlive (hrange hva), show va / 4096 = cpu.rdi.toNat / 4096
        from hva, hempty]
      rfl
  rw [hsys, ho, hmemory]
  rw [hrun] at hstep
  exact hstep

end steps

/-! The child of a fork. -/

/-- The state in which the `switch` of `exception` finds the kernel. -/
theorem exception_dispatch {k k' : Kernel} {o : Outcome} (h : Sim L k w) (hw : w.Wf L)
    (hchk : w.Checked L) (ht : t.ordinary = true) (huser : t.user)
    (he : exception L k (Registers.ofWords (trapFrame cpu t)) t.cr2 = .ok (k', o)) :
    ∃ k₁ k₂ next, Sim L k₁ w ∧ AgreeOff 4096 (· = consolePage) k.mem k₁.mem ∧
      dispatch k₁ (Registers.ofWords (trapFrame cpu t)) t.cr2 = .ok (k₂, next) ∧
      k'.mem = k₂.mem ∧ k'.processes = k₂.processes := by
  have h₁ : Sim L (k.updateProc k.current
      (fun q => { q with registers := Registers.ofWords (trapFrame cpu t) })) w :=
    h.updateProc _ fun _ => ⟨rfl, rfl, rfl⟩
  obtain ⟨m, lt, sh, hshow, ha⟩ := h₁.showMemory_ok hw hchk (showsMemory_of_ordinary cpu ht huser)
  unfold exception at he
  rw [bind_eq_ok] at he
  obtain ⟨_, -, he⟩ := he
  rw [hshow, ok_bind, bind_eq_ok] at he
  obtain ⟨⟨k₂, next⟩, hd, hl⟩ := he
  obtain ⟨⟨p, rfl⟩, -⟩ := leave_inv hl
  have h₂ : Sim L { k.updateProc k.current
      (fun q => { q with registers := Registers.ofWords (trapFrame cpu t) }) with
      mem := m, lastTicks := lt, showing := sh } w :=
    ⟨h₁.info, h₁.state, h₁.pid, h₁.current, h₁.mem.console_frame hw ha⟩
  exact ⟨_, k₂, next, h₂, ha, hd, rfl, rfl⟩

theorem Represents.forkable (h : Represents L M w) (hex : w.Exact L) (hrun : w.Live w.current)
    {c : ℕ} (hslot : findFreeSlot w.state (nProc - 1) 1 = some c) (hroom : M.kernel.ForkRoom) :
    Forkable M.kernel (w.frames w.current) (w.leaf w.current) := by
  have hheld {i : ℕ} (hi : 256 ≤ i) (hp : w.leaf w.current i &&& pteP ≠ 0) :
      ∃ r, w.held (w.current, .page i) = some r ∧ w.leaf w.current i / 4096 = r.frame ∧
        w.leaf w.current i < 0x200000 := by
    rw [World.leaf, if_neg (by omega)] at hp ⊢
    cases hr : w.held (w.current, .page i) with
    | none =>
        rw [hr] at hp
        exact absurd rfl hp
    | some r =>
        have hlt := h.wf.frame_lt hr
        have hperm := Ref.perm_lt (some r)
        rw [Ref.entry_some]
        exact ⟨r, rfl, by omega, by omega⟩
  have hfree := findFreeSlot_some hslot
  refine ⟨(h.sim.live _).mpr (h.sim.current ▸ hrun), h.sim.mem.tree _ hrun, ?_, fun j => ?_,
    ⟨fun i hi hp => ?_, fun i hi hp => ?_, fun i hi i' hi' hs hs' heq => ?_⟩, fun i hi hp => ?_,
    ⟨c, hfree.1, hfree.2.1, (congrFun h.sim.state c).trans hfree.2.2.1⟩, ?_⟩
  · rw [Kernel.currentProc, h.sim.current]
    exact h.sim.mem.root _ hrun
  · rw [h.sim.info]
    exact hex.counted (h.wf.tables _ hrun j)
  · by_cases hlow : i < 256
    · have := kernelPerm_lt i
      rw [w.leaf_kernel _ i hlow, kernelLeaf]
      omega
    · obtain ⟨r, -, -, hlt⟩ := hheld (by omega) hp
      exact hlt
  · obtain ⟨r, hr, hframe, -⟩ := hheld (Finset.mem_Ico.mp hi).1 hp
    have hle := hex.refs_le h.wf r.frame
    have hne := hex.counted hr
    rw [hframe, h.sim.info]
    rw [hex.refcount (hex.place _ _ hr).2] at hne ⊢
    omega
  · obtain ⟨pn, hr, hpn⟩ := World.shares_leaf h.wf hi hs
    obtain ⟨pn', hr', hpn'⟩ := World.shares_leaf h.wf hi' hs'
    exact Slot.page.inj (hex.inj_process h.wf hr hr' (by rw [← hpn, ← hpn', heq]))
  · obtain ⟨r, hr, hframe, -⟩ := hheld (Finset.mem_Ico.mp hi).1 hp
    rw [hframe]
    intro hc
    exact not_usable_console (hc ▸ (hex.place _ _ hr).2)
  · apply hroom
    rw [h.sim.state, hslot]
    rfl

theorem Represents.memory_frame {M₁ : Machine} (h : Represents L M w) (h₁ : Represents L M₁ w)
    (hex : w.Exact L) (hp : w.Live p)
    (ha : AgreeOff 4096 (· = consolePage) M.kernel.mem M₁.kernel.mem) :
    M₁.kernel.memory p = M.kernel.memory p := by
  funext va
  by_cases hva : procStartAddr ≤ va ∧ va < memsizeVirtual
  · rw [h₁.memory_eq hp hva, h.memory_eq hp hva]
    cases hr : w.held (p, .page (va / 4096)) with
    | none => rfl
    | some r =>
        have hbyte : M₁.kernel.mem (r.frame * 4096 + va % 4096) =
            M.kernel.mem (r.frame * 4096 + va % 4096) := by
          apply ha
          intro hc
          rw [show (r.frame * 4096 + va % 4096) / 4096 = r.frame by omega] at hc
          exact not_usable_console (hc ▸ (hex.place _ _ hr).2)
        rw [Option.map_some, Option.map_some, hbyte]
  · rw [Kernel.memory_outside hva, Kernel.memory_outside hva]

/-- A cell is the byte that the page table leads to, with the flag of the ledger. -/
theorem Represents.memory_cell (h : Represents L M w) (hp : w.Live p)
    (hva : procStartAddr ≤ va ∧ va < memsizeVirtual) {r : Ref} {b : UInt8}
    (hr : w.held (p, .page (va / 4096)) = some r)
    (hb : virtualByte M.kernel.mem (M.kernel.processes p).pagetable va = some b) :
    M.kernel.memory p va = some ⟨r.writable, b⟩ := by
  have htop : va < 0x400000 := by
    have := hva.2
    simp only [memsizeVirtual] at this
    omega
  have hview := h.view_eq hp hva.1 htop
  have hsnd : virtualByte M.kernel.mem (M.kernel.processes p).pagetable va =
      (M.kernel.view p va).map Prod.snd := by
    rw [virtualByte, physical, Kernel.view, Option.map_map, Option.map_map]
    rfl
  rw [hsnd, hview, hr] at hb
  rw [h.memory_eq hp hva, hr]
  exact congrArg (fun b => some (Cell.mk r.writable b)) (Option.some.inj hb)

section fork
variable (h : Represents L M w) (hex : w.Exact L) (hd : Disciplined M (.trap cpu .fork))
  (hs : M.step L (.trap cpu .fork) = some M') {c : ℕ}
  (hslot : findFreeSlot w.state (nProc - 1) 1 = some c)

include h hex hd hs hslot

/-- Every byte that the child reads is the parent's. -/
theorem fork_byte (hva : procStartAddr ≤ va ∧ va < memsizeVirtual) :
    ∃ M₁ : Machine, Represents L M₁ w ∧ M₁.kernel.memory w.current = M.kernel.memory w.current ∧
      virtualByte M'.kernel.mem (M'.kernel.processes c).pagetable va =
        virtualByte M₁.kernel.mem M₁.kernel.currentProc.pagetable va := by
  obtain ⟨hres, k, o, he, rfl⟩ := Machine.step_trap hs
  have hrun := h.live hres
  obtain ⟨huser, hchk, -⟩ := exception_checked h.sim h.wf rfl he
  obtain ⟨k₁, k₂, next, h₁, ha, hdisp, hmem, hproc⟩ :=
    exception_dispatch h.sim h.wf hchk rfl huser he
  have hrep : Represents L ⟨k₁, M.cpu, .run⟩ w := ⟨h₁, h.wf, fun _ => h.runnable hres⟩
  have hroom : k₁.ForkRoom := by
    have hroom := hd.2.2 rfl
    unfold Kernel.ForkRoom at hroom ⊢
    have hpages : k₁.writablePages = M.kernel.writablePages := by
      rw [h.writablePages_eq hrun]
      exact hrep.writablePages_eq hrun
    rwa [hpages, h₁.state, h₁.info, ← h.sim.state, ← h.sim.info]
  have hfork := hrep.forkable hex hrun hslot hroom
  obtain ⟨k₃, c', T, f, m₁, info₁, hsys, hdone⟩ := hfork.fork
  obtain rfl : c' = c := by
    have hc := hdone.slot
    rw [show k₁.states = w.state from h₁.state] at hc
    exact Option.some.inj (hc.symm.trans hslot)
  have hfork' : dispatch k₁ (Registers.ofWords (trapFrame cpu .fork)) (Trap.cr2 .fork) =
      sysFork k₁ := by
    unfold dispatch
    rw [intno_ofWords]
    rfl
  rw [hfork', hsys] at hdisp
  obtain ⟨rfl, -⟩ := Prod.mk.inj (Except.ok.inj hdisp)
  refine ⟨⟨k₁, M.cpu, .run⟩, hrep, h.memory_frame hrep hex hrun ha, ?_⟩
  change virtualByte k.mem (k.processes c').pagetable va = _
  rw [hmem, hproc]
  exact hdone.bytes_eq hfork hva.1 hva.2

theorem fork_memory : M'.kernel.memory c = M.kernel.memory w.current := by
  have hres := Machine.step_resumed hs
  have hrun := h.live hres
  have hreg := hd.regular h hrun hex
  obtain ⟨hf, hnext⟩ := fork_forked h.wf hrun hslot
    (by have := hreg.room rfl (by rw [hslot]; rfl); omega)
  have hdisp : w.dispatch .fork cpu.rdi.toNat = (w.fork.1, .break) := Prod.ext rfl hnext
  have hne : w.current ≠ c := by
    rintro rfl
    exact hrun (findFreeSlot_some hslot).2.2.1
  obtain ⟨hrep', -, -⟩ := trap_return h hs (hd.admits h hex) hdisp hf.current (by
    rw [hf.state, Function.update_of_ne hne]
    exact h.runnable hres)
  have hlive : w.fork.1.Live c := by
    rw [Live, hf.state, Function.update_self]
    decide
  funext va
  by_cases hva : procStartAddr ≤ va ∧ va < memsizeVirtual
  · obtain ⟨M₁, h₁, hmemory, hbyte⟩ := fork_byte h hex hd hs hslot hva
    have hpage : 256 ≤ va / 4096 ∧ va / 4096 < 768 := by
      simp only [procStartAddr, memsizeVirtual] at hva
      omega
    rw [← hmemory]
    have hcell {r r' : Ref} (hr : w.held (w.current, .page (va / 4096)) = some r)
        (hr' : w.fork.1.held (c, .page (va / 4096)) = some r') (hw : r'.writable = r.writable) :
        M'.kernel.memory c va = M₁.kernel.memory w.current va := by
      have hb : virtualByte M₁.kernel.mem (M₁.kernel.processes w.current).pagetable va =
          some (M₁.kernel.mem (r.frame * 4096 + va % 4096)) := by
        rw [virtualByte, physical, h₁.sim.mem.walk_user h.wf hrun (by omega) (by omega), hr]
        rfl
      rw [Kernel.currentProc, h₁.sim.current, hb] at hbyte
      rw [hrep'.memory_cell hlive hva hr' hbyte, h₁.memory_cell hrun hva hr hb, hw]
    cases hr : w.held (w.current, .page (va / 4096)) with
    | none =>
        rw [hrep'.memory_eq hlive hva, h₁.memory_eq hrun hva, hr,
          hf.unmapped _ hpage.1 hpage.2 hr]
        rfl
    | some r =>
        obtain ⟨fr, b⟩ := r
        cases b with
        | false => exact hcell hr (hf.shared _ fr hpage.1 hpage.2 hr) rfl
        | true =>
            obtain ⟨fr', hr'⟩ := hf.copied _ fr hpage.1 hpage.2 hr
            exact hcell hr hr' rfl
  · rw [Kernel.memory_outside hva, Kernel.memory_outside hva]

theorem system_fork : System.Step M.kernel.system (.trap cpu .fork) M'.kernel.system M'.outcome := by
  have hres := Machine.step_resumed hs
  have hrun := h.live hres
  have hrunnable := h.runnable hres
  have hreg := hd.regular h hrun hex
  have hp := h.current_process hrun
  obtain ⟨hf, hnext⟩ := fork_forked h.wf hrun hslot
    (by have := hreg.room rfl (by rw [hslot]; rfl); omega)
  have hdisp : w.dispatch .fork cpu.rdi.toNat = (w.fork.1, .break) := Prod.ext rfl hnext
  have hfree : w.state c = .free := (findFreeSlot_some hslot).2.2.1
  have hne : w.current ≠ c := by
    rintro rfl
    exact hrun hfree
  have hstate : w.fork.1.state w.current = .runnable := by
    rw [hf.state, Function.update_of_ne hne]
    exact hrunnable
  have hstate' : w.fork.1.state c = .runnable := by rw [hf.state, Function.update_self]
  obtain ⟨hrep', ho, hcur⟩ := trap_return h hs (hd.admits h hex) hdisp hf.current hstate
  have hresult : callResult M.kernel cpu .fork = BitVec.ofNat 64 c := by
    rw [callResult, h.sim.state, hslot]
  have hown : M'.kernel.process M.kernel.current = some
      ⟨{ cpu with rax := BitVec.ofNat 64 c }, M.kernel.memory M.kernel.current, true⟩ := by
    have hmemory : M'.kernel.memory M.kernel.current = M.kernel.memory M.kernel.current := by
      funext va
      rw [h.sim.current]
      refine trap_memory h hex hd hs hrun ?_ ?_
      · rw [World.trap, Live, (leave_same _ _).state, hdisp, hstate]
        decide
      · rw [hdisp]
        exact hf.other _ _ hne
    rw [hrep'.process_eq, trap_cpu h hs (by rw [ho]; decide), hresult, hmemory, h.sim.current,
      hstate]
    rfl
  have hchild : M'.kernel.process c = some
      ⟨{ cpu with rax := 0 }, M.kernel.memory M.kernel.current, true⟩ := by
    have hregs : exceptionReturn (M'.kernel.processes c).registers = { cpu with rax := 0 } := by
      have hlive : M'.kernel.Live c := by
        rw [hrep'.sim.live, Live, hstate']
        decide
      have hfree' : ¬ M.kernel.Live c := by
        rw [h.sim.live]
        exact not_not.mpr hfree
      obtain ⟨-, k, o, he, rfl⟩ := Machine.step_trap hs
      have hst : M.kernel.currentProc.state = .runnable := by
        rw [Kernel.currentProc, h.sim.current]
        exact (congrFun h.sim.state w.current).trans hrunnable
      obtain ⟨-, heff⟩ := exception_effect h.tableOk hst he
      change exceptionReturn (k.processes c).registers = _
      rw [heff.child c hfree' hlive, exceptionReturn_trapFrame]
    rw [hrep'.process_eq, hregs, fork_memory h hex hd hs hslot, hstate', h.sim.current]
    rfl
  have hsys : M'.kernel.system = (M.kernel.system.set c (some
      ⟨{ cpu with rax := 0 }, M.kernel.memory M.kernel.current, true⟩)).set M.kernel.current
      (some ⟨{ cpu with rax := BitVec.ofNat 64 c }, M.kernel.memory M.kernel.current, true⟩) := by
    refine System.ext (funext fun q => ?_) hcur
    rw [System.set_process, System.set_process]
    change M'.kernel.process q = _
    by_cases hq : q = M.kernel.current
    · rw [if_pos hq, hq, hown]
    · rw [if_neg hq]
      by_cases hqc : q = c
      · rw [if_pos hqc, hqc, hchild]
      · rw [if_neg hqc]
        by_cases hlive : w.Live q
        · exact trap_other h hex hd hs hq hlive
        · have hdead : w.state q = .free := not_not.mp hlive
          change _ = M.kernel.process q
          rw [(h.process_eq_none q).mpr hdead, hrep'.process_eq_none, hf.state,
            Function.update_of_ne hqc, hdead]
  have hstep := @System.Step.fork M.kernel.system _ cpu _ hp ((h.firstFree_iff c).mpr hslot)
  rw [hrunnable] at hstep
  rw [hsys, ho]
  exact hstep

end fork

/-! A store of a program. -/

def Kernel.poke (k : Kernel) (a : ℕ) (b : UInt8) : Kernel :=
  { k with mem := Function.update k.mem a b }

@[simp] theorem Kernel.poke_mem (k : Kernel) (a : ℕ) (b : UInt8) :
    (k.poke a b).mem = Function.update k.mem a b := rfl

/-- A store changes memories at most. -/
theorem poke_process {b : UInt8} {a : ℕ} {o : Outcome} (h : Represents L M w)
    (h' : Represents L ⟨M.kernel.poke a b, M.cpu, o⟩ w)
    (hmemory : w.Live q → (M.kernel.poke a b).memory q = M.kernel.memory q) :
    (M.kernel.poke a b).process q = M.kernel.process q := by
  rw [h'.process_eq q, h.process_eq q]
  by_cases hfree : w.state q = .free
  · rw [if_pos hfree, if_pos hfree]
  · rw [if_neg hfree, if_neg hfree, hmemory hfree]
    rfl

theorem system_console {b : UInt8} {o : Outcome} (h : Represents L M w) (hex : w.Exact L)
    (h' : Represents L ⟨M.kernel.poke va b, M.cpu, o⟩ w) (hva : va / 4096 = consolePage) :
    (M.kernel.poke va b).system = M.kernel.system := by
  have ha : AgreeOff 4096 (· = consolePage) M.kernel.mem (M.kernel.poke va b).mem := by
    rw [Kernel.poke_mem]
    apply (agreeOff_update 4096 M.kernel.mem va b).mono
    intro x hx
    rw [hx, hva]
  refine System.ext (funext fun q => ?_) rfl
  change (M.kernel.poke va b).process q = M.kernel.process q
  apply poke_process h h'
  intro hlive
  have hframe := h.memory_frame h' hex hlive ha
  exact hframe

section store
variable {b : UInt8} {f : ℕ} {o : Outcome} (h : Represents L M w) (hex : w.Exact L)
  (h' : Represents L ⟨M.kernel.poke (f * 4096 + va % 4096) b, M.cpu, o⟩ w)
  (hf : w.held (w.current, .page (va / 4096)) = some ⟨f, true⟩)

include h hex h' hf

/-- A store to a page that its process holds alone changes one cell of that process. -/
theorem poke_memory {va' : ℕ} (hq : w.Live q) (hne : ¬ (q = w.current ∧ va' = va)) :
    (M.kernel.poke (f * 4096 + va % 4096) b).memory q va' = M.kernel.memory q va' := by
  by_cases hva' : procStartAddr ≤ va' ∧ va' < memsizeVirtual
  · have hnew := h'.memory_eq hq hva'
    dsimp only at hnew
    rw [hnew, h.memory_eq hq hva']
    cases hr : w.held (q, .page (va' / 4096)) with
    | none => rfl
    | some r =>
        have hbyte : (M.kernel.poke (f * 4096 + va % 4096) b).mem (r.frame * 4096 + va' % 4096) =
            M.kernel.mem (r.frame * 4096 + va' % 4096) := by
          rw [Kernel.poke_mem, Function.update_of_ne]
          intro hc
          apply hne
          have hx := hex.unique hf hr (by omega)
          obtain ⟨hcur, hpage⟩ := Prod.mk.inj hx
          have := Slot.page.inj hpage
          exact ⟨hcur.symm, by omega⟩
        rw [Option.map_some, Option.map_some, hbyte]
  · rw [Kernel.memory_outside hva', Kernel.memory_outside hva']

theorem poke_memory_self (hrun : w.Live w.current)
    (hva : procStartAddr ≤ va ∧ va < memsizeVirtual) :
    (M.kernel.poke (f * 4096 + va % 4096) b).memory w.current =
      Function.update (M.kernel.memory w.current) va (some ⟨true, b⟩) := by
  funext va'
  rw [Function.update_apply]
  split_ifs with heq
  · subst va'
    have hnew := h'.memory_eq hrun hva
    dsimp only at hnew
    rw [hnew, hf, Option.map_some, Kernel.poke_mem, Function.update_self]
  · exact poke_memory h hex h' hf hrun fun hc => heq hc.2

end store

theorem system_store {b : UInt8} (h : Represents L M w) (hex : w.Exact L)
    (hs : M.step L (.store va b) = some M') :
    System.Step M.kernel.system (.store va b) M'.kernel.system M'.outcome := by
  have hrun := h.live (Machine.step_resumed hs)
  have hp := h.current_process hrun
  have h' := step_store_represents h (hex.tablesSafe h.wf) hs
  obtain ⟨a, rfl, htarget⟩ := store_target h hs
  change System.Step _ _ (M.kernel.poke a b).system .run
  rcases htarget with ⟨rfl, hcons⟩ | ⟨-, -, f, hf, rfl⟩
  · rw [system_console h hex h' hcons]
    exact .console hcons
  · have hva : procStartAddr ≤ va ∧ va < memsizeVirtual := by
      have hplace := mem_places_page.mp (hex.place _ _ hf).1
      simp only [procStartAddr, memsizeVirtual]
      omega
    have hcell : M.kernel.memory M.kernel.current va =
        some ⟨true, M.kernel.mem (f * 4096 + va % 4096)⟩ := by
      rw [h.sim.current, h.memory_eq hrun hva, hf]
      rfl
    have hself := poke_memory_self h hex h' hf hrun hva
    have hstep := System.Step.store (S := M.kernel.system) (b := b) hp hcell
    suffices hsys : (M.kernel.poke (f * 4096 + va % 4096) b).system =
        M.kernel.system.set M.kernel.current (some (Process.store
          ⟨exceptionReturn M.kernel.currentProc.registers, M.kernel.memory M.kernel.current,
            w.state w.current = .runnable⟩ va b)) by
      rw [hsys]
      exact hstep
    refine System.ext (funext fun q => ?_) rfl
    rw [System.set_process]
    change (M.kernel.poke (f * 4096 + va % 4096) b).process q = _
    split_ifs with hq
    · have hnew := h'.process_eq M.kernel.current
      change (M.kernel.poke (f * 4096 + va % 4096) b).process _ = _ at hnew
      rw [hq, hnew, h.sim.current, if_neg hrun, Kernel.currentProc, h.sim.current]
      change some (Process.mk _ ((M.kernel.poke _ b).memory _) _) = _
      rw [hself]
      rfl
    · exact poke_process h h' fun hlive => funext fun va' => poke_memory h hex h' hf hlive fun hc =>
        hq (hc.1.trans h.sim.current.symm)

/-- A step of a disciplined run is a step of the system. -/
theorem step_system {e : Event} (h : Represents L M w) (hex : w.Exact L) (hd : Disciplined M e)
    (hs : M.step L e = some M') : System.Step M.kernel.system e M'.kernel.system M'.outcome := by
  cases e with
  | store va b => exact system_store h hex hs
  | trap cpu t =>
      have ht := hd.1
      cases t with
      | timer => exact system_leave h hex (.inl rfl) hs hd
      | pagefault err cr2 => exact system_fault h hex hs hd
      | gpf err => cases ht
      | syscall n =>
          fin_cases n
          any_goals cases ht
          · exact system_getpid h hex hs hd
          · exact system_leave h hex (.inr rfl) hs hd
          · cases hpn : lowestFree w.info with
            | none => exact system_memoryFull h hex hpn hs hd
            | some pn => exact system_pageAlloc h hex hpn hs hd
          · cases hslot : findFreeSlot w.state (nProc - 1) 1 with
            | none => exact system_noSlot h hex hslot hs hd
            | some c => exact system_fork h hex hd hs hslot
          · exact system_exit h hex hs hd

end WeensyOS
