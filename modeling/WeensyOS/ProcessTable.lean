import WeensyOS.Machine

/-!
# What a trap does to the process table

`exception` is taken apart into saving the registers, showing memory, the `switch` and the way out,
and the effect of each part on the process descriptors is computed. None of it depends on page
tables or reference counts: whatever state memory is in, only the current process and a free slot
are ever written.
-/

namespace WeensyOS
open ByteMemory Runs

/-- The value that `sys_page_alloc_find_free` returns. -/
def pageAllocResult (info : PageInfos) (addr : ℕ) : ℤ :=
  match lowestFree info with
  | none => -1
  | some _ => if addr < procStartAddr then -1 else 0

/-- `sys_page_alloc_find_free` takes the lowest free page before it looks at the address. -/
theorem sysPageAllocFindFree_eq (m : Memory) (info : PageInfos) (pt : ℕ) (pid : ℤ) (addr : ℕ) :
    sysPageAllocFindFree m info pt pid addr =
      match lowestFree info with
      | none => .ok (m, info, -1)
      | some pn =>
        if addr < procStartAddr then .ok (m, Function.update info pn ⟨toInt8 pid, 1⟩, -1)
        else virtualMemoryMap m pt addr (pageAddress pn) pageSize (pteP ||| pteW ||| pteU) >>=
          fun r => .ok (r.1, Function.update info pn ⟨toInt8 pid, 1⟩, 0) := by
  unfold sysPageAllocFindFree
  rw [findFreeOrFail_eq_lowestFree]
  cases hpn : lowestFree info with
  | none => rfl
  | some pn =>
      obtain ⟨-, hlt, hfree⟩ := lowestFree_eq_some hpn
      simp only [assignPhysicalPage_free hlt hfree]
      by_cases haddr : addr < procStartAddr
      · rw [if_pos haddr, if_pos haddr, if_neg (by norm_num)]
      · rw [if_neg haddr, if_neg haddr, if_pos le_rfl]
        rfl

theorem sysPageAllocFindFree_result {m m' : Memory} {info info' : PageInfos} {pt addr : ℕ}
    {pid r : ℤ} (h : sysPageAllocFindFree m info pt pid addr = .ok (m', info', r)) :
    r = pageAllocResult info addr := by
  rw [sysPageAllocFindFree_eq] at h
  unfold pageAllocResult
  cases hl : lowestFree info with
  | none =>
      rw [hl] at h
      cases h
      rfl
  | some pn =>
      rw [hl] at h
      dsimp only at h ⊢
      by_cases haddr : addr < procStartAddr
      · rw [if_pos haddr] at h ⊢
        cases h
        rfl
      · rw [if_neg haddr, bind_eq_ok] at h
        obtain ⟨res, -, h⟩ := h
        rw [if_neg haddr]
        cases h
        rfl

theorem memshowVirtualAnimate_inv {k k' : Kernel} (h : memshowVirtualAnimate k = .ok k') :
    ∃ m lastTicks showing,
      k' = { k with mem := m, lastTicks := lastTicks, showing := showing } := by
  unfold memshowVirtualAnimate at h
  dsimp only at h
  split_ifs at h
  all_goals
    first
    | rw [bind_eq_ok] at h
      obtain ⟨m, -, h⟩ := h
      exact ⟨m, _, _, (Except.ok.inj h).symm⟩
    | exact ⟨k.mem, _, _, (Except.ok.inj h).symm⟩

theorem showMemory_inv {L : KernelLayout} {k k' : Kernel} {reg : Registers}
    (h : showMemory L k reg = .ok k') :
    ∃ m lastTicks showing,
      k' = { k with mem := m, lastTicks := lastTicks, showing := showing } := by
  unfold showMemory at h
  split_ifs at h with hc hd
  · rw [bind_eq_ok] at h
    obtain ⟨_, -, h⟩ := h
    obtain ⟨m, lt, sh, rfl⟩ := memshowVirtualAnimate_inv h
    exact ⟨m, lt, sh, rfl⟩
  · rw [bind_eq_ok] at h
    obtain ⟨_, -, h⟩ := h
    exact ⟨k.mem, k.lastTicks, k.showing, (Except.ok.inj h).symm⟩
  · exact ⟨k.mem, k.lastTicks, k.showing, (Except.ok.inj h).symm⟩

/-- The stages of `exception`, with the state between them. -/
theorem exception_inv {L : KernelLayout} {k k' : Kernel} {reg : Registers} {cr2 : ℕ} {o : Outcome}
    (h : exception L k reg cr2 = .ok (k', o)) :
    ∃ m lastTicks showing k₂ next,
      dispatch { k.updateProc k.current (fun q => { q with registers := reg }) with
        mem := m, lastTicks := lastTicks, showing := showing } reg cr2 = .ok (k₂, next) ∧
      leave L k₂ next = .ok (k', o) := by
  unfold exception at h
  rw [bind_eq_ok] at h
  obtain ⟨_, -, h⟩ := h
  rw [bind_eq_ok] at h
  obtain ⟨k₁, hshow, h⟩ := h
  rw [bind_eq_ok] at h
  obtain ⟨⟨k₂, next⟩, hd, hl⟩ := h
  obtain ⟨m, lt, sh, rfl⟩ := showMemory_inv hshow
  exact ⟨m, lt, sh, k₂, next, hd, hl⟩

/-- What `INT_SYS_FORK` writes into the child's slot when it succeeds. -/
def childProc (c pt : ℕ) (regs : Registers) (q : Proc) : Proc :=
  { q with pid := c, state := .runnable, pagetable := pt,
           registers := { regs with regRax := 0 } }

theorem sysFork_inv {k k' : Kernel} {next : Next} (h : sysFork k = .ok (k', next)) :
    k'.current = k.current ∧
    ((findFreeSlot k.states 15 1 = none ∧ k' = k.setRax k.current (-1) ∧ next = .break) ∨
    ∃ c, findFreeSlot k.states 15 1 = some c ∧
      ((∃ pt, next = .break ∧ k'.processes =
          ((k.updateProc c (childProc c pt k.currentProc.registers)).setRax k.current
            (BitVec.ofNat 64 c)).processes) ∨
       (next = .return ∧ k'.processes =
          ((k.updateProc c (fun q => { q with pid := c, state := .free, pagetable := 0 })).setRax
            k.current (-1)).processes))) := by
  unfold sysFork at h
  simp only [nProc, Nat.reduceSub] at h
  cases hs : findFreeSlot k.states 15 1 with
  | none =>
      rw [hs] at h
      simp only [Except.ok.injEq, Prod.mk.injEq] at h
      obtain ⟨rfl, rfl⟩ := h
      exact ⟨rfl, Or.inl ⟨rfl, rfl, rfl⟩⟩
  | some c =>
      rw [hs] at h
      dsimp only at h
      rw [bind_eq_ok] at h
      obtain ⟨⟨m, info, pt⟩, -, h⟩ := h
      dsimp only at h
      split_ifs at h with hpt
      · rw [bind_eq_ok] at h
        obtain ⟨⟨m', info'⟩, -, h⟩ := h
        simp only [pure, Except.pure, Except.ok.injEq, Prod.mk.injEq] at h
        obtain ⟨rfl, rfl⟩ := h
        refine ⟨rfl, Or.inr ⟨c, rfl, Or.inl ⟨pt, rfl, ?_⟩⟩⟩
        funext q
        by_cases hc : k.current = c <;> by_cases hq : q = k.current <;> by_cases hqc : q = c <;>
          simp_all [Kernel.setRax, Kernel.updateProc, Kernel.currentProc, childProc]
      · simp only [pure, Except.pure, Except.ok.injEq, Prod.mk.injEq] at h
        obtain ⟨rfl, rfl⟩ := h
        refine ⟨rfl, Or.inr ⟨c, rfl, Or.inr ⟨rfl, ?_⟩⟩⟩
        funext q
        by_cases hq : q = k.current <;> by_cases hqc : q = c <;>
          simp_all [Kernel.setRax, Kernel.updateProc]

theorem sysExit_current (k : Kernel) : (sysExit k).current = k.current := by
  simp only [sysExit, Kernel.updateProc_current]

theorem sysExit_processes (k : Kernel) : (sysExit k).processes =
    Function.update k.processes k.current { k.currentProc with state := .free } := by
  simp only [sysExit, Kernel.updateProc, Kernel.currentProc]

theorem memTog_inv (k : Kernel) (p : ℤ) : (memTog k p).current = k.current ∧
    ∃ b, (memTog k p).processes =
      Function.update k.processes k.current { k.currentProc with displayStatus := b } := by
  have hself : k.processes = Function.update k.processes k.current
      { k.currentProc with displayStatus := k.currentProc.displayStatus } :=
    (Function.update_eq_self k.current k.processes).symm
  unfold memTog
  split_ifs
  · exact ⟨rfl, _, hself⟩
  · exact ⟨rfl, _, hself⟩
  · exact ⟨rfl, _, rfl⟩

/-- The value of `rax` with which the process that trapped is resumed: the result of a system call
that has one, else what it was. -/
def trapResult (k : Kernel) (reg : Registers) : BitVec 64 :=
  if reg.regIntno.toNat = 49 then BitVec.ofNat 64 k.currentProc.pid
  else if reg.regIntno.toNat = 51 then
    BitVec.ofInt 64 (pageAllocResult k.pageinfo reg.regRdi.toNat)
  else if reg.regIntno.toNat = 52 then
    match findFreeSlot k.states 15 1 with
    | some c => BitVec.ofNat 64 c
    | none => -1
  else reg.regRax

/-- A change of the current process's own descriptor, as every trap but a fork that finds a slot
makes it. -/
structure OwnChange (k : Kernel) (reg : Registers) (p' : Proc) : Prop where
  pid : p'.pid = k.currentProc.pid
  registers : p'.registers = { reg with regRax := trapResult k reg }
  state : p'.state = k.currentProc.state ∨ p'.state = .free ∨ p'.state = .broken

theorem OwnChange.refl {k : Kernel} {reg : Registers} (hreg : k.currentProc.registers = reg)
    {n : ℕ} (hn : reg.regIntno.toNat = n) (h : n ≠ 49 ∧ n ≠ 51 ∧ n ≠ 52) :
    OwnChange k reg k.currentProc where
  pid := rfl
  registers := by
    rw [trapResult, hn, if_neg h.1, if_neg h.2.1, if_neg h.2.2, hreg]
  state := Or.inl rfl

theorem OwnChange.setRax {k : Kernel} {reg : Registers} {v : BitVec 64}
    (hreg : k.currentProc.registers = reg) (hv : v = trapResult k reg) :
    OwnChange k reg { k.currentProc with
      registers := { k.currentProc.registers with regRax := v } } where
  pid := rfl
  registers := by rw [hreg, hv]
  state := Or.inl rfl

/-- Every branch of the `switch` either changes only the current process's descriptor, or is a fork
that has found the free slot `c`. -/
theorem dispatch_inv {k k' : Kernel} {reg : Registers} {cr2 : ℕ} {next : Next}
    (hreg : k.currentProc.registers = reg) (h : dispatch k reg cr2 = .ok (k', next)) :
    k'.current = k.current ∧
    ((∃ p', OwnChange k reg p' ∧
        k'.processes = Function.update k.processes k.current p' ∧ next ≠ .return) ∨
     (reg.regIntno.toNat = 52 ∧ ∃ c, findFreeSlot k.states 15 1 = some c ∧
      ((∃ pt, next = .break ∧ k'.processes =
          ((k.updateProc c (childProc c pt reg)).setRax k.current
            (BitVec.ofNat 64 c)).processes) ∨
       (next = .return ∧ k'.processes =
          ((k.updateProc c (fun q => { q with pid := c, state := .free, pagetable := 0 })).setRax
            k.current (-1)).processes)))) := by
  have hself : k.processes = Function.update k.processes k.current k.currentProc :=
    (Function.update_eq_self k.current k.processes).symm
  generalize hn : reg.regIntno.toNat = n at h ⊢
  unfold dispatch at h
  rw [hn] at h
  split at h
  · cases h
  · simp only [Except.ok.injEq, Prod.mk.injEq] at h
    obtain ⟨rfl, rfl⟩ := h
    exact ⟨rfl, Or.inl ⟨_, OwnChange.setRax hreg (by rw [trapResult, if_pos hn]), rfl, by simp⟩⟩
  · simp only [Except.ok.injEq, Prod.mk.injEq] at h
    obtain ⟨rfl, rfl⟩ := h
    exact ⟨rfl, Or.inl ⟨_, OwnChange.refl hreg hn (by norm_num), hself, by simp⟩⟩
  · rw [bind_eq_ok] at h
    obtain ⟨⟨m, info, r⟩, hr, h⟩ := h
    simp only [pure, Except.pure, Except.ok.injEq, Prod.mk.injEq] at h
    obtain ⟨rfl, rfl⟩ := h
    obtain rfl := sysPageAllocFindFree_result hr
    refine ⟨rfl, Or.inl ⟨_, OwnChange.setRax hreg ?_, rfl, by simp⟩⟩
    rw [trapResult, hn, if_neg (by norm_num), if_pos rfl, hreg]
  · obtain ⟨hcur, ⟨hslot, rfl, rfl⟩ | hslot⟩ := sysFork_inv h
    · refine ⟨hcur, Or.inl ⟨_, OwnChange.setRax hreg ?_, rfl, by simp⟩⟩
      rw [trapResult, hn, if_neg (by norm_num), if_neg (by norm_num), if_pos rfl, hslot]
    · rw [hreg] at hslot
      exact ⟨hcur, Or.inr ⟨rfl, hslot⟩⟩
  · simp only [Except.ok.injEq, Prod.mk.injEq] at h
    obtain ⟨rfl, rfl⟩ := h
    refine ⟨sysExit_current k, Or.inl ⟨{ k.currentProc with state := .free }, ?_,
      sysExit_processes k, by simp⟩⟩
    exact ⟨rfl, (OwnChange.refl hreg hn (by norm_num)).registers, Or.inr (Or.inl rfl)⟩
  · rw [bind_eq_ok] at h
    obtain ⟨k₁, hm, h⟩ := h
    simp only [pure, Except.pure, Except.ok.injEq, Prod.mk.injEq] at h
    obtain ⟨rfl, rfl⟩ := h
    have hsame : k₁.processes = k.processes ∧ k₁.current = k.current := by
      unfold syscallMapping at hm
      dsimp only at hm
      split_ifs at hm <;> obtain rfl := Except.ok.inj hm <;> exact ⟨rfl, rfl⟩
    exact ⟨hsame.2, Or.inl ⟨_, OwnChange.refl hreg hn (by norm_num), hsame.1.trans hself, by simp⟩⟩
  · simp only [Except.ok.injEq, Prod.mk.injEq] at h
    obtain ⟨rfl, rfl⟩ := h
    obtain ⟨hcur, b, hproc⟩ := memTog_inv k (toInt32 k.currentProc.registers.regRdi.toNat)
    refine ⟨hcur, Or.inl ⟨_, ?_, hproc, by simp⟩⟩
    exact ⟨rfl, (OwnChange.refl hreg hn (by norm_num)).registers, Or.inl rfl⟩
  · simp only [Except.ok.injEq, Prod.mk.injEq] at h
    obtain ⟨rfl, rfl⟩ := h
    exact ⟨rfl, Or.inl ⟨_, OwnChange.refl hreg hn (by norm_num), hself, by simp⟩⟩
  · split_ifs at h
    simp only [Except.ok.injEq, Prod.mk.injEq] at h
    obtain ⟨rfl, rfl⟩ := h
    refine ⟨rfl, Or.inl ⟨{ k.currentProc with state := .broken }, ?_, rfl, by simp⟩⟩
    exact ⟨rfl, (OwnChange.refl hreg hn (by norm_num)).registers, Or.inr (Or.inr rfl)⟩
  · cases h

theorem findFreeSlot_some {state : ℕ → ProcState} {n p c : ℕ}
    (h : findFreeSlot state n p = some c) :
    p ≤ c ∧ c < p + n ∧ state c = .free ∧ ∀ q, p ≤ q → q < c → state q ≠ .free := by
  induction n generalizing p with
  | zero => cases h
  | succ n ih =>
      rw [findFreeSlot] at h
      split_ifs at h with hp
      · obtain rfl := Option.some.inj h
        exact ⟨le_rfl, by omega, hp, fun q h1 h2 => by omega⟩
      · obtain ⟨h1, h2, h3, h4⟩ := ih h
        refine ⟨by omega, by omega, h3, fun q hq hq' => ?_⟩
        by_cases hqp : q = p
        · rwa [hqp]
        · exact h4 q (by omega) hq'

theorem findFreeSlot_none {state : ℕ → ProcState} {n p : ℕ} (h : findFreeSlot state n p = none) :
    ∀ q, p ≤ q → q < p + n → state q ≠ .free := by
  induction n generalizing p with
  | zero => exact fun q hq hq' => by omega
  | succ n ih =>
      rw [findFreeSlot] at h
      split_ifs at h with hp
      intro q hq hq'
      by_cases hqp : q = p
      · rwa [hqp]
      · exact ih h q (by omega) (by omega)

/-- `p` is the first runnable slot strictly after `pid` in cyclic order. -/
def FirstRunnableAfter (state : ℕ → ProcState) (pid p : ℕ) : Prop :=
  ∃ d, 1 ≤ d ∧ d ≤ nProc ∧ p = (pid + d) % nProc ∧ state p = .runnable ∧
    ∀ d', 1 ≤ d' → d' < d → state ((pid + d') % nProc) ≠ .runnable

/-- The scheduler's search, started `a` slots after `pid`. -/
theorem scheduleLoop_spec (state : ℕ → ProcState) (n a pid : ℕ) :
    match scheduleLoop state n ((pid + a) % nProc) with
    | some p => ∃ d, a < d ∧ d ≤ a + n ∧ p = (pid + d) % nProc ∧ state p = .runnable ∧
        ∀ d', a < d' → d' < d → state ((pid + d') % nProc) ≠ .runnable
    | none => ∀ d, a < d → d ≤ a + n → state ((pid + d) % nProc) ≠ .runnable := by
  induction n generalizing a with
  | zero => exact fun d h1 h2 => by omega
  | succ n ih =>
      have hnext : ((pid + a) % nProc + 1) % nProc = (pid + (a + 1)) % nProc := by
        simp only [nProc]
        omega
      rw [scheduleLoop, hnext]
      by_cases hr : state ((pid + (a + 1)) % nProc) = .runnable
      · rw [if_pos hr]
        exact ⟨a + 1, by omega, by omega, rfl, hr, fun d' h1 h2 => by omega⟩
      · rw [if_neg hr]
        have hrest := ih (a + 1)
        split at hrest
        · obtain ⟨d, h1, h2, h3, h4, h5⟩ := hrest
          refine ⟨d, by omega, by omega, h3, h4, fun d' hd hd' => ?_⟩
          by_cases hda : d' = a + 1
          · rwa [hda]
          · exact h5 d' (by omega) hd'
        · intro d h1 h2
          by_cases hda : d = a + 1
          · rwa [hda]
          · exact hrest d (by omega) (by omega)

theorem scheduleLoop_some {state : ℕ → ProcState} {pid p : ℕ} (hpid : pid < 16)
    (h : scheduleLoop state nProc pid = some p) : FirstRunnableAfter state pid p := by
  have hs := scheduleLoop_spec state nProc 0 pid
  rw [Nat.add_zero, Nat.mod_eq_of_lt (show pid < nProc from hpid), h] at hs
  obtain ⟨d, h1, h2, h3, h4, h5⟩ := hs
  exact ⟨d, h1, by omega, h3, h4, h5⟩

/-- With a runnable process, the search ends within `NPROC` rounds. -/
theorem scheduleLoop_isSome {state : ℕ → ProcState} {pid q : ℕ} (hpid : pid < 16) (hq : q < 16)
    (hrun : state q = .runnable) : (scheduleLoop state nProc pid).isSome := by
  have hs := scheduleLoop_spec state nProc 0 pid
  rw [Nat.add_zero, Nat.mod_eq_of_lt (show pid < nProc from hpid)] at hs
  cases h : scheduleLoop state nProc pid with
  | some p => rfl
  | none =>
      rw [h] at hs
      have hne := hs (if pid < q then q - pid else q + 16 - pid) (by split_ifs <;> omega)
        (by simp only [nProc]; split_ifs <;> omega)
      rw [show (pid + if pid < q then q - pid else q + 16 - pid) % nProc = q by
        simp only [nProc]; split_ifs <;> omega] at hne
      exact absurd hrun hne

theorem run_inv {L : KernelLayout} {k k' : Kernel} {p : ℕ} (h : run L k p = .ok k') :
    (k.processes p).state = .runnable ∧ k' = { k with current := p } := by
  unfold run at h
  rw [bind_eq_ok] at h
  obtain ⟨_, hrun, h⟩ := h
  rw [bind_eq_ok] at h
  obtain ⟨_, -, h⟩ := h
  exact ⟨assert_eq_ok.mp hrun, (Except.ok.inj h).symm⟩

/-- What each way out of `exception` says about the state `k` in which the `switch` was left and the
process that is current afterwards. -/
def WayOut (k : Kernel) (next : Next) (current' : ℕ) : Outcome → Prop
  | .returned => next = .return ∧ current' = k.current
  | .run => next = .break ∧ current' = k.current ∧ k.currentProc.state = .runnable
  | .schedule => next ≠ .return ∧
      scheduleLoop k.states nProc k.currentProc.pid = some current'
  | .spin => next ≠ .return ∧ scheduleLoop k.states nProc k.currentProc.pid = none ∧
      current' = k.current

theorem schedule_inv {L : KernelLayout} {k k' : Kernel} {next : Next} {o : Outcome}
    (hn : next ≠ .return) (h : schedule L k = .ok (k', o)) :
    (∃ p, k' = { k with current := p }) ∧ WayOut k next k'.current o := by
  unfold schedule at h
  split at h
  · rename_i pid hpid
    rw [bind_eq_ok] at h
    obtain ⟨k₁, hrun, h⟩ := h
    obtain ⟨-, rfl⟩ := run_inv hrun
    simp only [pure, Except.pure, Except.ok.injEq, Prod.mk.injEq] at h
    obtain ⟨rfl, rfl⟩ := h
    exact ⟨⟨pid, rfl⟩, hn, hpid⟩
  · rename_i hpid
    simp only [Except.ok.injEq, Prod.mk.injEq] at h
    obtain ⟨rfl, rfl⟩ := h
    exact ⟨⟨_, rfl⟩, hn, hpid, rfl⟩

theorem leave_inv {L : KernelLayout} {k k' : Kernel} {next : Next} {o : Outcome}
    (h : leave L k next = .ok (k', o)) :
    (∃ p, k' = { k with current := p }) ∧ WayOut k next k'.current o := by
  cases next with
  | «return» =>
      simp only [leave, Except.ok.injEq, Prod.mk.injEq] at h
      obtain ⟨rfl, rfl⟩ := h
      exact ⟨⟨_, rfl⟩, rfl, rfl⟩
  | schedule => exact schedule_inv (by simp) h
  | «break» =>
      rw [leave] at h
      split_ifs at h with hr
      · rw [bind_eq_ok] at h
        obtain ⟨k₁, hrun, h⟩ := h
        obtain ⟨-, rfl⟩ := run_inv hrun
        simp only [pure, Except.pure, Except.ok.injEq, Prod.mk.injEq] at h
        obtain ⟨rfl, rfl⟩ := h
        exact ⟨⟨_, rfl⟩, rfl, rfl, hr⟩
      · exact schedule_inv (by simp) h

/-- Every slot knows its own number, and slot 0 is never used. -/
structure TableOk (k : Kernel) : Prop where
  zero : k.states 0 = .free
  above : ∀ p, 16 ≤ p → k.states p = .free
  pid : ∀ p, (k.processes p).pid = p
  current : k.current < 16

/-- What one trap, entered with the registers `reg`, does to the process table. -/
structure TrapEffect (k : Kernel) (reg : Registers) (k' : Kernel) (o : Outcome) : Prop where
  other : ∀ q, q ≠ k.current → k.Live q → k'.processes q = k.processes q
  own : o ≠ .returned →
    (k'.processes k.current).registers = { reg with regRax := trapResult k reg }
  child : ∀ c, ¬ k.Live c → k'.Live c → (k'.processes c).registers = { reg with regRax := 0 }
  run : o = .run → k'.current = k.current
  schedule : o = .schedule → scheduleLoop k'.states nProc k.current = some k'.current
  runnable : o.resumed = true → k'.currentProc.state = .runnable

/-- The process table between the `switch` and the way out. -/
structure SwitchEffect (k : Kernel) (reg : Registers) (k' : Kernel) (next : Next) : Prop where
  current : k'.current = k.current
  table : TableOk k'
  other : ∀ q, q ≠ k.current → k.Live q → k'.processes q = k.processes q
  own : next ≠ .return →
    (k'.processes k.current).registers = { reg with regRax := trapResult k reg }
  child : ∀ c, ¬ k.Live c → k'.Live c → (k'.processes c).registers = { reg with regRax := 0 }

theorem TableOk.of_processes {k k' : Kernel} (h : TableOk k) (hp : k'.processes = k.processes)
    (hc : k'.current < 16) : TableOk k' where
  zero := by rw [Kernel.states, hp]; exact h.zero
  above p hge := by rw [Kernel.states, hp]; exact h.above p hge
  pid p := by rw [hp]; exact h.pid p
  current := hc

/-- A slot that was free is still free, or it has become the child of a fork. -/
def FreeOrChild (reg : Registers) (q : ℕ) (p' : Proc) : Prop :=
  p'.pid = q ∧ (p'.state = .free ∨
    1 ≤ q ∧ q < 16 ∧ p'.registers = { reg with regRax := 0 })

theorem SwitchEffect.of_slots {k k' : Kernel} {reg : Registers} {next : Next} (hk : TableOk k)
    (hcur : k'.current = k.current)
    (hother : ∀ q, q ≠ k.current → k.Live q → k'.processes q = k.processes q)
    (hpid : (k'.processes k.current).pid = k.current)
    (hown : next ≠ .return →
      (k'.processes k.current).registers = { reg with regRax := trapResult k reg })
    (hfree : ∀ q, ¬ k.Live q → FreeOrChild reg q (k'.processes q)) :
    SwitchEffect k reg k' next := by
  have hunused (q : ℕ) (hq : k.states q = .free) (hout : q < 1 ∨ 16 ≤ q) :
      k'.states q = .free := by
    obtain ⟨-, hst | ⟨h1, h2, -⟩⟩ := hfree q (not_not.mpr hq)
    · exact hst
    · omega
  refine ⟨hcur, ⟨?_, fun p hge => ?_, fun p => ?_, hcur ▸ hk.current⟩, hother, hown,
    fun c hc hc' => ?_⟩
  · exact hunused 0 hk.zero (by omega)
  · exact hunused p (hk.above p hge) (by omega)
  · by_cases hlive : k.Live p
    · by_cases hp : p = k.current
      · rw [hp, hpid]
      · rw [hother p hp hlive, hk.pid p]
    · exact (hfree p hlive).1
  · obtain ⟨-, hst | ⟨-, -, hregs⟩⟩ := hfree c hc
    · exact absurd hst hc'
    · exact hregs

theorem dispatch_effect {k k' : Kernel} {reg : Registers} {cr2 : ℕ} {next : Next} (hk : TableOk k)
    (hrun : k.currentProc.state = .runnable) (hreg : k.currentProc.registers = reg)
    (h : dispatch k reg cr2 = .ok (k', next)) : SwitchEffect k reg k' next := by
  have hne (q : ℕ) (hq : ¬ k.Live q) : q ≠ k.current := by
    rintro rfl
    exact hq (by rw [Kernel.Live, ← Kernel.currentProc, hrun]; decide)
  obtain ⟨hcur, ⟨p', hown, hproc, hnext⟩ | ⟨hintno, c, hslot, hcase⟩⟩ := dispatch_inv hreg h
  · refine .of_slots hk hcur (fun q hq _ => ?_) ?_ (fun _ => ?_) (fun q hq => ?_)
    · rw [hproc, Function.update_of_ne hq]
    · rw [hproc, Function.update_self, hown.pid]
      exact hk.pid _
    · rw [hproc, Function.update_self, hown.registers]
    · rw [hproc, Function.update_of_ne (hne q hq)]
      exact ⟨hk.pid q, Or.inl (not_not.mp hq)⟩
  · obtain ⟨hc1, hc2, hfree, -⟩ := findFreeSlot_some hslot
    have hnec : k.current ≠ c := Ne.symm (hne c (not_not.mpr hfree))
    have hlive (q : ℕ) (hq : k.Live q) : q ≠ c := by
      rintro rfl
      exact hq hfree
    rcases hcase with ⟨pt, rfl, hproc⟩ | ⟨rfl, hproc⟩
    · refine .of_slots hk hcur (fun q hq hl => ?_) ?_ (fun _ => ?_) (fun q hq => ?_)
      · rw [hproc, Kernel.setRax, Kernel.updateProc_of_ne _ _ _ hq,
          Kernel.updateProc_of_ne _ _ _ (hlive q hl)]
      · rw [hproc, Kernel.setRax, Kernel.updateProc_same, Kernel.updateProc_of_ne _ _ _ hnec]
        exact hk.pid _
      · rw [hproc, Kernel.setRax, Kernel.updateProc_same, Kernel.updateProc_of_ne _ _ _ hnec,
          trapResult, hintno, if_neg (by norm_num), if_neg (by norm_num), if_pos rfl, hslot, ← hreg]
        rfl
      · rw [hproc, Kernel.setRax, Kernel.updateProc_of_ne _ _ _ (hne q hq),
          Kernel.updateProc_apply]
        split_ifs with hqc
        · exact ⟨hqc.symm, Or.inr ⟨by omega, by omega, rfl⟩⟩
        · exact ⟨hk.pid q, Or.inl (not_not.mp hq)⟩
    · refine .of_slots hk hcur (fun q hq hl => ?_) ?_ (fun hr => absurd rfl hr)
        (fun q hq => ?_)
      · rw [hproc, Kernel.setRax, Kernel.updateProc_of_ne _ _ _ hq,
          Kernel.updateProc_of_ne _ _ _ (hlive q hl)]
      · rw [hproc, Kernel.setRax, Kernel.updateProc_same, Kernel.updateProc_of_ne _ _ _ hnec]
        exact hk.pid _
      · rw [hproc, Kernel.setRax, Kernel.updateProc_of_ne _ _ _ (hne q hq),
          Kernel.updateProc_apply]
        split_ifs with hqc
        · exact ⟨hqc.symm, Or.inl rfl⟩
        · exact ⟨hk.pid q, Or.inl (not_not.mp hq)⟩

/-- One trap by a runnable process, from the saved registers to the way out. -/
theorem exception_effect {L : KernelLayout} {k k' : Kernel} {reg : Registers} {cr2 : ℕ}
    {o : Outcome} (hk : TableOk k) (hrun : k.currentProc.state = .runnable)
    (h : exception L k reg cr2 = .ok (k', o)) : TableOk k' ∧ TrapEffect k reg k' o := by
  obtain ⟨m, lt, sh, k₂, next, hd, hl⟩ := exception_inv h
  set k₁ : Kernel := { k.updateProc k.current (fun q => { q with registers := reg }) with
    mem := m, lastTicks := lt, showing := sh } with hk₁
  have hproc (q : ℕ) (hq : q ≠ k.current) : k₁.processes q = k.processes q :=
    Function.update_of_ne hq _ _
  have hself : k₁.processes k.current = { k.currentProc with registers := reg } :=
    Function.update_self _ _ _
  have hcurProc : k₁.currentProc = { k.currentProc with registers := reg } := hself
  have hstates : k₁.states = k.states := by
    funext q
    by_cases hq : q = k.current
    · rw [Kernel.states, hq, hself]
      rfl
    · rw [Kernel.states, hproc q hq, Kernel.states]
  have hk₁ok : TableOk k₁ := by
    refine ⟨by rw [hstates]; exact hk.zero, fun p hge => by rw [hstates]; exact hk.above p hge,
      fun p => ?_, hk.current⟩
    by_cases hp : p = k.current
    · rw [hp, hself]
      exact hk.pid _
    · rw [hproc p hp]
      exact hk.pid p
  have hresult : trapResult k₁ reg = trapResult k reg := by
    have hpid : k₁.currentProc.pid = k.currentProc.pid := by rw [hcurProc]
    have hinfo : k₁.pageinfo = k.pageinfo := rfl
    simp only [trapResult, hpid, hstates, hinfo]
  have hlive (q : ℕ) : k₁.Live q ↔ k.Live q := by
    unfold Kernel.Live
    rw [← Kernel.states, ← Kernel.states, hstates]
  have heff := dispatch_effect hk₁ok (by rw [hcurProc]; exact hrun) (by rw [hcurProc]) hd
  obtain ⟨⟨p, rfl⟩, hway⟩ := leave_inv hl
  change WayOut k₂ next p o at hway
  have hpid₂ : k₂.currentProc.pid = k.current := by
    rw [Kernel.currentProc, heff.table.pid, heff.current]
    rfl
  have hcur' : p < 16 ∧ (o.resumed = true → (k₂.processes p).state = .runnable) := by
    have hlt : k₂.current < 16 := heff.table.current
    cases o with
    | run => exact ⟨hway.2.1 ▸ hlt, fun _ => hway.2.1 ▸ hway.2.2⟩
    | schedule =>
        obtain ⟨d, -, -, hp, hst, -⟩ := scheduleLoop_some (hpid₂ ▸ hk.current) hway.2
        exact ⟨hp ▸ Nat.mod_lt _ (by norm_num), fun _ => hst⟩
    | spin => exact ⟨hway.2.2 ▸ hlt, fun hr => by cases hr⟩
    | returned => exact ⟨hway.2 ▸ hlt, fun hr => by cases hr⟩
  refine ⟨heff.table.of_processes rfl hcur'.1, ⟨fun q hq hl' => ?_, fun ho => ?_,
    fun c hc hc' => ?_,
    fun ho => ?_, fun ho => ?_, hcur'.2⟩⟩
  · rw [← hproc q hq]
    exact heff.other q hq ((hlive q).mpr hl')
  · rw [← hresult]
    apply heff.own
    rintro rfl
    cases o <;> simp_all [WayOut]
  · exact heff.child c (fun h => hc ((hlive c).mp h)) hc'
  · subst ho
    exact hway.2.1.trans heff.current
  · subst ho
    rw [← hpid₂]
    exact hway.2

theorem processSetup_inv {L : KernelLayout} {images : ℕ → ElfImage} {k k' : Kernel}
    {pid program : ℕ} (h : processSetup L images k pid program = .ok k') :
    k'.current = k.current ∧ ∃ p', p'.pid = (k.processes pid).pid ∧ p'.state = .runnable ∧
      k'.processes = Function.update k.processes pid p' := by
  unfold processSetup at h
  rw [bind_eq_ok] at h
  obtain ⟨⟨m, info, pt⟩, -, h⟩ := h
  rw [bind_eq_ok] at h
  obtain ⟨_, -, h⟩ := h
  rw [bind_eq_ok] at h
  obtain ⟨_, -, h⟩ := h
  rw [bind_eq_ok] at h
  obtain ⟨⟨s, ok⟩, -, h⟩ := h
  rw [bind_eq_ok] at h
  obtain ⟨_, -, h⟩ := h
  rw [bind_eq_ok] at h
  obtain ⟨⟨m', info', r⟩, -, h⟩ := h
  obtain rfl := Except.ok.inj h
  refine ⟨rfl, _, ?_, ?_, rfl⟩
  · rfl
  · rfl

theorem setups_pid (command : Option String) : ∀ s ∈ setups command, 1 ≤ s.1 ∧ s.1 < 16 := by
  unfold setups
  split_ifs <;> decide

theorem processSetups_inv {L : KernelLayout} {images : ℕ → ElfImage} {l : List (ℕ × ℕ)}
    (hl : ∀ s ∈ l, 1 ≤ s.1 ∧ s.1 < 16) {k k' : Kernel} (hk : TableOk k)
    (h : l.foldlM (fun k s => processSetup L images k s.1 s.2) k = .ok k') :
    TableOk k' := by
  induction l generalizing k with
  | nil => exact Except.ok.inj h ▸ hk
  | cons s l ih =>
      rw [List.foldlM_cons, bind_eq_ok] at h
      obtain ⟨k₁, h₁, h⟩ := h
      obtain ⟨hcur, p', hpid, -, hproc⟩ := processSetup_inv h₁
      obtain ⟨hs1, hs2⟩ := hl s (by simp)
      refine ih (fun s hs => hl s (by simp [hs])) ⟨?_, fun p hge => ?_, fun p => ?_, ?_⟩ h
      · rw [Kernel.states, hproc, Function.update_of_ne (by omega)]
        exact hk.zero
      · rw [Kernel.states, hproc, Function.update_of_ne (by omega)]
        exact hk.above p hge
      · rw [hproc]
        by_cases hp : p = s.1
        · rw [hp, Function.update_self, hpid]
          exact hk.pid _
        · rw [Function.update_of_ne hp]
          exact hk.pid p
      · rw [hcur]
        exact hk.current

theorem kernelMain_table {L : KernelLayout} {images : ℕ → ElfImage} {m : Memory}
    {command : Option String} {k : Kernel} (h : kernelMain L images m command = .ok k) :
    TableOk k ∧ k.currentProc.state = .runnable := by
  unfold kernelMain at h
  rw [bind_eq_ok] at h
  obtain ⟨m₁, -, h⟩ := h
  rw [bind_eq_ok] at h
  obtain ⟨m₂, -, h⟩ := h
  rw [bind_eq_ok] at h
  obtain ⟨m₃, -, h⟩ := h
  rw [bind_eq_ok] at h
  obtain ⟨k₁, hsetup, h⟩ := h
  obtain ⟨hrun, rfl⟩ := run_inv h
  refine ⟨?_, hrun⟩
  refine (processSetups_inv (setups_pid command) ?_ hsetup).of_processes rfl (by norm_num)
  exact ⟨rfl, fun _ _ => rfl, fun _ => rfl, by norm_num⟩

/-- The process table along every run: slots know their numbers, and while a process runs it is
the current one and runnable. -/
structure RunOk (M : Machine) : Prop where
  table : TableOk M.kernel
  runnable : M.outcome.resumed = true → M.kernel.currentProc.state = .runnable

theorem step_runOk {L : KernelLayout} {M M' : Machine} {e : Event} (h : RunOk M)
    (hs : M.step L e = some M') : RunOk M' := by
  cases e with
  | store va b =>
      have hres := Machine.step_resumed hs
      obtain ⟨t, -, -, -, -, rfl⟩ := Machine.step_store hs
      exact ⟨h.table.of_processes rfl h.table.current, fun _ => h.runnable hres⟩
  | trap cpu t =>
      obtain ⟨hres, k, o, he, rfl⟩ := Machine.step_trap hs
      obtain ⟨htable, heff⟩ := exception_effect h.table (h.runnable hres) he
      exact ⟨htable, heff.runnable⟩

theorem reach_runOk {L : KernelLayout} {images : ℕ → ElfImage} {command : Option String}
    {ok : Machine → Event → Prop} {M : Machine} (h : Machine.Reach L images command ok M) :
    RunOk M := by
  refine h.invariant ?_ (fun M e M' hM _ hs => step_runOk hM hs)
  rintro M ⟨m, k, hk, rfl⟩
  obtain ⟨htable, hrun⟩ := kernelMain_table hk
  exact ⟨htable, fun _ => hrun⟩

end WeensyOS
