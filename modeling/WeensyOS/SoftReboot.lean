import WeensyOS.SystemBoot
import WeensyOS.PairedRuns
import WeensyOS.Keyboard

/-!
# Soft reboots

The kernel polls the keyboard in every trap, in every round of `schedule` that finds nothing to
run, and after a panic, and some keys start it again from `entry_from_boot`. `kernel` leaves a few
static variables as they are, so a rebooted machine is not quite a fresh one. A session is a run
with keys: wherever user code runs in it, the machine is one of a run from a fresh boot, apart from
those variables and the screen.
-/

namespace WeensyOS
open ByteMemory World Runs Keyboard

/-- `k` with the static variables of `k'` that `kernel` neither reads nor sets. -/
def Kernel.withStatics (k k' : Kernel) : Kernel :=
  { k with ticks := k'.ticks, dispGlobal := k'.dispGlobal, lastTicks := k'.lastTicks,
           showing := k'.showing }

@[simp] abbrev ptePS : ℕ := 0x80

/-- The temporary page table of `check_keyboard`. -/
def rebootTable (m : Memory) : Memory :=
  let pt := 0x8000
  let m := memset m pt 0 (pageSize * 3)
  let m := setEntry m pt 0 (0x9000 ||| pteP ||| pteW ||| pteU)
  let m := setEntry m (pt + pageSize) 0 (0xA000 ||| pteP ||| pteW ||| pteU)
  setEntry m (pt + 2 * pageSize) 0 (pteP ||| pteW ||| pteU ||| ptePS)

def softReboot (L : KernelLayout) (images : ℕ → ElfImage) (k : Kernel) (argument : String) :
    Except Panic Kernel := do
  let k' ← kernelMain L images (rebootTable k.mem) (some argument)
  pure (k'.withStatics k)

/-- Where the kernel is: in user code, at the poll in `schedule` after slot `pid`, in `fail`, or
powered off. -/
inductive Phase where
  | on (M : Machine)
  | polling (k : Kernel) (pid : ℕ)
  | failed
  | off

structure Session where
  phase : Phase
  keyboard : Keyboard

/-- A step of user code or a poll of the keyboard. Of the kernel's state after a panic nothing is
known, so a poll in `fail` brings it along. -/
inductive SessionEvent where
  | store (va : ℕ) (b : UInt8)
  | trap (cpu : Cpu) (t : Trap) (input : Option (BitVec 8))
  | poll (input : Option (BitVec 8))
  | failedPoll (k : Kernel) (input : Option (BitVec 8))

/-- A panic ends in `fail`. -/
def Phase.ofResult (r : Except Panic Kernel) (f : Kernel → Phase) : Phase :=
  match r with
  | .ok k => f k
  | .error _ => .failed

/-- A round of the loop of `schedule`. -/
def scheduleRound (L : KernelLayout) (k : Kernel) (pid : ℕ) : Phase :=
  let pid := (pid + 1) % nProc
  if (k.processes pid).state = .runnable then
    .ofResult (run L k pid) fun k => .on (Machine.resume k .schedule)
  else .polling k pid

def leavePhase (L : KernelLayout) (k : Kernel) : Next → Phase
  | .return => .on (Machine.resume k .returned)
  | .schedule => scheduleRound L k k.currentProc.pid
  | .break =>
    if k.currentProc.state = .runnable then
      .ofResult (run L k k.current) fun k => .on (Machine.resume k .run)
    else scheduleRound L k k.currentProc.pid

/-- `exception(reg)` up to `check_keyboard`. -/
def exceptionEntry (L : KernelLayout) (k : Kernel) (reg : Registers) : Except Panic Kernel := do
  let k := k.updateProc k.current (fun q => { q with registers := reg })
  setPagetable L k.mem L.kernelPagetables
  showMemory L k reg

/-- `exception(reg)` from `check_keyboard` on. -/
def exceptionRest (L : KernelLayout) (k : Kernel) (reg : Registers) (cr2 : ℕ) : Phase :=
  match dispatch k reg cr2 with
  | .ok (k, next) => leavePhase L k next
  | .error _ => .failed

namespace Session

/-- `check_keyboard`, and then `rest` unless a key was a command. -/
def checked (L : KernelLayout) (images : ℕ → ElfImage) (S : Session) (k : Kernel)
    (input : Option (BitVec 8)) (rest : Phase) : Session :=
  let r := checkKeyboard S.keyboard input
  match r.2 with
  | .none => ⟨rest, r.1⟩
  | .reboot argument =>
    ⟨.ofResult (softReboot L images k argument) fun k => .on (Machine.resume k .run), r.1⟩
  | .poweroff => ⟨.off, r.1⟩

def step (L : KernelLayout) (images : ℕ → ElfImage) (S : Session) : SessionEvent → Option Session
  | .store va b =>
    match S.phase with
    | .on M => (M.step L (.store va b)).map fun M => ⟨.on M, S.keyboard⟩
    | _ => none
  | .trap cpu t input =>
    match S.phase with
    | .on M =>
      if M.outcome.resumed then
        let reg := Registers.ofWords (trapFrame cpu t)
        match exceptionEntry L M.kernel reg with
        | .ok k => some (S.checked L images k input (exceptionRest L k reg t.cr2))
        | .error _ => some ⟨.failed, S.keyboard⟩
      else none
    | _ => none
  | .poll input =>
    match S.phase with
    | .polling k pid => some (S.checked L images k input (scheduleRound L k pid))
    | _ => none
  | .failedPoll k input =>
    match S.phase with
    | .failed => some (S.checked L images k input .failed)
    | _ => none

/-- Any command may come from the boot loader. -/
def Starts (L : KernelLayout) (images : ℕ → ElfImage) (S : Session) : Prop :=
  ∃ command M, Machine.Boots L images command M ∧ S = ⟨.on M, .initial⟩

/-- User code keeps to the discipline, except that it may ask for a panic if `panics`. Keys are
free. -/
def Ok (panics : Prop) (S : Session) (e : SessionEvent) : Prop :=
  match S.phase, e with
  | .on M, .trap cpu t _ => Orderly M (.trap cpu t) ∧ t.user ∨ panics ∧ t = .sysPanic
  | _, _ => True

def Reach (L : KernelLayout) (images : ℕ → ElfImage) (panics : Prop) : Session → Prop :=
  Runs.Reachable (Starts L images) (step L images) (Ok panics)

end Session

variable {L : KernelLayout} {images : ℕ → ElfImage} {command : Option String} {w : World}

/-- Equal but for the screen and the variables that `kernel` leaves alone. -/
structure Kernel.Resembles (k k₀ : Kernel) : Prop where
  pageinfo : k.pageinfo = k₀.pageinfo
  processes : k.processes = k₀.processes
  current : k.current = k₀.current
  mem : AgreeOff 4096 (· = consolePage) k₀.mem k.mem

structure Machine.Resembles (M M₀ : Machine) : Prop where
  kernel : M.kernel.Resembles M₀.kernel
  cpu : M.cpu = M₀.cpu
  outcome : M.outcome = M₀.outcome

theorem World.Wf.frame_ne_console (hw : w.Wf L) {p i : ℕ} {r : Ref}
    (hr : w.held (p, .page i) = some r) : r.frame ≠ consolePage := by
  intro hcons
  rcases hw.page_frame p i r hr with hu | ⟨hzero, -⟩
  · exact not_usable_console (hcons ▸ hu)
  · rw [hzero] at hcons
    cases hcons

namespace Kernel.Resembles
variable {k k₀ : Kernel} (h : k.Resembles k₀)

include h

theorem eq : k = (k₀.withMem k.mem).withStatics k := by
  cases k
  cases k₀
  obtain ⟨rfl, rfl, rfl, -⟩ := h
  rfl

theorem currentProc : k.currentProc = k₀.currentProc := by
  rw [Kernel.currentProc, h.processes, h.current]
  rfl

theorem resume (o : Outcome) : (Machine.resume k o).Resembles (Machine.resume k₀ o) := by
  refine ⟨h, ?_, rfl⟩
  rw [Machine.resume, Machine.resume, h.currentProc]

theorem updateProc (p : ℕ) (f : Proc → Proc) : (k.updateProc p f).Resembles (k₀.updateProc p f) :=
  ⟨h.pageinfo, by rw [Kernel.updateProc, Kernel.updateProc, h.processes], h.current, h.mem⟩

theorem sim (hs : Sim L k₀ w) (hw : w.Wf L) : Sim L k w := by
  refine ⟨h.pageinfo.trans hs.info, ?_, fun p => ?_, h.current.trans hs.current, ?_⟩
  · rw [← hs.state]
    exact congrArg (fun processes p => (processes p).state) h.processes
  · rw [h.processes]
    exact hs.pid p
  · rw [h.processes]
    exact hs.mem.console_frame hw h.mem

/-- Both have the same page tables, whatever is on the screen. -/
theorem lookup_eq (hs : Sim L k₀ w) (hw : w.Wf L) {p : ℕ} (hp : w.Live p) (va : ℕ) :
    virtualMemoryLookup k.mem (k.processes p).pagetable va =
      virtualMemoryLookup k₀.mem (k₀.processes p).pagetable va := by
  have hk := (h.sim hs hw).mem
  rw [hk.root p hp, hs.mem.root p hp, (hk.tree p hp).lookup_eq, (hs.mem.tree p hp).lookup_eq]

theorem walk_eq (hs : Sim L k₀ w) (hw : w.Wf L) {p : ℕ} (hp : w.Live p) (va : ℕ) :
    walk k.mem (k.processes p).pagetable va = walk k₀.mem (k₀.processes p).pagetable va := by
  have hk := (h.sim hs hw).mem
  rw [hk.root p hp, hs.mem.root p hp, (hk.tree p hp).walk_eq, (hs.mem.tree p hp).walk_eq]

theorem showMemory (hs : Sim L k₀ w) (hw : w.Wf L) (hchk : w.Checked L) {reg : Registers}
    (hreg : showsMemory reg) : ∃ k' k₀', WeensyOS.showMemory L k reg = .ok k' ∧
      WeensyOS.showMemory L k₀ reg = .ok k₀' ∧ k'.Resembles k₀' ∧ Sim L k₀' w ∧
        k₀'.processes = k₀.processes ∧ k₀'.current = k₀.current := by
  obtain ⟨m, lt, sh, hshow, ha⟩ := (h.sim hs hw).showMemory_ok hw hchk hreg
  obtain ⟨m₀, lt₀, sh₀, hshow₀, ha₀⟩ := hs.showMemory_ok hw hchk hreg
  refine ⟨_, _, hshow, hshow₀, ⟨h.pageinfo, h.processes, h.current, fun x hx => ?_⟩,
    ⟨hs.info, hs.state, hs.pid, hs.current, hs.mem.console_frame hw ha₀⟩, rfl, rfl⟩
  calc m x = k.mem x := ha x hx
    _ = k₀.mem x := h.mem x hx
    _ = m₀ x := (ha₀ x hx).symm

end Kernel.Resembles

/-! The branches of `exception` do not look at the screen or at those variables. -/

theorem sysFork_withStatics (k k' : Kernel) : sysFork (k.withStatics k') =
    (sysFork k).map fun r => (r.1.withStatics k', r.2) := by
  have hstates : (k.withStatics k').states = k.states := rfl
  unfold sysFork
  rw [hstates]
  cases findFreeSlot k.states (nProc - 1) 1 with
  | none => rfl
  | some c =>
      dsimp only
      set k₁ := k.updateProc c fun q => { q with pid := c, state := .runnable }
      change (duplicatePagetable k.mem k.pageinfo k₁.currentProc.pagetable c >>= _) =
        (duplicatePagetable k.mem k.pageinfo k₁.currentProc.pagetable c >>= _).map _
      cases duplicatePagetable k.mem k.pageinfo k₁.currentProc.pagetable c with
      | error e => rfl
      | ok r =>
          obtain ⟨m, info, pt⟩ := r
          rw [ok_bind, ok_bind]
          dsimp only
          by_cases hpt : pt ≠ 0
          · rw [if_pos hpt, if_pos hpt]
            set parent := k₁.currentProc.pagetable
            change (forkLoop parent pt c userPages procStartAddr (m, info) >>= _) =
              (forkLoop parent pt c userPages procStartAddr (m, info) >>= _).map _
            cases forkLoop parent pt c userPages procStartAddr (m, info) with
            | error e => rfl
            | ok r => rfl
          · rw [if_neg hpt, if_neg hpt]
            rfl

theorem dispatch_withStatics (k k' : Kernel) {cpu : Cpu} {t : Trap} (ht : t.keepsRunning = true) :
    dispatch (k.withStatics k') (Registers.ofWords (trapFrame cpu t)) t.cr2 =
      (dispatch k (Registers.ofWords (trapFrame cpu t)) t.cr2).map
        fun r => (r.1.withStatics k', r.2) := by
  have hn := intno_ofWords cpu t
  rcases Trap.keepsRunning_cases ht with rfl | rfl | rfl
  · unfold dispatch
    rw [hn]
    rfl
  · unfold dispatch
    rw [hn]
    change (sysPageAllocFindFree k.mem k.pageinfo k.currentProc.pagetable k.currentProc.pid
      k.currentProc.registers.regRdi.toNat >>= _) =
      (sysPageAllocFindFree k.mem k.pageinfo k.currentProc.pagetable k.currentProc.pid
      k.currentProc.registers.regRdi.toNat >>= _).map _
    cases sysPageAllocFindFree k.mem k.pageinfo k.currentProc.pagetable k.currentProc.pid
      k.currentProc.registers.regRdi.toNat with
    | error e => rfl
    | ok r => rfl
  · unfold dispatch
    rw [hn]
    exact sysFork_withStatics k k'

section dispatch
variable {k k₀ : Kernel} {cpu : Cpu} {t : Trap} (h : k.Resembles k₀) (hs : Sim L k₀ w)
  (hw : w.Wf L) (hrun : w.Live w.current)

include h hs hw hrun

theorem Kernel.Resembles.sysExit : (sysExit k).Resembles (sysExit k₀) := by
  obtain ⟨hexit, hmem⟩ := sysExit_ok (h.sim hs hw) hw hrun
  obtain ⟨hexit₀, hmem₀⟩ := sysExit_ok hs hw hrun
  refine ⟨hexit.info.trans hexit₀.info.symm, ?_, ?_, ?_⟩
  · rw [sysExit_processes, sysExit_processes, h.processes, h.current, h.currentProc]
  · rw [sysExit_current, sysExit_current, h.current]
  · rw [hmem, hmem₀]
    exact h.mem

/-- The same branch of the `switch`, with the same effect. -/
theorem Kernel.Resembles.dispatch (hchk : w.Checked L)
    (hreg : k₀.currentProc.registers = Registers.ofWords (trapFrame cpu t))
    (ht : t.ordinary = true) (huser : t.user) (halloc : t = .pageAlloc → w.AllocOk cpu.rdi.toNat) :
    ∃ k' k₀' next, dispatch k (Registers.ofWords (trapFrame cpu t)) t.cr2 = .ok (k', next) ∧
      dispatch k₀ (Registers.ofWords (trapFrame cpu t)) t.cr2 = .ok (k₀', next) ∧
      k'.Resembles k₀' := by
  have hkeeps (hk : t.keepsRunning = true) :
      ∃ k' k₀' next, WeensyOS.dispatch k (Registers.ofWords (trapFrame cpu t)) t.cr2 =
          .ok (k', next) ∧
        WeensyOS.dispatch k₀ (Registers.ofWords (trapFrame cpu t)) t.cr2 = .ok (k₀', next) ∧
        k'.Resembles k₀' := by
    have hmem : Kernel.Resembles (k₀.withMem k.mem) k₀ := ⟨rfl, rfl, rfl, h.mem⟩
    have hshown : w.Shown (· = consolePage) w.current :=
      .inr fun i r hr => hw.frame_ne_console hr
    obtain ⟨k₀', n, next, hd₀, hd, ha⟩ :=
      dispatch_paired hs (hmem.sim hs hw) hw hchk hrun hreg hk halloc hshown h.mem
    have hstatics := @dispatch_withStatics (k₀.withMem k.mem) k cpu t hk
    rw [← h.eq, hd] at hstatics
    exact ⟨_, k₀', next, hstatics, hd₀, rfl, rfl, rfl, ha⟩
  have hn := intno_ofWords cpu t
  cases t with
  | timer =>
      refine ⟨{ k with ticks := (k.ticks + 1) % 2 ^ 32 },
        { k₀ with ticks := (k₀.ticks + 1) % 2 ^ 32 }, .schedule, ?_, ?_,
        h.pageinfo, h.processes, h.current, h.mem⟩
      · unfold WeensyOS.dispatch
        rw [hn]
        rfl
      · unfold WeensyOS.dispatch
        rw [hn]
        rfl
  | pagefault err cr2 =>
      have herr : ¬ (Registers.ofWords (trapFrame cpu (.pagefault err cr2))).regErr.toNat &&&
        pferrUser = 0 := huser
      have hprint := h.mem.map (pointwise_consolePrintf (cpos 24 0) 0x0C00 (pagefaultMessage
        k₀.currentProc.pid (Registers.ofWords (trapFrame cpu (.pagefault err cr2))) cr2))
      unfold WeensyOS.dispatch
      rw [hn]
      simp only [Trap.intno, Trap.cr2, if_neg herr]
      rw [h.currentProc, h.current]
      refine ⟨_, _, _, rfl, rfl, Kernel.Resembles.updateProc ?_ _ _⟩
      exact ⟨h.pageinfo, h.processes, rfl, hprint⟩
  | gpf err => cases ht
  | syscall n =>
      fin_cases n
      any_goals cases ht
      · exact hkeeps rfl
      · refine ⟨k, k₀, .schedule, ?_, ?_, h⟩
        · unfold WeensyOS.dispatch
          rw [hn]
          rfl
        · unfold WeensyOS.dispatch
          rw [hn]
          rfl
      · exact hkeeps rfl
      · exact hkeeps rfl
      · refine ⟨WeensyOS.sysExit k, WeensyOS.sysExit k₀, .break, ?_, ?_, h.sysExit hs hw hrun⟩
        · unfold WeensyOS.dispatch
          rw [hn]
          rfl
        · unfold WeensyOS.dispatch
          rw [hn]
          rfl

end dispatch

namespace Machine.Resembles
variable {M M' M₀ : Machine} (h : M.Resembles M₀) (hM : Represents L M₀ w)

include h hM

theorem orderly (hres : M₀.outcome.resumed = true) {e : Event} (he : Orderly M e) :
    Orderly M₀ e := by
  have hrun := hM.live hres
  have hlook (va : ℕ) : virtualMemoryLookup M.kernel.mem M.kernel.currentProc.pagetable va =
      virtualMemoryLookup M₀.kernel.mem M₀.kernel.currentProc.pagetable va := by
    have hva := h.kernel.lookup_eq hM.sim hM.wf hrun va
    rw [Kernel.currentProc, Kernel.currentProc, h.kernel.current, hM.sim.current]
    exact hva
  have hstates : M.kernel.states = M₀.kernel.states :=
    congrArg (fun processes p => (processes p).state) h.kernel.processes
  cases e with
  | store va b => exact ⟨trivial, trivial⟩
  | trap cpu t =>
      obtain ⟨⟨ht, halloc, hfork⟩, horphan⟩ := he
      refine ⟨⟨ht, fun hp => ?_, fun hp => ?_⟩, ?_⟩
      · have hunmapped := halloc hp
        unfold Kernel.Unmapped at hunmapped ⊢
        rwa [hlook, h.kernel.pageinfo] at hunmapped
      · have hroom := hfork hp
        unfold Kernel.ForkRoom Kernel.writablePages at hroom ⊢
        simp only [hlook] at hroom
        rwa [hstates, h.kernel.pageinfo] at hroom
      · unfold NoOrphan at horphan ⊢
        rwa [h.kernel.pageinfo, h.kernel.current] at horphan

theorem store {va : ℕ} {b : UInt8} (hs : M.step L (.store va b) = some M') :
    ∃ M₀', M₀.step L (.store va b) = some M₀' ∧ M'.Resembles M₀' := by
  have hres : M₀.outcome.resumed = true := h.outcome ▸ Machine.step_resumed hs
  obtain ⟨t, hwalk, hva, hwr, hus, rfl⟩ := Machine.step_store hs
  have hwalk₀ : walk M₀.kernel.mem M₀.kernel.currentProc.pagetable va = some t := by
    rw [← hwalk, Kernel.currentProc, Kernel.currentProc, h.kernel.current, hM.sim.current]
    exact (h.kernel.walk_eq hM.sim hM.wf (hM.live hres) va).symm
  obtain ⟨M₀', hs₀⟩ := Machine.step_store_eq (b := b) hres hwalk₀ hva hwr hus
  obtain ⟨t', hwalk', -, -, -, rfl⟩ := Machine.step_store hs₀
  obtain rfl := Option.some.inj (hwalk₀.symm.trans hwalk')
  refine ⟨_, hs₀, ⟨h.kernel.pageinfo, h.kernel.processes, h.kernel.current, fun x hx => ?_⟩,
    h.cpu, rfl⟩
  change Function.update M.kernel.mem t.pa b x = Function.update M₀.kernel.mem t.pa b x
  rw [Function.update_apply, Function.update_apply, h.kernel.mem x hx]

/-- The processes are the same, with their registers and their memory. -/
theorem system_eq : M.kernel.system = M₀.kernel.system := by
  have hM' : Represents L M w :=
    ⟨h.kernel.sim hM.sim hM.wf, hM.wf, fun hr => hM.runnable (h.outcome ▸ hr)⟩
  have hmemory (p : ℕ) (hp : w.Live p) : M.kernel.memory p = M₀.kernel.memory p := by
    funext va
    by_cases hva : procStartAddr ≤ va ∧ va < memsizeVirtual
    · rw [hM'.memory_eq hp hva, hM.memory_eq hp hva]
      cases hr : w.held (p, .page (va / 4096)) with
      | none => rfl
      | some r =>
          have hne := hM.wf.frame_ne_console hr
          rw [Option.map_some, Option.map_some, h.kernel.mem _ (by omega)]
    · rw [Kernel.memory_outside hva, Kernel.memory_outside hva]
  have hprocess (p : ℕ) : M.kernel.process p = M₀.kernel.process p := by
    rw [hM'.process_eq, hM.process_eq, h.kernel.processes]
    by_cases hp : w.state p = .free
    · rw [if_pos hp, if_pos hp]
    · rw [if_neg hp, if_neg hp, hmemory p hp]
  rw [Kernel.system, Kernel.system, h.kernel.current, funext hprocess]

end Machine.Resembles

/-! The phases of a session. -/

/-- `check_keyboard` may call for any command. -/
structure Bootable (L : KernelLayout) (images : ℕ → ElfImage) : Prop where
  fit : ∀ command, ImagesFit L images command
  disjoint : ∀ command, ImagesDisjoint images command
  sound : ∀ command, ∀ s ∈ setups command, (images s.2).Sound

/-- Behind every phase there is a run from a fresh boot. In `schedule` it is the one that goes on
when the loop has found its process, `d` slots have been visited so far. -/
inductive Mirrored (L : KernelLayout) (images : ℕ → ElfImage) (panics : Prop) : Phase → Prop
  | on {M M₀ : Machine} {command : Option String}
      (hreach : Machine.Reach L images command Orderly M₀) (h : M.Resembles M₀) :
      Mirrored L images panics (.on M)
  | polling {k k₀ : Kernel} {pid d : ℕ} {w : World} {command : Option String}
      (hreach : ∀ k' o, schedule L k₀ = .ok (k', o) →
        Machine.Reach L images command Orderly (Machine.resume k' o))
      (h : k.Resembles k₀) (hs : Sim L k₀ w) (hw : w.Wf L) (hpid : pid = (w.current + d) % nProc)
      (hnone : ∀ d', 0 < d' → d' ≤ d → w.state ((w.current + d') % nProc) ≠ .runnable) :
      Mirrored L images panics (.polling k pid)
  | failed (h : panics) : Mirrored L images panics .failed
  | off : Mirrored L images panics .off

theorem scheduleLoop_first {state : ℕ → ProcState} {pid d : ℕ} (hpid : pid < 16)
    (hnone : ∀ d', 0 < d' → d' ≤ d → state ((pid + d') % nProc) ≠ .runnable)
    (hrun : state ((pid + (d + 1)) % nProc) = .runnable) :
    scheduleLoop state nProc pid = some ((pid + (d + 1)) % nProc) := by
  obtain ⟨p, hp⟩ := Option.isSome_iff_exists.mp
    (scheduleLoop_isSome hpid (Nat.mod_lt _ (by norm_num)) hrun)
  obtain ⟨d', h1, -, rfl, hrun', hfirst⟩ := scheduleLoop_some hpid hp
  have heq : d' = d + 1 := by
    rcases Nat.lt_trichotomy d' (d + 1) with hlt | heq | hgt
    · exact absurd hrun' (hnone d' h1 (by omega))
    · exact heq
    · exact absurd hrun (hfirst (d + 1) (by omega) hgt)
  rw [hp, heq]

section mirrored
variable {panics : Prop} {k k₀ : Kernel}

theorem mirrored_round {d : ℕ}
    (hreach : ∀ k' o, schedule L k₀ = .ok (k', o) →
      Machine.Reach L images command Orderly (Machine.resume k' o))
    (h : k.Resembles k₀) (hs : Sim L k₀ w) (hw : w.Wf L)
    (hnone : ∀ d', 0 < d' → d' ≤ d → w.state ((w.current + d') % nProc) ≠ .runnable) :
    Mirrored L images panics (scheduleRound L k ((w.current + d) % nProc)) := by
  have hstate (p : ℕ) : (k.processes p).state = w.state p := congrFun (h.sim hs hw).state p
  have hnext : ((w.current + d) % nProc + 1) % nProc = (w.current + (d + 1)) % nProc := by
    simp only [nProc]
    omega
  unfold scheduleRound
  dsimp only
  rw [hnext, hstate]
  split_ifs with hr
  · have hpid : k₀.currentProc.pid = w.current := by
      rw [Kernel.currentProc, hs.pid, hs.current]
    have hsched : schedule L k₀ =
        .ok ({ k₀ with current := (w.current + (d + 1)) % nProc }, .schedule) := by
      unfold schedule
      rw [hs.state, hpid, scheduleLoop_first hw.current hnone hr]
      dsimp only
      rw [(run_ok hs hr).1]
      rfl
    rw [(run_ok (h.sim hs hw) hr).1]
    refine .on (hreach _ _ hsched) (Kernel.Resembles.resume ?_ _)
    exact ⟨h.pageinfo, h.processes, rfl, h.mem⟩
  · refine .polling hreach h hs hw rfl fun d' h1 h2 => ?_
    by_cases hd : d' = d + 1
    · rwa [hd]
    · exact hnone d' h1 (by omega)

theorem mirrored_leave {next : Next}
    (hreach : ∀ k' o, leave L k₀ next = .ok (k', o) →
      Machine.Reach L images command Orderly (Machine.resume k' o))
    (h : k.Resembles k₀) (hs : Sim L k₀ w) (hw : w.Wf L) :
    Mirrored L images panics (leavePhase L k next) := by
  have hpid : k.currentProc.pid = (w.current + 0) % nProc := by
    rw [h.currentProc, Kernel.currentProc, hs.pid, hs.current, Nat.add_zero,
      Nat.mod_eq_of_lt (show w.current < nProc from hw.current)]
  have hround (hreach : ∀ k' o, schedule L k₀ = .ok (k', o) →
      Machine.Reach L images command Orderly (Machine.resume k' o)) :
      Mirrored L images panics (scheduleRound L k k.currentProc.pid) := by
    rw [hpid]
    exact mirrored_round hreach h hs hw fun d' h1 h2 => by omega
  cases next with
  | «return» => exact .on (hreach _ _ rfl) (h.resume _)
  | schedule => exact hround hreach
  | «break» =>
      have hstate : k₀.currentProc.state = w.state w.current := by
        rw [← hs.state, ← hs.current]
        rfl
      unfold leavePhase
      unfold leave at hreach
      dsimp only at hreach ⊢
      rw [hstate] at hreach
      rw [h.currentProc, hstate]
      split_ifs with hr
      · obtain ⟨hrun₀, -⟩ := run_ok hs hr
        rw [if_pos hr, hs.current, hrun₀] at hreach
        rw [h.current, hs.current, (run_ok (h.sim hs hw) hr).1]
        refine .on (hreach _ _ rfl) (Kernel.Resembles.resume ?_ _)
        exact ⟨h.pageinfo, h.processes, rfl, h.mem⟩
      · rw [if_neg hr] at hreach
        rw [← h.currentProc]
        exact hround hreach

/-- A reboot succeeds from any state, and leaves a fresh machine. -/
theorem softReboot_ok (hboot : Bootable L images) (k : Kernel) (argument : String) :
    ∃ k', softReboot L images k argument = .ok (k'.withStatics k) ∧
      Machine.Boots L images (some argument) (Machine.resume k' .run) ∧
      (k'.withStatics k).Resembles k' := by
  obtain ⟨k', -, hk, -, -⟩ := kernelMain_ok (hboot.fit (some argument)) (rebootTable k.mem)
    (hboot.sound (some argument))
  refine ⟨k', ?_, ⟨_, k', hk, rfl⟩, rfl, rfl, rfl, AgreeOff.refl _ _ _⟩
  rw [softReboot, hk]
  rfl

theorem mirrored_checked (hboot : Bootable L images) (S : Session) (k : Kernel)
    (input : Option (BitVec 8)) {rest : Phase} (hrest : Mirrored L images panics rest) :
    Mirrored L images panics (S.checked L images k input rest).phase := by
  unfold Session.checked
  cases hact : (checkKeyboard S.keyboard input).2 with
  | none => simpa only [hact] using hrest
  | poweroff => simpa only [hact] using Mirrored.off
  | reboot argument =>
      obtain ⟨k', hk, hboots, hres⟩ := softReboot_ok hboot k argument
      simp only [hact, hk]
      exact .on (.start hboots) (hres.resume .run)

variable (panics) in
/-- A disciplined trap, whatever key is pressed. -/
theorem mirrored_trap (hboot : Bootable L images) (S : Session) {M M₀ : Machine}
    (hreach : Machine.Reach L images command Orderly M₀) (h : M.Resembles M₀)
    (hres : M.outcome.resumed = true) {cpu : Cpu} {t : Trap}
    (hok : Orderly M (.trap cpu t)) (huser : t.user) (input : Option (BitVec 8)) :
    ∃ k, exceptionEntry L M.kernel (Registers.ofWords (trapFrame cpu t)) = .ok k ∧
      Mirrored L images panics (S.checked L images k input
        (exceptionRest L k (Registers.ofWords (trapFrame cpu t)) t.cr2)).phase := by
  obtain ⟨w, hM, hex, hown⟩ := reach_owned (hboot.fit _) (hboot.disjoint _) hreach
  rw [h.outcome] at hres
  have hrun := hM.live hres
  have hok₀ := h.orderly hM hres hok
  have ht := hok₀.1.1
  have hchk := hown.checked hex hM.wf fun pn hu => hex.held_of_pos hu
  have hreg := hok₀.1.regular hM hrun hex
  have halloc (hp : t = .pageAlloc) : w.AllocOk cpu.rdi.toNat :=
    ⟨fun _ _ => (hreg.range hp).1, fun hlow hfree hin =>
      (hreg.range hp).high hlow hfree hin (hreg.range hp).1⟩
  set reg := Registers.ofWords (trapFrame cpu t) with hregs
  let save : Proc → Proc := fun q => { q with registers := reg }
  have hsave : (M.kernel.updateProc M.kernel.current save).Resembles
      (M₀.kernel.updateProc M₀.kernel.current save) := by
    rw [h.kernel.current]
    exact h.kernel.updateProc _ _
  have hsim : Sim L (M₀.kernel.updateProc M₀.kernel.current save) w :=
    hM.sim.updateProc _ fun _ => ⟨rfl, rfl, rfl⟩
  obtain ⟨k, k₀, hshow, hshow₀, hk, hk₀, hproc, hcur⟩ := hsave.showMemory hsim hM.wf hchk
    (showsMemory_of_ordinary cpu ht huser)
  have hkregs : k₀.currentProc.registers = reg := by
    rw [Kernel.currentProc, hproc, hcur]
    simp [save]
  obtain ⟨k', k₀', next, hd, hd₀, hk'⟩ := hk.dispatch hk₀ hM.wf hrun hchk hkregs ht huser halloc
  obtain ⟨k₁, hd₁, hk₁, -⟩ := dispatch_ok hk₀ hM.wf hrun hkregs hchk ht huser halloc
  obtain ⟨rfl, hnext⟩ := Prod.mk.inj (Except.ok.inj (hd₀.symm.trans hd₁))
  refine ⟨k, ?_, mirrored_checked hboot S k input ?_⟩
  · unfold exceptionEntry
    dsimp only
    rw [Kernel.updateProc_mem, setPagetable_kernel (h.kernel.sim hM.sim hM.wf).mem.kernel, ok_bind]
    exact hshow
  · unfold exceptionRest
    rw [hd]
    refine mirrored_leave (fun k₂ o hleave => hreach.next hok₀ (Machine.step_trap_eq hres ?_)) hk'
      hk₁ (hM.wf.dispatch hchk hrun t halloc)
    unfold exception
    dsimp only
    rw [Kernel.updateProc_mem, setPagetable_kernel hM.sim.mem.kernel, ok_bind]
    change (WeensyOS.showMemory L (M₀.kernel.updateProc M₀.kernel.current save) reg >>= _) = _
    rw [hshow₀, ok_bind, hd₀, ok_bind]
    exact hleave

theorem exceptionRest_panic (k : Kernel) (cpu : Cpu) (cr2 : ℕ) :
    exceptionRest L k (Registers.ofWords (trapFrame cpu .sysPanic)) cr2 = .failed := by
  unfold exceptionRest dispatch
  rw [intno_ofWords]
  rfl

theorem mirrored_step (hboot : Bootable L images) {S S' : Session} {e : SessionEvent}
    (h : Mirrored L images panics S.phase) (hok : S.Ok panics e)
    (hs : S.step L images e = some S') : Mirrored L images panics S'.phase := by
  obtain ⟨phase, kb⟩ := S
  dsimp only at h
  cases e with
  | store va b =>
      cases h with
      | @on M M₀ command hreach h =>
          obtain ⟨M', hM', rfl⟩ := Option.map_eq_some_iff.mp hs
          obtain ⟨w, hM, -⟩ := reach_owned (hboot.fit _) (hboot.disjoint _) hreach
          obtain ⟨M₀', hs₀, h'⟩ := h.store hM hM'
          have hok₀ : Orderly M₀ (.store va b) := ⟨trivial, trivial⟩
          exact .on (hreach.next hok₀ hs₀) h'
      | polling => cases hs
      | failed => cases hs
      | off => cases hs
  | trap cpu t input =>
      cases h with
      | @on M M₀ command hreach h =>
          simp only [Session.step] at hs
          split_ifs at hs with hres
          rcases hok with ⟨hord, huser⟩ | ⟨hpanics, rfl⟩
          · obtain ⟨k, hk, hmirror⟩ := mirrored_trap panics hboot ⟨.on M, kb⟩ hreach h hres
              hord huser input
            rw [hk] at hs
            obtain rfl := Option.some.inj hs
            exact hmirror
          · split at hs
            · obtain rfl := Option.some.inj hs
              rw [exceptionRest_panic]
              exact mirrored_checked hboot _ _ _ (.failed hpanics)
            · obtain rfl := Option.some.inj hs
              exact .failed hpanics
      | polling => cases hs
      | failed => cases hs
      | off => cases hs
  | poll input =>
      cases h with
      | polling hreach h hsim hw hpid hnone =>
          obtain rfl := Option.some.inj hs
          subst hpid
          exact mirrored_checked hboot _ _ _ (mirrored_round hreach h hsim hw hnone)
      | on => cases hs
      | failed => cases hs
      | off => cases hs
  | failedPoll k input =>
      cases h with
      | failed hpanics =>
          obtain rfl := Option.some.inj hs
          exact mirrored_checked hboot _ _ _ (.failed hpanics)
      | on => cases hs
      | polling => cases hs
      | off => cases hs

end mirrored

theorem reach_mirrored {panics : Prop} {S : Session} (hboot : Bootable L images)
    (h : Session.Reach L images panics S) : Mirrored L images panics S.phase := by
  refine h.invariant ?_ fun S e S' hS hok hs => mirrored_step hboot hS hok hs
  rintro S ⟨command, M, hM, rfl⟩
  exact .on (.start hM) ⟨⟨rfl, rfl, rfl, AgreeOff.refl _ _ _⟩, rfl, rfl⟩

theorem sample_bootable (L : KernelLayout) : Bootable L (sampleImages 0) where
  fit command := sample_fits L 0 command (by unfold setups; split_ifs <;> simp)
  disjoint := sample_disjoint 0
  sound _ s _ := by
    refine ⟨rfl, fun ph hph => ?_⟩
    rw [sample_segments] at hph
    rcases List.mem_pair.mp hph with rfl | rfl
    · norm_num
    · exact Nat.zero_le _

/-- A process panics right after the boot. -/
theorem sample_failed (L : KernelLayout) :
    Session.Reach L (sampleImages 0) True ⟨.failed, .initial⟩ := by
  obtain ⟨M, hM⟩ := sample_boots L 0 none (by decide)
  have hres : M.outcome.resumed = true := by
    obtain ⟨m, k, -, rfl⟩ := hM
    rfl
  have hok : Session.Ok True ⟨.on M, .initial⟩ (.trap (sampleCpu 0) .sysPanic none) :=
    .inr ⟨trivial, rfl⟩
  refine .next (.start ⟨none, M, hM, rfl⟩) hok ?_
  simp only [Session.step, hres, if_true]
  split
  · rw [exceptionRest_panic]
    rfl
  · rfl

/-- What is read from the keyboard in a step. -/
def SessionEvent.input : SessionEvent → Option (Option (BitVec 8))
  | .store _ _ => none
  | .trap _ _ input => some input
  | .poll input => some input
  | .failedPoll _ input => some input

theorem checked_reboot (hboot : Bootable L images) {S : Session} {input : Option (BitVec 8)}
    {argument : String} (hkey : (checkKeyboard S.keyboard input).2 = .reboot argument) (k : Kernel)
    (rest : Phase) : ∃ M M₀, (S.checked L images k input rest).phase = .on M ∧
      Machine.Boots L images (some argument) M₀ ∧ M.Resembles M₀ := by
  obtain ⟨k', hk, hboots, hres⟩ := softReboot_ok hboot k argument
  refine ⟨_, _, ?_, hboots, hres.resume .run⟩
  unfold Session.checked
  simp only [hkey, hk]
  rfl

/-- Unless a process asks for a panic, every poll goes to `check_keyboard`. -/
theorem step_checked {panics : Prop} {S S' : Session} {e : SessionEvent}
    {input : Option (BitVec 8)} (hboot : Bootable L images) (h : Session.Reach L images panics S)
    (hok : S.Ok False e) (hinput : e.input = some input) (hs : S.step L images e = some S') :
    ∃ k rest, S' = S.checked L images k input rest := by
  have hmirror := reach_mirrored hboot h
  obtain ⟨phase, kb⟩ := S
  cases e with
  | store va b => cases hinput
  | trap cpu t input' =>
      obtain rfl := Option.some.inj hinput
      cases hmirror with
      | @on M M₀ command hreach hres =>
          simp only [Session.step] at hs
          split_ifs at hs with hresumed
          obtain ⟨hord, huser⟩ := hok.resolve_right fun hp => hp.1
          obtain ⟨k, hk, -⟩ := mirrored_trap True hboot ⟨.on M, kb⟩ hreach hres hresumed hord
            huser input'
          rw [hk] at hs
          exact ⟨k, _, (Option.some.inj hs).symm⟩
      | polling => cases hs
      | failed => cases hs
      | off => cases hs
  | poll input' =>
      obtain rfl := Option.some.inj hinput
      cases phase with
      | polling k pid => exact ⟨k, _, (Option.some.inj hs).symm⟩
      | _ => cases hs
  | failedPoll k input' =>
      obtain rfl := Option.some.inj hinput
      cases phase with
      | failed => exact ⟨k, _, (Option.some.inj hs).symm⟩
      | _ => cases hs

end WeensyOS
