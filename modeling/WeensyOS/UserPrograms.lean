import WeensyOS.SystemBoot
import WeensyOS.SharedPages

/-!
# Programs as processes

A `UserProgram` is a program as its source has it: what it does next, and how it goes on with the
result of a system call. `Running` is the machine with a program in each process; interrupts come at
any time, and so do stores to a program's own variables, which the compiler places. `Keeps` collects
the proof rules for the calls of process.h, and `Keeps.reach` is the rule for whole runs.
-/

namespace WeensyOS
open ByteMemory World Runs

/-- What a program can do next: a store that its source asks for, or a system call. -/
inductive Act where
  | store (va : ℕ) (b : UInt8)
  | getpid
  | yield
  | pageAlloc (addr : ℕ)
  | fork
  | exit
  /-- A failed assertion. -/
  | panic

structure UserProgram (σ : Type) where
  act : σ → Act
  /-- The state after the action, with `v` in `%rax`. -/
  resume : σ → BitVec 64 → σ
  /-- The addresses of the program's variables and of its stack. -/
  own : σ → ℕ → Bool

/-- The inline assembly of process.h. -/
def Act.event (cpu : Cpu) : Act → Option Event
  | .store va b => some (.store va b)
  | .getpid => some (.trap cpu .getpid)
  | .yield => some (.trap cpu .yield)
  | .pageAlloc addr => if cpu.rdi.toNat = addr then some (.trap cpu .pageAlloc) else none
  | .fork => some (.trap cpu .fork)
  | .exit => some (.trap cpu .exit)
  | .panic => some (.trap cpu .sysPanic)

def Act.trap : Act → Option Trap
  | .store _ _ => none
  | .getpid => some .getpid
  | .yield => some .yield
  | .pageAlloc _ => some .pageAlloc
  | .fork => some .fork
  | .exit => some .exit
  | .panic => some .sysPanic

/-- The machine, and the state of the program in each process. -/
structure Running (σ : Type) where
  machine : Machine
  control : ℕ → σ

inductive Happening where
  | act (cpu : Cpu)
  | own (va : ℕ) (b : UInt8)
  | timer (cpu : Cpu)

def Happening.isAct : Happening → Bool
  | .act _ => true
  | _ => false

/-- What process `p` finds in `%rax` when it runs again. -/
def System.result (S : System) (p : ℕ) : BitVec 64 :=
  match S.process p with
  | some q => q.cpu.rax
  | none => 0

namespace UserProgram

variable {σ : Type} (P : UserProgram σ)

/-- The programs after an action of the current process. A process that is new is its copy. -/
def proceed (S S' : System) (control : ℕ → σ) (p : ℕ) : σ :=
  if p = S.current ∨ (S.process p).isNone ∧ (S'.process p).isSome then
    P.resume (control S.current) (S'.result p)
  else control p

def event (R : Running σ) : Happening → Option Event
  | .act cpu => (P.act (R.control R.machine.kernel.current)).event cpu
  | .own va b =>
    if P.own (R.control R.machine.kernel.current) va then some (.store va b) else none
  | .timer cpu => some (.trap cpu .timer)

def next (R : Running σ) (M : Machine) : Happening → Running σ
  | .act _ => ⟨M, P.proceed R.machine.kernel.system M.kernel.system R.control⟩
  | .own _ _ => ⟨M, R.control⟩
  | .timer _ => ⟨M, R.control⟩

def step (L : KernelLayout) (R : Running σ) (h : Happening) : Option (Running σ) :=
  (P.event R h).bind fun e => (R.machine.step L e).map fun M => P.next R M h

/-- Forks find room. -/
def Careful (R : Running σ) (h : Happening) : Prop :=
  ∀ cpu, P.event R h = some (.trap cpu .fork) → R.machine.kernel.ForkRoom

/-- The states of runs from `kernel(command)`, with the programs at their start. -/
def Reach (L : KernelLayout) (images : ℕ → ElfImage) (command : Option String) (start : ℕ → σ)
    (ok : Running σ → Happening → Prop) : Running σ → Prop :=
  Runs.Reachable (fun R => Machine.Boots L images command R.machine ∧ R.control = start)
    (P.step L) ok

/-- What a proof has to show of a program: its own stores and calls keep `Inv`, it allocates only
pages that it does not have, and the processes in `home` do not exit. -/
structure Keeps (home : List ℕ) (Inv : ℕ → σ → (ℕ → Option Cell) → Prop) : Prop where
  own : ∀ {p c va b d} {x : Process}, Inv p c x.memory → P.own c va = true →
    x.memory va = some ⟨true, d⟩ → Inv p c (x.store va b).memory
  target : ∀ {p c va b memory}, Inv p c memory → P.act c = .store va b →
    procStartAddr ≤ va ∧ va < 2 ^ 47 ∧ ∃ d, memory va = some ⟨true, d⟩
  store : ∀ {p c va b} {x : Process}, Inv p c x.memory → P.act c = .store va b →
    ∀ v, Inv p (P.resume c v) (x.store va b).memory
  getpid : ∀ {p c memory}, Inv p c memory → P.act c = .getpid →
    Inv p (P.resume c (BitVec.ofNat 64 p)) memory
  yield : ∀ {p c memory}, Inv p c memory → P.act c = .yield → ∀ v, Inv p (P.resume c v) memory
  fresh : ∀ {p c addr memory}, Inv p c memory → P.act c = .pageAlloc addr → inUserRange addr ∧
    ∀ va, va / pageSize = addr / pageSize → memory va = none
  page : ∀ {p c addr} {x : Process}, Inv p c x.memory → P.act c = .pageAlloc addr →
    ∀ contents, Inv p (P.resume c 0) (x.addPage addr contents).memory
  full : ∀ {p c addr memory}, Inv p c memory → P.act c = .pageAlloc addr →
    Inv p (P.resume c (-1)) memory
  fork : ∀ {p c memory}, Inv p c memory → P.act c = .fork → ∀ q, 1 ≤ q → q < nProc → q ≠ p →
    q ∉ home → Inv p (P.resume c (BitVec.ofNat 64 q)) memory ∧ Inv q (P.resume c 0) memory
  noSlot : ∀ {p c memory}, Inv p c memory → P.act c = .fork → Inv p (P.resume c (-1)) memory
  exit : ∀ {p c memory}, Inv p c memory → P.act c = .exit → p ∉ home

/-- Every process can run, and its program is in a state that fits its memory. -/
def Holds (Inv : ℕ → σ → (ℕ → Option Cell) → Prop) (S : System) (control : ℕ → σ) : Prop :=
  ∀ p q, S.process p = some q → q.runnable = true ∧ Inv p (control p) q.memory

end UserProgram

theorem System.Switch.process_eq {S S' : System} {o : Outcome} (h : S.Switch S' o) :
    S'.process = S.process := by
  cases h with
  | schedule => rfl
  | spin => rfl

theorem System.result_eq {S : System} {p : ℕ} {q : Process} (h : S.process p = some q) :
    S.result p = q.cpu.rax := by
  rw [System.result, h]

theorem System.Step.result_getpid {S S' : System} {cpu : Cpu} {o : Outcome}
    (h : S.Step (.trap cpu .getpid) S' o) :
    S'.result S.current = BitVec.ofNat 64 S.current := by
  cases h with
  | getpid hp => exact System.result_eq ((set_process ..).trans (if_pos rfl))
  | leave ht => simp at ht

/-- What a fork does to the table of processes, and what its two sides find in `%rax`. -/
theorem System.Step.fork_cases {S S' : System} {cpu : Cpu} {o : Outcome}
    (h : S.Step (.trap cpu .fork) S' o) : (∀ c, ¬ S.FirstFree c) ∨ ∃ c, S.FirstFree c ∧
      (∀ p, S'.process p ≠ none ↔ p = c ∨ S.process p ≠ none) ∧
      S'.result S.current = BitVec.ofNat 64 c ∧ S'.result c = 0 := by
  cases h with
  | noSlot _ hc => exact .inl hc
  | leave ht => simp at ht
  | @fork q _ c hp hc =>
      have hne : c ≠ S.current := by
        rintro rfl
        rw [hc.2.2.1] at hp
        cases hp
      refine .inr ⟨c, hc, fun p => ?_, ?_, ?_⟩
      · rw [set_process, set_process]
        split_ifs with hcur hpc
        · simp [hcur, hp]
        · simp [hpc]
        · simp [hpc]
      · exact System.result_eq ((set_process ..).trans (if_pos rfl))
      · exact System.result_eq ((set_process ..).trans ((if_neg hne).trans
          ((set_process ..).trans (if_pos rfl))))

/-- Only exits take a process away. -/
theorem System.Step.alive {S S' : System} {e : Event} {o : Outcome} (h : S.Step e S' o) {p : ℕ}
    (hp : S.process p ≠ none) (hexit : ∀ cpu, e = .trap cpu .exit → p ≠ S.current) :
    S'.process p ≠ none := by
  have hset {x : Process} {p c : ℕ} (hp : S.process p ≠ none) :
      (S.set c (some x)).process p ≠ none := by
    rw [set_process]
    split_ifs
    · simp
    · exact hp
  cases h with
  | console => exact hp
  | store | getpid | pageAlloc | memoryFull | noSlot => exact hset hp
  | fork =>
      rw [set_process]
      split_ifs
      · simp
      · exact hset hp
  | leave _ _ hs | fault _ hs =>
      rw [hs.process_eq]
      exact hset hp
  | exit hs =>
      rw [hs.process_eq, set_process, if_neg (hexit _ rfl)]
      exact hp

/-- A switch finds a process to run. -/
theorem System.Switch.resumed {S S' : System} {o : Outcome} (h : S.Switch S' o) {p : ℕ}
    (hp : S.Runnable p) : o.resumed = true := by
  cases h with
  | schedule => rfl
  | spin hnone => exact (hnone p hp).elim

/-- The machine goes on if it has a process that does not leave. -/
theorem System.Step.resumed {S S' : System} {e : Event} {o : Outcome} (h : S.Step e S' o) {p : ℕ}
    (hp : S.process p ≠ none) (hrun : ∀ p q, S.process p = some q → q.runnable = true)
    (hexit : ∀ cpu, e = .trap cpu .exit → p ≠ S.current)
    (hfault : ∀ cpu err cr2, e ≠ .trap cpu (.pagefault err cr2)) : o.resumed = true := by
  obtain ⟨q, hq⟩ := Option.ne_none_iff_exists'.mp hp
  cases h with
  | leave _ hcur hs =>
      have hrunnable := hrun _ _ hcur
      exact hs.resumed ⟨_, (System.set_process ..).trans (if_pos rfl), hrunnable⟩
  | exit hs =>
      refine hs.resumed ⟨q, (System.set_process ..).trans ((if_neg (hexit _ rfl)).trans hq), ?_⟩
      exact hrun _ _ hq
  | fault => exact absurd rfl (hfault _ _ _)
  | _ => rfl

theorem System.Step.dead {S S' : System} {e : Event} {o : Outcome} (h : S.Step e S' o)
    (he : ∀ cpu, e ≠ .trap cpu .fork) {p : ℕ} (hp : S.process p = none) (hcur : p ≠ S.current) :
    S'.process p = none := by
  have hset (x : Option Process) : (S.set S.current x).process p = none := by
    rw [set_process, if_neg hcur, hp]
  cases h with
  | console => exact hp
  | store | getpid | pageAlloc | memoryFull => exact hset _
  | fork | noSlot => exact absurd rfl (he _)
  | leave _ _ hs | exit hs | fault _ hs =>
      rw [hs.process_eq]
      exact hset _

namespace UserProgram

section step
variable {σ : Type} {P : UserProgram σ} {home : List ℕ} {Inv : ℕ → σ → (ℕ → Option Cell) → Prop}
  {S S' : System} {control : ℕ → σ} {o : Outcome} {cpu : Cpu} {e : Event}

theorem proceed_alive {p : ℕ} (hp : S.process p ≠ none) : P.proceed S S' control p =
    if p = S.current then P.resume (control p) (S'.result p) else control p := by
  have hsome : (S.process p).isNone = false := by
    rw [Option.isNone_eq_false_iff, Option.isSome_iff_ne_none]
    exact hp
  rw [UserProgram.proceed]
  split_ifs with h1 h2 h2
  · rw [h2]
  · simp [h2, hsome] at h1
  · exact absurd (.inl h2) h1
  · rfl

/-- A process that is new starts as a copy of the current one. -/
theorem proceed_new {p : ℕ} (hp : S.process p = none) (hp' : S'.process p ≠ none) :
    P.proceed S S' control p = P.resume (control S.current) (S'.result p) := by
  rw [UserProgram.proceed, if_pos]
  exact .inr ⟨Option.isNone_iff_eq_none.mpr hp, Option.isSome_iff_ne_none.mpr hp'⟩

theorem Holds.proceed (h : Holds Inv S control)
    (hnew : ∀ p q, S'.process p = some q → p = S.current ∨ S.process p = none →
      q.runnable = true ∧ Inv p (P.resume (control S.current) q.cpu.rax) q.memory)
    (hold : ∀ p, p ≠ S.current → S.process p ≠ none → S'.process p = S.process p) :
    Holds Inv S' (P.proceed S S' control) := by
  intro p q hq
  rw [UserProgram.proceed, System.result_eq hq]
  split_ifs with hp
  · exact hnew p q hq (hp.imp_right fun hp => Option.isNone_iff_eq_none.mp hp.1)
  · obtain ⟨hcur, hlive⟩ := not_or.mp hp
    rw [hold p hcur fun hc => hlive ⟨Option.isNone_iff_eq_none.mpr hc, by rw [hq]; rfl⟩] at hq
    exact h p q hq

/-- The caller is the only process that changes. -/
theorem Holds.proceed_set (h : Holds Inv S control) {x : Process}
    (hproc : S'.process = (S.set S.current (some x)).process)
    (hx : x.runnable = true ∧ Inv S.current (P.resume (control S.current) x.cpu.rax) x.memory) :
    Holds Inv S' (P.proceed S S' control) := by
  refine h.proceed (fun p q hq hp => ?_) fun p hp _ => ?_
  · rw [hproc, System.set_process] at hq
    split_ifs at hq with heq
    · rw [← Option.some.inj hq, heq]
      exact hx
    · rw [hp.resolve_left heq] at hq
      cases hq
  · rw [hproc, System.set_process, if_neg hp]

/-- The programs stay where they are. -/
theorem Holds.set (h : Holds Inv S control) {x : Process}
    (hproc : S'.process = (S.set S.current (some x)).process)
    (hx : x.runnable = true ∧ Inv S.current (control S.current) x.memory) :
    Holds Inv S' control := by
  intro p q hq
  rw [hproc, System.set_process] at hq
  split_ifs at hq with hp
  · rw [← Option.some.inj hq, hp]
    exact hx
  · exact h p q hq

/-- One action of the current program. -/
theorem Keeps.act (hP : P.Keeps home Inv) (h : Holds Inv S control)
    (hhome : ∀ p ∈ home, S.process p ≠ none)
    (he : (P.act (control S.current)).event cpu = some e) (hs : S.Step e S' o) :
    Holds Inv S' (P.proceed S S' control) := by
  generalize hact : P.act (control S.current) = a at he
  cases a with
  | store va b =>
      obtain rfl := Option.some.inj he
      cases hs with
      | console hva =>
          refine h.proceed (fun p q hq hp => ?_) fun _ _ _ => rfl
          rcases hp with rfl | hp
          · have hlow := (hP.target (h _ _ hq).2 hact).1
            simp only [procStartAddr, pageSize, consolePage] at hlow hva
            omega
          · rw [hp] at hq
            cases hq
      | store hp hcell =>
          obtain ⟨hrun, hinv⟩ := h _ _ hp
          exact h.proceed_set rfl ⟨hrun, hP.store hinv hact _⟩
  | getpid =>
      obtain rfl := Option.some.inj he
      cases hs with
      | getpid hp =>
          obtain ⟨hrun, hinv⟩ := h _ _ hp
          exact h.proceed_set rfl ⟨hrun, hP.getpid hinv hact⟩
      | leave ht => simp at ht
  | yield =>
      obtain rfl := Option.some.inj he
      cases hs with
      | leave ht hp hs =>
          obtain ⟨hrun, hinv⟩ := h _ _ hp
          exact h.proceed_set hs.process_eq ⟨hrun, hP.yield hinv hact _⟩
  | pageAlloc addr =>
      rw [Act.event] at he
      split_ifs at he with haddr
      obtain rfl := Option.some.inj he
      cases hs with
      | pageAlloc hp =>
          obtain ⟨hrun, hinv⟩ := h _ _ hp
          rw [haddr]
          exact h.proceed_set rfl ⟨hrun, hP.page hinv hact _⟩
      | memoryFull hp =>
          obtain ⟨hrun, hinv⟩ := h _ _ hp
          exact h.proceed_set rfl ⟨hrun, hP.full hinv hact⟩
      | leave ht => simp at ht
  | fork =>
      obtain rfl := Option.some.inj he
      cases hs with
      | @fork p _ c hp hc =>
          obtain ⟨hrun, hinv⟩ := h _ _ hp
          obtain ⟨h1, h16, hfree, -⟩ := hc
          have hne : c ≠ S.current := by
            rintro rfl
            rw [hfree] at hp
            cases hp
          obtain ⟨hparent, hchild⟩ :=
            hP.fork hinv hact c h1 h16 hne fun hc => hhome c hc hfree
          refine h.proceed (fun q x hx hq => ?_) fun q hq hlive => ?_
          · rw [System.set_process, System.set_process] at hx
            split_ifs at hx with hcur hc
            · rw [← Option.some.inj hx, hcur]
              exact ⟨hrun, hparent⟩
            · rw [← Option.some.inj hx, hc]
              exact ⟨hrun, hchild⟩
            · rw [hq.resolve_left hcur] at hx
              cases hx
          · have hqc : q ≠ c := fun heq => hlive (heq ▸ hfree)
            rw [System.set_process, System.set_process, if_neg hq, if_neg hqc]
      | noSlot hp =>
          obtain ⟨hrun, hinv⟩ := h _ _ hp
          exact h.proceed_set rfl ⟨hrun, hP.noSlot hinv hact⟩
      | leave ht => simp at ht
  | exit =>
      obtain rfl := Option.some.inj he
      cases hs with
      | leave ht => simp at ht
      | exit hs =>
          refine h.proceed (fun q x hx hq => ?_) fun q hq _ => ?_
          · rw [hs.process_eq, System.set_process] at hx
            split_ifs at hx with hcur
            rw [hq.resolve_left hcur] at hx
            cases hx
          · rw [hs.process_eq, System.set_process, if_neg hq]
  | panic =>
      obtain rfl := Option.some.inj he
      cases hs with
      | leave ht => simp at ht

/-- A store to one of its variables. -/
theorem Keeps.own_store (hP : P.Keeps home Inv) (h : Holds Inv S control) {va : ℕ} {b : UInt8}
    (hown : P.own (control S.current) va = true) (hs : S.Step (.store va b) S' o) :
    Holds Inv S' control := by
  cases hs with
  | console => exact h
  | store hp hcell =>
      obtain ⟨hrun, hinv⟩ := h _ _ hp
      exact h.set rfl ⟨hrun, hP.own hinv hown hcell⟩

theorem Holds.timer (h : Holds Inv S control) (hs : S.Step (.trap cpu .timer) S' o) :
    Holds Inv S' control := by
  cases hs with
  | leave ht hp hs =>
      obtain ⟨hrun, hinv⟩ := h _ _ hp
      exact h.set hs.process_eq ⟨hrun, hinv⟩

end step

section machine
variable {σ : Type} {P : UserProgram σ} {Inv : ℕ → σ → (ℕ → Option Cell) → Prop}
  {L : KernelLayout} {images : ℕ → ElfImage} {command : Option String} {start : ℕ → σ}
  {ok : Running σ → Happening → Prop} {R R' : Running σ} {h : Happening} {e : Event} {w : World}

theorem step_eq_some (hs : P.step L R h = some R') :
    ∃ e, P.event R h = some e ∧ R.machine.step L e = some R'.machine ∧
      R' = P.next R R'.machine h := by
  obtain ⟨e, he, hs⟩ := Option.bind_eq_some_iff.mp hs
  obtain ⟨M, hM, rfl⟩ := Option.map_eq_some_iff.mp hs
  have hmachine : (P.next R M h).machine = M := by cases h <;> rfl
  rw [hmachine]
  exact ⟨e, he, hM, rfl⟩

theorem act_event_trap {a : Act} {cpu cpu' : Cpu} {t : Trap}
    (he : a.event cpu = some (.trap cpu' t)) : a.trap = some t := by
  cases a with
  | store => cases he
  | pageAlloc addr =>
      rw [Act.event] at he
      split_ifs at he
      obtain ⟨-, rfl⟩ := Event.trap.inj (Option.some.inj he)
      rfl
  | _ =>
      obtain ⟨-, rfl⟩ := Event.trap.inj (Option.some.inj he)
      rfl

/-- Traps are timer interrupts or what the current program asks for. -/
theorem event_trap {cpu : Cpu} {t : Trap} (he : P.event R h = some (.trap cpu t)) :
    t = .timer ∨ (P.act (R.control R.machine.kernel.current)).trap = some t := by
  cases h with
  | own va b =>
      rw [event] at he
      split_ifs at he
      cases he
  | timer cpu =>
      obtain ⟨-, rfl⟩ := Event.trap.inj (Option.some.inj he)
      exact .inl rfl
  | act cpu => exact .inr (act_event_trap he)

theorem event_ne_fault (he : P.event R h = some e) (cpu : Cpu) (err : BitVec 64) (cr2 : ℕ) :
    e ≠ .trap cpu (.pagefault err cr2) := by
  rintro rfl
  rcases event_trap he with ht | ht
  · cases ht
  · generalize P.act (R.control R.machine.kernel.current) = a at ht
    cases a <;> cases ht

theorem act_of_trap {a : Act} {t : Trap} (h : a.trap = some t) :
    (t = .fork → a = .fork) ∧ (t = .exit → a = .exit) ∧ (t = .sysPanic → a = .panic) := by
  cases a with
  | store => cases h
  | _ =>
      obtain rfl := Option.some.inj h
      simp

theorem event_fork {cpu : Cpu} (he : P.event R h = some (.trap cpu .fork)) :
    P.act (R.control R.machine.kernel.current) = .fork :=
  (event_trap he).elim nofun fun ht => (act_of_trap ht).1 rfl

theorem event_exit {cpu : Cpu} (he : P.event R h = some (.trap cpu .exit)) :
    P.act (R.control R.machine.kernel.current) = .exit :=
  (event_trap he).elim nofun fun ht => (act_of_trap ht).2.1 rfl

theorem event_panic {cpu : Cpu} (he : P.event R h = some (.trap cpu .sysPanic)) :
    P.act (R.control R.machine.kernel.current) = .panic :=
  (event_trap he).elim nofun fun ht => (act_of_trap ht).2.2 rfl

/-- A program that does not fork needs no care. -/
theorem careful_of_ne (hfork : ∀ c, P.act c ≠ .fork) (R : Running σ) (h : Happening) :
    P.Careful R h := fun _ he => absurd (event_fork he) (hfork _)

/-- The machine makes no step from a call of `sys_panic`. -/
theorem step_ne_panic {M M' : Machine} {e : Event} (hs : M.step L e = some M') (cpu : Cpu) :
    e ≠ .trap cpu .sysPanic := by
  rintro rfl
  obtain ⟨-, k, o, he, -⟩ := Machine.step_trap hs
  obtain ⟨_, _, _, _, _, hd, -⟩ := exception_inv he
  rw [dispatch, intno_ofWords] at hd
  cases hd

/-- A page that the current process does not see is not mapped. -/
theorem unmapped_of_memory {M : Machine} {addr : ℕ} (hw : Represents L M w)
    (hrun : w.Live w.current) (haddr : inUserRange addr)
    (hnone : M.kernel.memory M.kernel.current addr = none) : M.kernel.Unmapped addr := by
  rw [hw.sim.current, hw.memory_eq hrun haddr.2, Option.map_eq_none_iff] at hnone
  exact (hw.unmapped_iff hrun haddr).mpr hnone

/-- The programs keep the discipline by themselves, but for the room that forks need. -/
theorem Keeps.settled (hP : P.Keeps (started command) Inv) (hw : Represents L R.machine w)
    (hres : R.machine.outcome.resumed = true)
    (hh : Holds Inv R.machine.kernel.system R.control) (he : P.event R h = some e)
    (hcareful : P.Careful R h) (hpanic : ∀ cpu, e ≠ .trap cpu .sysPanic) :
    Settled command R.machine e := by
  have hrun := hw.live hres
  have hinv := (hh _ _ (hw.current_process hrun)).2
  refine ⟨?_, ?_⟩
  · cases h with
    | own va b =>
        rw [event] at he
        split_ifs at he
        obtain rfl := Option.some.inj he
        trivial
    | timer cpu =>
        obtain rfl := Option.some.inj he
        exact ⟨rfl, nofun, nofun⟩
    | act cpu =>
        have he' := he
        rw [event] at he
        generalize hact : P.act (R.control R.machine.kernel.current) = a at he
        cases a with
        | store | getpid | yield | exit =>
            obtain rfl := Option.some.inj he
            first | trivial | exact ⟨rfl, nofun, nofun⟩
        | fork =>
            obtain rfl := Option.some.inj he
            exact ⟨rfl, nofun, fun _ => hcareful cpu he'⟩
        | panic =>
            obtain rfl := Option.some.inj he
            exact absurd rfl (hpanic cpu)
        | pageAlloc addr =>
            rw [Act.event] at he
            split_ifs at he with haddr
            obtain rfl := Option.some.inj he
            obtain ⟨hrange, hnone⟩ := hP.fresh hinv hact
            rw [← haddr] at hrange hnone
            exact ⟨rfl, fun _ => ⟨hrange, fun _ => unmapped_of_memory hw hrun hrange (hnone _ rfl)⟩,
              nofun⟩
  · rintro cpu rfl
    exact hP.exit hinv (event_exit he)

/-- What a run keeps: the machine's own invariants, the programs', and the first processes. -/
structure Sound (L : KernelLayout) (images : ℕ → ElfImage) (command : Option String)
    (Inv : ℕ → σ → (ℕ → Option Cell) → Prop) (R : Running σ) : Prop where
  reach : Machine.Reach L images command Orderly R.machine
  holds : Holds Inv R.machine.kernel.system R.control
  alive : ∀ p ∈ started command, R.machine.kernel.system.process p ≠ none

section step
variable (hP : P.Keeps (started command) Inv) (hfit : ImagesFit L images command)
  (hdisj : ImagesDisjoint images command) (hR : Sound L images command Inv R)

include hP hfit hdisj hR

theorem Sound.exit_ne {cpu : Cpu} (hres : R.machine.outcome.resumed = true)
    (he : P.event R h = some (.trap cpu .exit)) :
    ∀ p ∈ started command, p ≠ R.machine.kernel.current := by
  rintro p hp rfl
  obtain ⟨w, hw, -⟩ := reach_owned hfit hdisj hR.reach
  exact hP.exit (hR.holds _ _ (hw.current_process (hw.live hres))).2 (event_exit he) hp

/-- One step of the programs is a step of the system. -/
theorem Sound.system_step (hcareful : P.Careful R h) (hs : P.step L R h = some R') :
    ∃ e, P.event R h = some e ∧ R' = P.next R R'.machine h ∧ Orderly R.machine e ∧
      R.machine.step L e = some R'.machine ∧
      R.machine.kernel.system.Step e R'.machine.kernel.system R'.machine.outcome := by
  obtain ⟨e, he, hstep, hnext⟩ := step_eq_some hs
  obtain ⟨w, hw, hex, -⟩ := reach_owned hfit hdisj hR.reach
  have hset := hP.settled hw (Machine.step_resumed hstep) hR.holds he hcareful
    (step_ne_panic hstep)
  exact ⟨e, he, hnext, hset.orderly hfit hdisj hR.reach, hstep, step_system hw hex hset.1 hstep⟩

theorem Sound.next (hcareful : P.Careful R h) (hs : P.step L R h = some R') :
    Sound L images command Inv R' ∧ R'.machine.outcome.resumed = true := by
  obtain ⟨e, he, hnext, hd, hstep, hsys⟩ := hR.system_step hP hfit hdisj hcareful hs
  have hres := Machine.step_resumed hstep
  have hexit (p : ℕ) (hp : p ∈ started command) (cpu : Cpu) (heq : e = .trap cpu .exit) :
      p ≠ R.machine.kernel.system.current :=
    hR.exit_ne hP hfit hdisj hres (heq ▸ he) p hp
  refine ⟨⟨hR.reach.next hd hstep, ?_, fun p hp => hsys.alive (hR.alive p hp) (hexit p hp)⟩, ?_⟩
  · rw [hnext]
    cases h with
    | act cpu => exact hP.act hR.holds hR.alive he hsys
    | own va b =>
        rw [event] at he
        split_ifs at he with hown
        obtain rfl := Option.some.inj he
        exact hP.own_store hR.holds hown hsys
    | timer cpu =>
        obtain rfl := Option.some.inj he
        exact hR.holds.timer hsys
  · have h1 := one_mem_started command
    exact hsys.resumed (hR.alive 1 h1) (fun p q hq => (hR.holds p q hq).1) (hexit 1 h1)
      (event_ne_fault he)

/-- What the current program does next is served, and so is an interrupt. -/
theorem Sound.progress (hres : R.machine.outcome.resumed = true) (hcareful : P.Careful R h)
    (hown : ∀ va b, h ≠ .own va b) (he : P.event R h = some e)
    (hpanic : ∀ cpu, e ≠ .trap cpu .sysPanic) : ∃ R', P.step L R h = some R' := by
  obtain ⟨w, hw, hex, -⟩ := reach_owned hfit hdisj hR.reach
  have hd := (hP.settled hw hres hR.holds he hcareful hpanic).1
  suffices hstep : ∃ M', R.machine.step L e = some M' by
    obtain ⟨M', hM'⟩ := hstep
    exact ⟨_, by rw [step, he, Option.bind_some, hM', Option.map_some]⟩
  have htrap {cpu : Cpu} {t : Trap} (hd : Disciplined R.machine (.trap cpu t)) (ht : t.user) :=
    reach_trap_exists hfit hdisj hR.reach hres hd ht
  cases h with
  | own va b => exact absurd rfl (hown va b)
  | timer cpu =>
      obtain rfl := Option.some.inj he
      exact htrap hd trivial
  | act cpu =>
      rw [event] at he
      generalize hact : P.act (R.control R.machine.kernel.current) = a at he
      cases a with
      | store va b =>
          obtain rfl := Option.some.inj he
          have hp := hw.current_process (hw.live hres)
          obtain ⟨-, hlt, d, hcell⟩ := hP.target (hR.holds _ _ hp).2 hact
          exact hw.store_exists hres hlt (.store hp hcell)
      | getpid | yield | fork | exit =>
          obtain rfl := Option.some.inj he
          exact htrap hd trivial
      | panic =>
          obtain rfl := Option.some.inj he
          exact absurd rfl (hpanic cpu)
      | pageAlloc addr =>
          rw [Act.event] at he
          split_ifs at he
          obtain rfl := Option.some.inj he
          exact htrap hd trivial

/-- The next action of the current program is served. -/
theorem Sound.act_exists (hres : R.machine.outcome.resumed = true) {cpu : Cpu}
    (hcareful : P.Careful R (.act cpu))
    (haddr : ∀ addr, P.act (R.control R.machine.kernel.current) = .pageAlloc addr →
      cpu.rdi.toNat = addr) (hpanic : P.act (R.control R.machine.kernel.current) ≠ .panic) :
    ∃ R', P.step L R (.act cpu) = some R' := by
  have hevent : ∃ e, P.event R (.act cpu) = some e := by
    rw [event]
    cases hact : P.act (R.control R.machine.kernel.current) with
    | pageAlloc addr => exact ⟨_, if_pos (haddr addr hact)⟩
    | _ => exact ⟨_, rfl⟩
  obtain ⟨e, he⟩ := hevent
  exact hR.progress hP hfit hdisj hres hcareful nofun he fun _ hc => hpanic (event_panic (hc ▸ he))

theorem Sound.timer_exists (hres : R.machine.outcome.resumed = true) (cpu : Cpu) :
    ∃ R', P.step L R (.timer cpu) = some R' :=
  hR.progress hP hfit hdisj hres (fun _ hc => by cases hc) nofun rfl nofun

end step

section reach
variable (hP : P.Keeps (started command) Inv) (hfit : ImagesFit L images command)
  (hdisj : ImagesDisjoint images command)
  (hstart : ∀ s ∈ setups command, ∀ memory, (images s.2).Loads memory →
    Inv s.1 (start s.1) memory)
  (hok : ∀ R h, ok R h → P.Careful R h) (hR : P.Reach L images command start ok R)

include hP hfit hdisj hstart hok hR

/-- The rule for whole runs. -/
theorem Keeps.reach :
    Sound L images command Inv R ∧ R.machine.outcome.resumed = true := by
  induction hR with
  | @start R hboot =>
      obtain ⟨hM, hcontrol⟩ := hboot
      have hlive (p : ℕ) : R.machine.kernel.system.process p = none ↔ p ∉ started command :=
        boots_process_none hfit hM
      refine ⟨⟨.start hM, fun p q hq => ?_, fun p hp hnone => (hlive p).mp hnone hp⟩,
        (boots_represents hfit hM).choose_spec.2.2.2⟩
      have hp : p ∈ started command := by
        by_contra hp
        rw [(hlive p).mpr hp] at hq
        cases hq
      obtain ⟨s, hs, rfl⟩ := List.mem_map.mp hp
      obtain ⟨q', hq', hq₀⟩ := boots_process hfit hM hdisj hs
      obtain rfl := Option.some.inj (hq.symm.trans hq')
      rw [hcontrol]
      exact ⟨hq₀.runnable, hstart s hs _ hq₀.memory⟩
  | next _ hh hs ih => exact ih.1.next hP hfit hdisj (hok _ _ hh) hs

/-- Without forks there are no other processes. -/
theorem Keeps.dead (hfork : ∀ c, P.act c ≠ .fork) {p : ℕ} (hp : p ∉ started command) :
    R.machine.kernel.system.process p = none := by
  induction hR with
  | start hboot => exact (boots_process_none hfit hboot.1).mpr hp
  | next hR hh hs ih =>
      obtain ⟨hsound, hres⟩ := hP.reach hfit hdisj hstart hok hR
      obtain ⟨w, hw, -⟩ := reach_owned hfit hdisj hsound.reach
      obtain ⟨e, he, -, -, -, hsys⟩ := hsound.system_step hP hfit hdisj (hok _ _ hh) hs
      refine hsys.dead (fun cpu heq => hfork _ (event_fork (heq ▸ he))) ih ?_
      rintro rfl
      exact hw.live hres (hw.sim.current ▸ (hw.process_eq_none _).mp ih)

end reach

end machine

/-! Turns. -/

section turns
variable {σ : Type}

/-- The turns of process `p` in the first `n` steps. -/
def turns (R : ℕ → Running σ) (h : ℕ → Happening) (p n : ℕ) : ℕ :=
  ((Finset.range n).filter fun i => (R i).machine.kernel.current = p ∧ (h i).isAct).card

theorem turns_zero (R : ℕ → Running σ) (h : ℕ → Happening) (p : ℕ) : turns R h p 0 = 0 := rfl

theorem turns_succ (R : ℕ → Running σ) (h : ℕ → Happening) (p n : ℕ) :
    turns R h p (n + 1) = turns R h p n +
      if (R n).machine.kernel.current = p ∧ (h n).isAct then 1 else 0 := by
  rw [turns, Finset.range_add_one, Finset.filter_insert]
  split_ifs
  · rw [Finset.card_insert_of_notMem (by simp)]
    rfl
  · rfl

/-- A rank that every turn lowers, until it is zero, bounds the turns. -/
theorem rank_turns {R : ℕ → Running σ} {h : ℕ → Happening} {p n : ℕ} {rank : σ → ℕ}
    (hstep : ∀ i < n, rank ((R (i + 1)).control p) ≠ 0 →
      rank ((R (i + 1)).control p) +
        (if (R i).machine.kernel.current = p ∧ (h i).isAct then 1 else 0) ≤
      rank ((R i).control p)) (hn : rank ((R n).control p) ≠ 0) :
    rank ((R n).control p) + turns R h p n ≤ rank ((R 0).control p) := by
  induction n with
  | zero => rw [turns_zero, add_zero]
  | succ n ih =>
      have hlast := hstep n (Nat.lt_succ_self n) hn
      have hprev : rank ((R n).control p) ≠ 0 := by omega
      have := ih (fun i hi => hstep i (hi.trans (Nat.lt_succ_self n))) hprev
      rw [turns_succ]
      omega

end turns

end UserProgram

end WeensyOS
