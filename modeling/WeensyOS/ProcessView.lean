import WeensyOS.MemoryIntegrity
import WeensyOS.RegisterContexts

/-!
# The system that programs see

What the kernel is for, without page tables, frames or descriptors. A process has registers and a
memory of its own, and a `System` is a table of such processes. Calls act on the caller alone, but
for a fork, which adds a copy of it. Where the new bytes of an allocated page come from is left
open. `Machine.system` is what a state of the machine looks like from there.
-/

namespace WeensyOS
open ByteMemory

/-- A byte of a process's memory. -/
structure Cell where
  writable : Bool
  byte : UInt8
  deriving DecidableEq

structure Process where
  cpu : Cpu
  memory : ℕ → Option Cell
  runnable : Bool

@[ext]
structure System where
  process : ℕ → Option Process
  current : ℕ

namespace Process

def store (p : Process) (va : ℕ) (b : UInt8) : Process :=
  { p with memory := Function.update p.memory va (some ⟨true, b⟩) }

/-- The page of `addr` with the given contents, writable. -/
def addPage (p : Process) (addr : ℕ) (contents : ℕ → UInt8) : Process :=
  { p with memory := fun va =>
      if va / pageSize = addr / pageSize then some ⟨true, contents va⟩ else p.memory va }

/-- Back from a call with the result `v`. -/
def resume (p : Process) (cpu : Cpu) (v : BitVec 64) : Process :=
  { p with cpu := { cpu with rax := v } }

end Process

namespace System

def set (S : System) (p : ℕ) (q : Option Process) : System :=
  { S with process := Function.update S.process p q }

@[simp] theorem set_current (S : System) (p : ℕ) (q : Option Process) :
    (S.set p q).current = S.current := rfl

@[simp] theorem set_process (S : System) (p : ℕ) (q : Option Process) (x : ℕ) :
    (S.set p q).process x = if x = p then q else S.process x := Function.update_apply ..

def Runnable (S : System) (p : ℕ) : Prop := ∃ q, S.process p = some q ∧ q.runnable = true

/-- `p` is the first runnable process after `a` in cyclic order. -/
def FirstAfter (S : System) (a p : ℕ) : Prop :=
  ∃ d, 1 ≤ d ∧ d ≤ nProc ∧ p = (a + d) % nProc ∧ S.Runnable p ∧
    ∀ d', 1 ≤ d' → d' < d → ¬ S.Runnable ((a + d') % nProc)

/-- `c` is the lowest process number that is not in use. -/
def FirstFree (S : System) (c : ℕ) : Prop :=
  1 ≤ c ∧ c < nProc ∧ S.process c = none ∧ ∀ q, 1 ≤ q → q < c → S.process q ≠ none

/-- The processor goes to the next process, if there is one to run. -/
inductive Switch (S : System) : System → Outcome → Prop
  | schedule {p : ℕ} (h : S.FirstAfter S.current p) : Switch S { S with current := p } .schedule
  | spin (h : ∀ p, ¬ S.Runnable p) : Switch S S .spin

/-- One step of the current process `p`. -/
inductive Step (S : System) : Event → System → Outcome → Prop
  | console {va : ℕ} {b : UInt8} (hva : va / pageSize = consolePage) : Step S (.store va b) S .run
  | store {p : Process} {va : ℕ} {b c : UInt8} (hp : S.process S.current = some p)
      (hcell : p.memory va = some ⟨true, c⟩) :
      Step S (.store va b) (S.set S.current (some (p.store va b))) .run
  | getpid {p : Process} {cpu : Cpu} (hp : S.process S.current = some p) :
      Step S (.trap cpu .getpid)
        (S.set S.current (some (p.resume cpu (BitVec.ofNat 64 S.current)))) .run
  | pageAlloc {p : Process} {cpu : Cpu} {contents : ℕ → UInt8}
      (hp : S.process S.current = some p)
      (hnew : ∀ va, va / pageSize = cpu.rdi.toNat / pageSize → p.memory va = none) :
      Step S (.trap cpu .pageAlloc)
        (S.set S.current (some ((p.addPage cpu.rdi.toNat contents).resume cpu 0))) .run
  | memoryFull {p : Process} {cpu : Cpu} (hp : S.process S.current = some p) :
      Step S (.trap cpu .pageAlloc) (S.set S.current (some (p.resume cpu (-1)))) .run
  | fork {p : Process} {cpu : Cpu} {c : ℕ} (hp : S.process S.current = some p)
      (hc : S.FirstFree c) :
      Step S (.trap cpu .fork) ((S.set c (some { p with cpu := { cpu with rax := 0 } })).set
        S.current (some (p.resume cpu (BitVec.ofNat 64 c)))) .run
  | noSlot {p : Process} {cpu : Cpu} (hp : S.process S.current = some p)
      (hc : ∀ c, ¬ S.FirstFree c) :
      Step S (.trap cpu .fork) (S.set S.current (some (p.resume cpu (-1)))) .run
  | leave {p : Process} {cpu : Cpu} {t : Trap} {S' : System} {o : Outcome}
      (ht : t = .timer ∨ t = .yield) (hp : S.process S.current = some p)
      (hs : (S.set S.current (some { p with cpu := cpu })).Switch S' o) : Step S (.trap cpu t) S' o
  | exit {cpu : Cpu} {S' : System} {o : Outcome} (hs : (S.set S.current none).Switch S' o) :
      Step S (.trap cpu .exit) S' o
  | fault {p : Process} {cpu : Cpu} {err : BitVec 64} {cr2 : ℕ} {S' : System} {o : Outcome}
      (hp : S.process S.current = some p)
      (hs : (S.set S.current (some { p with cpu := cpu, runnable := false })).Switch S' o) :
      Step S (.trap cpu (.pagefault err cr2)) S' o

theorem Switch.ne_returned {S S' : System} {o : Outcome} (h : S.Switch S' o) :
    o ≠ .returned := by
  cases h <;> simp

/-- No step of the system is a kernel panic. -/
theorem Step.ne_returned {S S' : System} {e : Event} {o : Outcome} (h : S.Step e S' o) :
    o ≠ .returned := by
  cases h with
  | leave _ _ hs => exact hs.ne_returned
  | exit hs => exact hs.ne_returned
  | fault _ hs => exact hs.ne_returned
  | _ => simp

end System

/-- What process `p` has at `va` in `[PROC_START_ADDR, MEMSIZE_VIRTUAL)`. -/
def Kernel.memory (k : Kernel) (p va : ℕ) : Option Cell :=
  if procStartAddr ≤ va ∧ va < memsizeVirtual then
    match k.view p va with
    | some (t, b) => if t.user then some ⟨t.writable, b⟩ else none
    | none => none
  else none

theorem Kernel.memory_outside {k : Kernel} {p va : ℕ}
    (h : ¬ (procStartAddr ≤ va ∧ va < memsizeVirtual)) : k.memory p va = none := if_neg h

def Kernel.process (k : Kernel) (p : ℕ) : Option Process :=
  if k.Live p then
    some ⟨exceptionReturn (k.processes p).registers, k.memory p, k.states p = .runnable⟩
  else none

theorem Kernel.process_cpu {k : Kernel} {p : ℕ} {q : Process} (h : k.process p = some q) :
    q.cpu = exceptionReturn (k.processes p).registers := by
  rw [Kernel.process] at h
  split_ifs at h
  rw [← Option.some.inj h]

def Kernel.system (k : Kernel) : System := ⟨k.process, k.current⟩

end WeensyOS
