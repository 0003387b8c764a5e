import WeensyOS.Boot
import WeensyOS.Runs

/-!
# The machine

User code is left open: between two entries into the kernel a process may store to any byte that its
page table lets it write, and it enters the kernel with any register file whatever. `Machine.step`
is one such store, or one trap handled by the kernel up to its return to user mode. A step that
the hardware would not perform, or in which the kernel panics, has no result.
-/

namespace WeensyOS
open ByteMemory Runs

inductive Event where
  | store (va : ℕ) (b : UInt8)
  | trap (cpu : Cpu) (t : Trap)

/-- Timer interrupts, page faults and the calls that manage processes and memory, leaving out the
two calls that only serve to inspect memory. -/
def Trap.ordinary : Trap → Bool
  | .timer => true
  | .pagefault _ _ => true
  | .getpid => true
  | .yield => true
  | .pageAlloc => true
  | .fork => true
  | .exit => true
  | _ => false

def Event.isOrdinaryTrap : Event → Bool
  | .store _ _ => false
  | .trap _ t => t.ordinary

/-- The kernel's state, the register file of the process that runs, and how the kernel was last
left. -/
structure Machine where
  kernel : Kernel
  cpu : Cpu
  outcome : Outcome

/-- The kernel has resumed a process. -/
def Outcome.resumed : Outcome → Bool
  | .run => true
  | .schedule => true
  | .spin => false
  | .returned => false

/-- A store by the current process to a canonical user address. -/
def userStore (k : Kernel) (va : ℕ) (b : UInt8) : Option Kernel :=
  match walk k.mem k.currentProc.pagetable va with
  | some t =>
    if va < 2 ^ 47 ∧ t.writable ∧ t.user then some { k with mem := Function.update k.mem t.pa b }
    else none
  | none => none

namespace Machine

/-- The state in which the kernel leaves a trap: the registers come from the process descriptor. -/
def resume (k : Kernel) (o : Outcome) : Machine :=
  ⟨k, exceptionReturn k.currentProc.registers, o⟩

def step (L : KernelLayout) (M : Machine) (e : Event) : Option Machine :=
  if M.outcome.resumed then
    match e with
    | .store va b => (userStore M.kernel va b).map (fun k => ⟨k, M.cpu, .run⟩)
    | .trap cpu t =>
      match exception L M.kernel (Registers.ofWords (trapFrame cpu t)) t.cr2 with
      | .ok (k, o) => some (resume k o)
      | .error _ => none
  else none

/-- The machine as `kernel(command)` leaves it. -/
def Boots (L : KernelLayout) (images : ℕ → ElfImage) (command : Option String) (M : Machine) :
    Prop :=
  ∃ m k, kernelMain L images m command = .ok k ∧ M = resume k .run

/-- The states of runs that start with `kernel(command)` and whose steps satisfy `ok`. -/
def Reach (L : KernelLayout) (images : ℕ → ElfImage) (command : Option String)
    (ok : Machine → Event → Prop) : Machine → Prop :=
  Runs.Reachable (Boots L images command) (step L) ok

/-- Only a process that runs makes a step. -/
theorem step_resumed {L : KernelLayout} {M M' : Machine} {e : Event} (h : M.step L e = some M') :
    M.outcome.resumed = true := by
  unfold step at h
  split_ifs at h with hres
  exact hres

/-- What a store by the running process changes. -/
theorem step_store {L : KernelLayout} {M M' : Machine} {va : ℕ} {b : UInt8}
    (h : M.step L (.store va b) = some M') :
    ∃ t, walk M.kernel.mem M.kernel.currentProc.pagetable va = some t ∧ va < 2 ^ 47 ∧
      t.writable = true ∧ t.user = true ∧
      M' = ⟨{ M.kernel with mem := Function.update M.kernel.mem t.pa b }, M.cpu, .run⟩ := by
  unfold step at h
  split_ifs at h with hres
  simp only [userStore] at h
  split at h
  · rename_i t ht
    split_ifs at h with hc
    · exact ⟨t, ht, hc.1, hc.2.1, hc.2.2, (Option.some.inj h).symm⟩
    · simp at h
  · simp at h

/-- A trap that the kernel survives. -/
theorem step_trap {L : KernelLayout} {M M' : Machine} {cpu : Cpu} {t : Trap}
    (h : M.step L (.trap cpu t) = some M') :
    M.outcome.resumed = true ∧ ∃ k o,
      exception L M.kernel (Registers.ofWords (trapFrame cpu t)) t.cr2 = .ok (k, o) ∧
      M' = resume k o := by
  unfold step at h
  split_ifs at h with hres
  dsimp only at h
  split at h
  · rename_i k o he
    exact ⟨hres, k, o, he, (Option.some.inj h).symm⟩
  · cases h

theorem step_trap_eq {L : KernelLayout} {M : Machine} {cpu : Cpu} {t : Trap} {k : Kernel}
    {o : Outcome} (hres : M.outcome.resumed = true)
    (he : exception L M.kernel (Registers.ofWords (trapFrame cpu t)) t.cr2 = .ok (k, o)) :
    M.step L (.trap cpu t) = some (resume k o) := by
  simp [step, hres, he]

end Machine

end WeensyOS
