import WeensyOS.Refinement
import Mathlib.Tactic.FinCases

/-!
# Register contexts

A process that trapped is resumed with the register file it trapped with, except for the result of
its own system call, and a forked child starts with its parent's. The descriptor of a process that
is not running is written by nobody, so whatever others do in between does not matter.
-/

namespace WeensyOS
open Runs World

/-- The result in `rax` of the trap `t`, taken with the registers `cpu`. -/
def callResult (k : Kernel) (cpu : Cpu) : Trap → BitVec 64
  | .getpid => BitVec.ofNat 64 k.currentProc.pid
  | .pageAlloc => BitVec.ofInt 64 (pageAllocResult k.pageinfo cpu.rdi.toNat)
  | .fork =>
    match findFreeSlot k.states (nProc - 1) 1 with
    | some c => BitVec.ofNat 64 c
    | none => -1
  | _ => cpu.rax

theorem trapResult_ofWords (k : Kernel) (cpu : Cpu) (t : Trap) :
    trapResult k (Registers.ofWords (trapFrame cpu t)) = callResult k cpu t := by
  rw [trapResult, intno_ofWords]
  have hrdi : (Registers.ofWords (trapFrame cpu t)).regRdi = cpu.rdi := rfl
  have hrax : (Registers.ofWords (trapFrame cpu t)).regRax = cpu.rax := rfl
  rw [hrdi, hrax]
  cases t with
  | timer => rfl
  | pagefault err cr2 => rfl
  | gpf err => rfl
  | syscall n => fin_cases n <;> rfl

/-- The kernel hands the processor to `p`. -/
def Machine.resumes (M : Machine) (p : ℕ) : Prop := M.outcome.resumed = true ∧ M.kernel.current = p

/-- No fork that fails while it duplicates the page table, and no `sys_mapping` whose buffer crosses
a page boundary. -/
def contextStep (M : Machine) : Event → Prop
  | .store _ _ => True
  | .trap _ .fork => findFreeSlot M.kernel.states (nProc - 1) 1 = none ∨
      5 ≤ (freePages M.kernel.pageinfo).card
  | .trap cpu .mapping => pageOffset cpu.rdi.toNat + 24 ≤ pageSize
  | .trap _ _ => True

theorem exceptionReturn_trapFrame (cpu : Cpu) (t : Trap) (v : BitVec 64) :
    exceptionReturn { Registers.ofWords (trapFrame cpu t) with regRax := v } =
      { cpu with rax := v } := by
  rw [exceptionReturn_setRax, exceptionReturn_ofWords]

/-- A step by another process leaves the registers of a live process alone. -/
theorem step_registers_of_ne {L : KernelLayout} {M M' : Machine} {e : Event} {p : ℕ} (hM : RunOk M)
    (hs : M.step L e = some M') (hlive : M.kernel.Live p) (hne : p ≠ M.kernel.current) :
    (M'.kernel.processes p).registers = (M.kernel.processes p).registers := by
  cases e with
  | store va b =>
      obtain ⟨t, -, -, -, -, rfl⟩ := Machine.step_store hs
      rfl
  | trap cpu t =>
      obtain ⟨hres, k, o, he, rfl⟩ := Machine.step_trap hs
      obtain ⟨-, heff⟩ := exception_effect hM.table (hM.runnable hres) he
      exact congrArg Proc.registers (heff.other p hne hlive)

/-- From the trap that saves the registers `r` of `p` on, they stay until `p` is resumed. -/
theorem registers_until_resumed {L : KernelLayout} {s : ℕ → Machine} {e : ℕ → Event} {n p : ℕ}
    {r : Registers} (hrun : IsRun (Machine.step L) s e n) (hok : ∀ i ≤ n, RunOk (s i))
    (hlive : ∀ i, 1 ≤ i → i ≤ n → (s i).kernel.Live p)
    (hwait : ∀ i, 1 ≤ i → i < n → ¬ (s i).resumes p)
    (hsaved : ((s 1).kernel.processes p).registers = r) {i : ℕ} (hi : i + 1 ≤ n) :
    ((s (i + 1)).kernel.processes p).registers = r := by
  induction i with
  | zero => exact hsaved
  | succ i ih =>
      have hres := Machine.step_resumed (hrun (i + 1) (by omega))
      have hne : p ≠ (s (i + 1)).kernel.current :=
        fun hp => hwait (i + 1) (by omega) (by omega) ⟨hres, hp.symm⟩
      rw [step_registers_of_ne (hok (i + 1) (by omega)) (hrun (i + 1) (by omega))
        (hlive (i + 1) (by omega) (by omega)) hne]
      exact ih (by omega)

/-- The state that resumes a waiting process comes from a trap, so it runs with the registers of
its descriptor. -/
theorem cpu_of_resumes {L : KernelLayout} {M M' : Machine} {e : Event} {p : ℕ}
    (hs : M.step L e = some M') (hres : M'.resumes p)
    (hfirst : (∃ cpu t, e = .trap cpu t) ∨ ¬ M.resumes p) :
    M'.cpu = exceptionReturn (M'.kernel.processes p).registers := by
  cases e with
  | store va b =>
      rcases hfirst with ⟨cpu, t, hc⟩ | hnot
      · cases hc
      · have hres' := Machine.step_resumed hs
        obtain ⟨t, -, -, -, -, rfl⟩ := Machine.step_store hs
        exact absurd ⟨hres', hres.2⟩ hnot
  | trap cpu t =>
      obtain ⟨-, k, o, -, rfl⟩ := Machine.step_trap hs
      rw [← hres.2]
      rfl

end WeensyOS
