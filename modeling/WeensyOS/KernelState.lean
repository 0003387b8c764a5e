import WeensyOS.Console
import WeensyOS.TrapFrame

/-!
# Kernel state, scheduler and consistency check

The static variables of `kernel.c`, the functions that load page tables and pick processes, and
`check_virtual_memory`, whose assertions are gathered into one decidable proposition: the first one
that fails panics, and none of them has another effect.
-/

namespace WeensyOS
open ByteMemory

inductive ProcState where
  | free
  | runnable
  | blocked
  | broken
  deriving DecidableEq, Repr

structure Proc where
  pid : ℕ
  registers : Registers
  state : ProcState
  pagetable : ℕ
  displayStatus : Bool

/-- `processes` has `NPROC` slots and `pageinfo` has `NPAGES` entries; `current` is the slot that
the source's pointer designates. -/
structure Kernel where
  mem : Memory
  pageinfo : PageInfos
  processes : ℕ → Proc
  current : ℕ
  ticks : ℕ
  dispGlobal : Bool
  lastTicks : ℕ
  showing : ℕ

namespace Kernel

def updateProc (k : Kernel) (p : ℕ) (f : Proc → Proc) : Kernel :=
  { k with processes := Function.update k.processes p (f (k.processes p)) }

def setRax (k : Kernel) (p : ℕ) (v : BitVec 64) : Kernel :=
  k.updateProc p (fun q => { q with registers := { q.registers with regRax := v } })

def currentProc (k : Kernel) : Proc := k.processes k.current

def states (k : Kernel) (p : ℕ) : ProcState := (k.processes p).state

/-- A process slot in use. -/
def Live (k : Kernel) (p : ℕ) : Prop := (k.processes p).state ≠ .free

instance (k : Kernel) (p : ℕ) : Decidable (k.Live p) := inferInstanceAs (Decidable (_ ≠ _))

section updateProc
variable (k : Kernel) (p : ℕ) (f : Proc → Proc)

@[simp] theorem updateProc_mem : (k.updateProc p f).mem = k.mem := rfl
@[simp] theorem updateProc_pageinfo : (k.updateProc p f).pageinfo = k.pageinfo := rfl
@[simp] theorem updateProc_current : (k.updateProc p f).current = k.current := rfl
@[simp] theorem updateProc_same : (k.updateProc p f).processes p = f (k.processes p) :=
  Function.update_self ..

theorem updateProc_of_ne {q : ℕ} (h : q ≠ p) :
    (k.updateProc p f).processes q = k.processes q := Function.update_of_ne h ..

theorem updateProc_apply (q : ℕ) :
    (k.updateProc p f).processes q = if q = p then f (k.processes p) else k.processes q := by
  split_ifs with h
  · rw [h, updateProc_same]
  · exact k.updateProc_of_ne p f h

end updateProc

end Kernel

def setPagetable (L : KernelLayout) (m : Memory) (pagetable : ℕ) : Except Panic Unit := do
  assert (pageOffset pagetable = 0)
  assert ((virtualMemoryLookup m pagetable L.defaultIntHandler).pa = L.defaultIntHandler)
  assert ((virtualMemoryLookup m L.kernelPagetables pagetable).pa = pagetable)
  assert ((virtualMemoryLookup m pagetable L.kernelPagetables).pa = L.kernelPagetables)
  assert ((virtualMemoryLookup m pagetable L.virtualMemoryMap).pa = L.virtualMemoryMap)

/-- `run`: loading the page table and making `p` current. The registers that `exception_return`
then loads are those of `p`. -/
def run (L : KernelLayout) (k : Kernel) (p : ℕ) : Except Panic Kernel := do
  assert ((k.processes p).state = .runnable)
  setPagetable L k.mem (k.processes p).pagetable
  pure { k with current := p }

/-- How the kernel leaves `exception`: by `run` on the current process, by `run` from `schedule`,
by looping in `schedule` with nothing to run, or by returning to the assembly stub. -/
inductive Outcome where
  | run
  | schedule
  | spin
  | returned
  deriving DecidableEq, Repr

/-- The loop of `schedule`, for at most `n` rounds. -/
def scheduleLoop (state : ℕ → ProcState) : ℕ → ℕ → Option ℕ
  | 0, _ => none
  | n + 1, pid =>
    if state ((pid + 1) % nProc) = .runnable then some ((pid + 1) % nProc)
    else scheduleLoop state n ((pid + 1) % nProc)

/-- `schedule`. The loop visits every slot in `NPROC` rounds and changes nothing, so when that many
rounds find no runnable process it spins forever. -/
def schedule (L : KernelLayout) (k : Kernel) : Except Panic (Kernel × Outcome) :=
  match scheduleLoop k.states nProc k.currentProc.pid with
  | some pid => do
    let k ← run L k pid
    pure (k, .schedule)
  | none => .ok (k, .spin)

/-- `check_page_table_mappings`. -/
def checkPageTableMappings (L : KernelLayout) (m : Memory) (pt : ℕ) : Prop :=
  pteAddr pt = pt ∧
  (∀ i < (L.endAddr - kernelStartAddr + (pageSize - 1)) / pageSize,
    (virtualMemoryLookup m pt (kernelStartAddr + i * pageSize)).pa =
      kernelStartAddr + i * pageSize ∧
    (kernelStartAddr + i * pageSize ≥ L.startData →
      (virtualMemoryLookup m pt (kernelStartAddr + i * pageSize)).perm &&& pteW ≠ 0)) ∧
  (virtualMemoryLookup m pt (kernelStackTop - pageSize)).pa = kernelStackTop - pageSize ∧
  (virtualMemoryLookup m pt (kernelStackTop - pageSize)).perm &&& pteW ≠ 0

instance (L : KernelLayout) (m : Memory) (pt : ℕ) : Decidable (checkPageTableMappings L m pt) :=
  inferInstanceAs (Decidable (_ ∧ _ ∧ _ ∧ _))

/-- `check_page_table_ownership_level` for a table with `n` table levels below it. -/
def checkPageTableOwnershipLevel (m : Memory) (info : PageInfos) (owner : ℤ) :
    ℕ → ℕ → ℤ → Prop
  | 0, pt, refcount =>
    pageNumber pt < nPages ∧ (info (pageNumber pt).toNat).owner = owner ∧
      (info (pageNumber pt).toNat).refcount = refcount
  | n + 1, pt, refcount =>
    (pageNumber pt < nPages ∧ (info (pageNumber pt).toNat).owner = owner ∧
      (info (pageNumber pt).toNat).refcount = refcount) ∧
    ∀ index < nPagetableEntries, entry m pt index ≠ 0 →
      checkPageTableOwnershipLevel m info owner n (pteAddr (entry m pt index)) 1

instance decidableOwnershipLevel (m : Memory) (info : PageInfos) (owner : ℤ) :
    ∀ n pt refcount, Decidable (checkPageTableOwnershipLevel m info owner n pt refcount)
  | 0, _, _ => inferInstanceAs (Decidable (_ ∧ _ ∧ _))
  | n + 1, _, _ =>
    have := decidableOwnershipLevel m info owner n
    inferInstanceAs (Decidable (_ ∧ ∀ _, _))

/-- `check_page_table_ownership`. -/
def checkPageTableOwnership (L : KernelLayout) (k : Kernel) (pt : ℕ) (pid : ℤ) : Prop :=
  if pt = L.kernelPagetables then
    checkPageTableOwnershipLevel k.mem k.pageinfo poKernel 3 pt
      (1 + ((Finset.range nProc).filter (fun x => (k.processes x).state ≠ .free ∧
        (k.processes x).pagetable = L.kernelPagetables)).card)
  else checkPageTableOwnershipLevel k.mem k.pageinfo pid 3 pt 1

instance (L : KernelLayout) (k : Kernel) (pt : ℕ) (pid : ℤ) :
    Decidable (checkPageTableOwnership L k pt pid) :=
  inferInstanceAs (Decidable (ite (pt = L.kernelPagetables)
    (checkPageTableOwnershipLevel k.mem k.pageinfo poKernel 3 pt _)
    (checkPageTableOwnershipLevel k.mem k.pageinfo pid 3 pt 1)))

/-- `check_virtual_memory`: all its assertions hold. -/
def checkVirtualMemory (L : KernelLayout) (k : Kernel) : Prop :=
  (k.processes 0).state = .free ∧
  checkPageTableMappings L k.mem L.kernelPagetables ∧
  checkPageTableOwnership L k L.kernelPagetables (-1) ∧
  (∀ pid < nProc, (k.processes pid).state ≠ .free →
    (k.processes pid).pagetable ≠ L.kernelPagetables →
    checkPageTableMappings L k.mem (k.processes pid).pagetable ∧
    checkPageTableOwnership L k (k.processes pid).pagetable pid) ∧
  ∀ pn < nPages, (k.pageinfo pn).refcount > 0 → (k.pageinfo pn).owner ≥ 0 →
    (k.processes (k.pageinfo pn).owner.toNat).state ≠ .free

instance (L : KernelLayout) (k : Kernel) : Decidable (checkVirtualMemory L k) :=
  inferInstanceAs (Decidable (_ ∧ _ ∧ _ ∧ _ ∧ _))

/-- The loop of `memshow_virtual_animate` that skips free slots. -/
def skipFree (state : ℕ → ProcState) : ℕ → ℕ → ℕ
  | 0, showing => showing
  | n + 1, showing =>
    if showing ≤ 2 * nProc ∧ state (showing % nProc) = .free then
      skipFree state n (showing + 1)
    else showing

/-- `memshow_virtual_animate`. `last_ticks` and `showing` are its static variables; a new process is
shown every `HZ / 2 = 50` ticks. -/
def memshowVirtualAnimate (k : Kernel) : Except Panic Kernel :=
  let advance := k.lastTicks = 0 ∨ (k.ticks + 2 ^ 32 - k.lastTicks) % 2 ^ 32 ≥ 50
  let showing := skipFree k.states (2 * nProc + 1)
    (if advance then k.showing + 1 else k.showing) % nProc
  let k := { k with lastTicks := if advance then k.ticks else k.lastTicks, showing := showing }
  if (k.processes showing).state ≠ .free then do
    let m ← memshowVirtual k.mem k.pageinfo (k.processes showing).pagetable
      ((formatD showing ++ text " ").take 3)
    pure { k with mem := m }
  else .ok k

end WeensyOS
