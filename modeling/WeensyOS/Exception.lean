import WeensyOS.KernelState

/-!
# System calls and the exception handler

`exception` and the functions of `kernel.c` that it calls, translated statement by statement. Loops
over pages recurse on the number of rounds left.
-/

namespace WeensyOS
open ByteMemory

/-- The copy loop of `duplicate_pagetable`: the mappings below `PROC_START_ADDR`. -/
def duplicateLoop (pagetable fill : ℕ) : ℕ → ℕ → Memory → Except Panic Memory
  | 0, _, m => .ok m
  | n + 1, va, m => do
    let map := virtualMemoryLookup m pagetable va
    let r ← virtualMemoryMap m fill va map.pa pageSize map.perm
    duplicateLoop pagetable fill n (va + pageSize) r.1

/-- `duplicate_pagetable`, which allocates and clears five tables even when one allocation has
failed; `memset` through a null pointer clears physical page 0. -/
def duplicatePagetable (m : Memory) (info : PageInfos) (pagetable : ℕ) (pid : ℤ) :
    Except Panic (Memory × PageInfos × ℕ) :=
  let (info, l1) := allocPageProcess info pid
  let (info, l2) := allocPageProcess info pid
  let (info, l3) := allocPageProcess info pid
  let (info, l4₁) := allocPageProcess info pid
  let (info, l4₂) := allocPageProcess info pid
  let m := memset m l1 0 pageSize
  let m := memset m l2 0 pageSize
  let m := memset m l3 0 pageSize
  let m := memset m l4₁ 0 pageSize
  let m := memset m l4₂ 0 pageSize
  if l1 ≠ 0 ∧ l2 ≠ 0 ∧ l3 ≠ 0 ∧ l4₁ ≠ 0 ∧ l4₂ ≠ 0 then do
    let m := setEntry m l1 0 (l2 ||| pteP ||| pteW ||| pteU)
    let m := setEntry m l2 0 (l3 ||| pteP ||| pteW ||| pteU)
    let m := setEntry m l3 0 (l4₁ ||| pteP ||| pteW ||| pteU)
    let m := setEntry m l3 1 (l4₂ ||| pteP ||| pteW ||| pteU)
    let m ← duplicateLoop pagetable l1 (procStartAddr / pageSize) 0 m
    pure (m, info, l1)
  else .ok (m, info, 0)

/-- `sys_page_alloc_find_free`. The result of `virtual_memory_map` is ignored. -/
def sysPageAllocFindFree (m : Memory) (info : PageInfos) (pagetable : ℕ) (pid : ℤ) (addr : ℕ) :
    Except Panic (Memory × PageInfos × ℤ) :=
  match findFreeOrFail info (nPages - 1) 1 with
  | none => .ok (m, info, -1)
  | some p =>
    let (info, r) := assignPhysicalPage info (pageAddress p) pid
    let r := if addr < procStartAddr then -1 else r
    if r ≥ 0 then do
      let res ← virtualMemoryMap m pagetable addr (pageAddress p) pageSize (pteP ||| pteW ||| pteU)
      pure (res.1, info, r)
    else .ok (m, info, r)

/-- One round of the page loop of `INT_SYS_FORK`. -/
def forkPage (parent child : ℕ) (pid : ℤ) (v : ℕ) (s : Memory × PageInfos) :
    Except Panic (Memory × PageInfos) :=
  let map := virtualMemoryLookup s.1 parent v
  if map.pa ≠ consoleAddr ∧ map.perm &&& pteW ≠ 0 then do
    let (info, page) := allocPageProcess s.2 pid
    let r ← virtualMemoryMap (memcpy s.1 page map.pa pageSize) child v page pageSize map.perm
    pure (r.1, info)
  else do
    let r ← virtualMemoryMap s.1 child v map.pa pageSize map.perm
    pure (r.1, incRefcount s.2 map.pn)

def forkLoop (parent child : ℕ) (pid : ℤ) :
    ℕ → ℕ → Memory × PageInfos → Except Panic (Memory × PageInfos)
  | 0, _, s => .ok s
  | n + 1, v, s => do
    let s ← forkPage parent child pid v s
    forkLoop parent child pid n (v + pageSize) s

@[simp] abbrev userPages : ℕ := (memsizeVirtual - procStartAddr) / pageSize

/-- The slot that `INT_SYS_FORK` takes: the first free one from 1 on. -/
def findFreeSlot (state : ℕ → ProcState) : ℕ → ℕ → Option ℕ
  | 0, _ => none
  | n + 1, p => if state p = .free then some p else findFreeSlot state n (p + 1)

/-- What a branch of the `switch` in `exception` does next: fall out of it, call `schedule`, or
return from `exception`. -/
inductive Next where
  | break
  | schedule
  | return
  deriving DecidableEq, Repr

def sysFork (k : Kernel) : Except Panic (Kernel × Next) :=
  match findFreeSlot k.states (nProc - 1) 1 with
  | none => .ok (k.setRax k.current (-1), .break)
  | some c => do
    let k := k.updateProc c (fun q => { q with pid := c, state := .runnable })
    let parent := k.currentProc.pagetable
    let (m, info, pt) ← duplicatePagetable k.mem k.pageinfo parent c
    let k := { k.updateProc c (fun q => { q with pagetable := pt }) with
      mem := m, pageinfo := info }
    if pt ≠ 0 then do
      let (m, info) ← forkLoop parent pt c userPages procStartAddr (k.mem, k.pageinfo)
      let k := { k with mem := m, pageinfo := info }
      let regs := k.currentProc.registers
      let k := k.updateProc c (fun q => { q with registers := { regs with regRax := 0 } })
      pure (k.setRax k.current (BitVec.ofNat 64 c), .break)
    else
      let k := k.updateProc c (fun q => { q with state := .free })
      pure (k.setRax k.current (-1), .return)

/-- The page numbers of the five tables that `INT_SYS_EXIT` reads from the caller's page table. -/
def exitTables (m : Memory) (pagetable : ℕ) : List ℕ :=
  let l1 := pagetable
  let l2 := pteAddr (entry m l1 0)
  let l3 := pteAddr (entry m l2 0)
  let l4₁ := pteAddr (entry m l3 0)
  let l4₂ := pteAddr (entry m l3 1)
  [l1, l2, l3, l4₁, l4₂].map (fun t => (pageNumber t).toNat)

/-- `owner = P_FREE; refcount = 0` for the five tables. -/
def releaseTables (info : PageInfos) (tables : List ℕ) : PageInfos :=
  tables.foldl (fun info t => Function.update info t ⟨0, 0⟩) info

/-- One round of the page loop of `INT_SYS_EXIT`. -/
def exitPage (pid : ℤ) (tables : List ℕ) (map : VaMapping) (info : PageInfos) : PageInfos :=
  let pn := map.pn.toNat
  if map.perm &&& pteW = 0 ∧ map.pn > 0 ∧ (info pn).refcount ≠ 0 then
    let owner := if (info pn).refcount = 0 then 0 else (info pn).owner
    Function.update info pn ⟨owner, toInt8 ((info pn).refcount - 1)⟩
  else if map.pn > 0 ∧ map.perm &&& pteW ≠ 0 ∧ (info pn).owner = pid ∧ (info pn).refcount ≠ 0 ∧
      pn ∉ tables then
    Function.update info pn ⟨0, 0⟩
  else info

def exitLoop (m : Memory) (pagetable : ℕ) (pid : ℤ) (tables : List ℕ) :
    ℕ → ℕ → PageInfos → PageInfos
  | 0, _, info => info
  | n + 1, v, info =>
    exitLoop m pagetable pid tables n (v + pageSize)
      (if pagetable ≠ 0 then exitPage pid tables (virtualMemoryLookup m pagetable v) info else info)

def sysExit (k : Kernel) : Kernel :=
  let p := k.currentProc
  let tables := exitTables k.mem p.pagetable
  let info := exitLoop k.mem p.pagetable p.pid tables userPages procStartAddr
    (releaseTables k.pageinfo tables)
  { k.updateProc k.current (fun q => { q with state := .free }) with pageinfo := info }

/-- The 24 bytes of a `vamapping` object, padding included as zeros. -/
def VaMapping.store (m : Memory) (a : ℕ) (v : VaMapping) : Memory :=
  storeLE (storeLE (storeLE m a (v.pn % 2 ^ 32).toNat 8) (a + 8) v.pa 8) (a + 16) v.perm 8

/-- `syscall_mapping`. The kernel's page table maps exactly physical memory, so a buffer that
reaches past it faults inside the kernel. -/
def syscallMapping (k : Kernel) : Except Panic Kernel :=
  let p := k.currentProc
  let map := virtualMemoryLookup k.mem p.pagetable p.registers.regRdi.toNat
  if map.perm &&& (pteW ||| pteU) ≠ pteW ||| pteU then .ok k
  else
    let endMap := virtualMemoryLookup k.mem p.pagetable ((map.pa + 24 - 1) % 2 ^ 64)
    if endMap.perm &&& (pteW ||| pteP) ≠ pteW ||| pteP then .ok k
    else if map.pa + 24 > memsizePhysical then .error .kernelPageFault
    else .ok { k with mem :=
      (virtualMemoryLookup k.mem p.pagetable p.registers.regRsi.toNat).store k.mem map.pa }

/-- `syscall_mem_tog` for the argument `p`. -/
def memTog (k : Kernel) (p : ℤ) : Kernel :=
  if p = 0 then { k with dispGlobal := !k.dispGlobal }
  else if p < 0 ∨ p > nProc ∨ p ≠ k.currentProc.pid then k
  else k.updateProc k.current (fun q => { q with displayStatus := !q.displayStatus })

def syscallMemTog (k : Kernel) : Kernel :=
  memTog k (toInt32 k.currentProc.registers.regRdi.toNat)

/-- `console_printf` of the page-fault message. -/
def pagefaultMessage (pid : ℕ) (reg : Registers) (cr2 : ℕ) : List ℕ :=
  let operation := if reg.regErr.toNat &&& pferrWrite ≠ 0 then "write" else "read"
  let problem := if reg.regErr.toNat &&& pferrPresent ≠ 0 then "protection problem"
    else "missing page"
  text "Process " ++ formatD pid ++ text " page fault for " ++ formatP cr2 ++ text " (" ++
    text operation ++ text " " ++ text problem ++ text ", rip=" ++ formatP reg.regRip.toNat ++
    text ")!\n"

/-- The `switch` of `exception`. -/
def dispatch (k : Kernel) (reg : Registers) (cr2 : ℕ) : Except Panic (Kernel × Next) :=
  match reg.regIntno.toNat with
  | 48 => .error .sysPanic
  | 49 => .ok (k.setRax k.current (BitVec.ofNat 64 k.currentProc.pid), .break)
  | 50 => .ok (k, .schedule)
  | 51 => do
    let (m, info, r) ← sysPageAllocFindFree k.mem k.pageinfo k.currentProc.pagetable
      k.currentProc.pid k.currentProc.registers.regRdi.toNat
    pure (({ k with mem := m, pageinfo := info } : Kernel).setRax k.current (BitVec.ofInt 64 r),
      .break)
  | 52 => sysFork k
  | 53 => .ok (sysExit k, .break)
  | 54 => do
    let k ← syscallMapping k
    pure (k, .break)
  | 56 => .ok (syscallMemTog k, .break)
  | 32 => .ok ({ k with ticks := (k.ticks + 1) % 2 ^ 32 }, .schedule)
  | 14 =>
    if reg.regErr.toNat &&& pferrUser = 0 then .error .kernelPageFault
    else
      let m := (consolePrintf k.mem (cpos 24 0) 0x0C00
        (pagefaultMessage k.currentProc.pid reg cr2)).1
      .ok (({ k with mem := m } : Kernel).updateProc k.current
        (fun q => { q with state := .broken }), .break)
  | _ => .error .unexpectedException

/-- Memory is checked and shown unless the trap is a fault of the kernel itself. -/
def showsMemory (reg : Registers) : Prop :=
  (reg.regIntno.toNat ≠ 14 ∧ reg.regIntno.toNat ≠ 13) ∨ reg.regErr.toNat &&& pferrUser ≠ 0

instance (reg : Registers) : Decidable (showsMemory reg) := inferInstanceAs (Decidable (_ ∨ _))

def showMemory (L : KernelLayout) (k : Kernel) (reg : Registers) : Except Panic Kernel :=
  if showsMemory reg then do
    assert (checkVirtualMemory L k)
    if k.dispGlobal then
      memshowVirtualAnimate { k with mem := memshowPhysical k.mem k.pageinfo }
    else pure k
  else .ok k

/-- The end of `exception`: run the current process if it still can run, else something else. -/
def leave (L : KernelLayout) (k : Kernel) : Next → Except Panic (Kernel × Outcome)
  | .return => .ok (k, .returned)
  | .schedule => schedule L k
  | .break =>
    if k.currentProc.state = .runnable then do
      let k ← run L k k.current
      pure (k, .run)
    else schedule L k

/-- `exception(reg)`, from the copy of the saved registers to the way out. The keyboard is not
modelled: no key is pressed. -/
def exception (L : KernelLayout) (k : Kernel) (reg : Registers) (cr2 : ℕ) :
    Except Panic (Kernel × Outcome) := do
  let k := k.updateProc k.current (fun q => { q with registers := reg })
  setPagetable L k.mem L.kernelPagetables
  let k ← showMemory L k reg
  let (k, next) ← dispatch k reg cr2
  leave L k next

end WeensyOS
