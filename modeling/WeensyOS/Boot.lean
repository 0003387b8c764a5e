import WeensyOS.Exception

/-!
# Program loader and kernel start

`program_load` and `kernel(command)`. The ELF images are linked into the kernel; an image is its
header fields, its program headers and the bytes that follow its start in memory.
-/

namespace WeensyOS
open ByteMemory

structure ElfProgram where
  pType : ℕ
  pFlags : ℕ
  pOffset : ℕ
  pVa : ℕ
  pFilesz : ℕ
  pMemsz : ℕ
  deriving DecidableEq, Repr

structure ElfImage where
  eMagic : ℕ
  eEntry : ℕ
  programs : List ElfProgram
  bytes : ℕ → UInt8

@[simp] abbrev elfMagic : ℕ := 0x464C457F
@[simp] abbrev elfPtypeLoad : ℕ := 1
@[simp] abbrev elfPflagWrite : ℕ := 2
@[simp] abbrev nPrograms : ℕ := 7

/-- The allocation loop of `program_load_segment`. Every round takes a page, so `NPAGES` rounds are
more than it can make; the result is false when it returns -1. -/
def segmentAllocate (pagetable : ℕ) (pid : ℤ) (endMem : ℕ) :
    ℕ → ℕ → Memory × PageInfos → Except Panic ((Memory × PageInfos) × Bool)
  | 0, _, s => .ok (s, true)
  | n + 1, addr, s =>
    if addr < endMem then do
      let (info, page) := allocPageProcess s.2 pid
      if page = 0 then .ok ((s.1, info), false)
      else do
        let r ← virtualMemoryMap s.1 pagetable addr page pageSize (pteP ||| pteW ||| pteU)
        if r.2 < 0 then .ok ((r.1, info), false)
        else segmentAllocate pagetable pid endMem n ((addr + pageSize) % 2 ^ 64) (r.1, info)
    else .ok (s, true)

/-- A kernel store to virtual address `va` while the page table at `cr3` is loaded. -/
def kernelStore (m : Memory) (cr3 va : ℕ) (b : UInt8) : Except Panic Memory :=
  match walk m cr3 va with
  | some t => if t.writable then .ok (Function.update m t.pa b) else .error .kernelPageFault
  | none => .error .kernelPageFault

/-- `memcpy` or `memset` to a virtual address: byte `i` of the range becomes `src i`. -/
def kernelFill (cr3 : ℕ) (src : ℕ → UInt8) : ℕ → ℕ → ℕ → Memory → Except Panic Memory
  | 0, _, _, m => .ok m
  | n + 1, i, va, m => do
    let m ← kernelStore m cr3 va (src i)
    kernelFill cr3 src n (i + 1) ((va + 1) % 2 ^ 64) m

/-- The loop of `program_load_segment` that takes the write permission away again. -/
def segmentProtect (pagetable endMem : ℕ) : ℕ → ℕ → Memory → Except Panic Memory
  | 0, _, m => .ok m
  | n + 1, addr, m =>
    if addr < endMem then do
      let r ← virtualMemoryMap m pagetable addr (virtualMemoryLookup m pagetable addr).pa pageSize
        (pteP ||| pteU)
      segmentProtect pagetable endMem n ((addr + pageSize) % 2 ^ 64) r.1
    else .ok m

/-- `program_load_segment`; false is the result -1. -/
def programLoadSegment (L : KernelLayout) (pagetable : ℕ) (pid : ℤ) (ph : ElfProgram)
    (src : ℕ → UInt8) (s : Memory × PageInfos) :
    Except Panic ((Memory × PageInfos) × Bool) := do
  let va := ph.pVa / pageSize * pageSize
  let endFile := (ph.pVa + ph.pFilesz) % 2 ^ 64
  let endMem := (ph.pVa + ph.pMemsz) % 2 ^ 64
  let (s, ok) ← segmentAllocate pagetable pid endMem nPages va s
  if ok then do
    setPagetable L s.1 pagetable
    let m ← kernelFill pagetable src ((endFile + 2 ^ 64 - va) % 2 ^ 64) 0 va s.1
    let m ← kernelFill pagetable (fun _ => 0) ((endMem + 2 ^ 64 - endFile) % 2 ^ 64) 0 endFile m
    let m ← if ph.pFlags &&& elfPflagWrite = 0 then segmentProtect pagetable endMem nPages va m
      else .ok m
    setPagetable L m L.kernelPagetables
    pure ((m, s.2), true)
  else .ok (s, false)

/-- The segment loop of `program_load`. -/
def loadSegments (L : KernelLayout) (pagetable : ℕ) (pid : ℤ) (bytes : ℕ → UInt8) :
    List ElfProgram → Memory × PageInfos → Except Panic ((Memory × PageInfos) × Bool)
  | [], s => .ok (s, true)
  | ph :: phs, s =>
    if ph.pType = elfPtypeLoad then do
      let (s, ok) ← programLoadSegment L pagetable pid ph (fun i => bytes (ph.pOffset + i)) s
      if ok then loadSegments L pagetable pid bytes phs s else .ok (s, false)
    else loadSegments L pagetable pid bytes phs s

/-- `process_init`. -/
def processInit (flags : ℕ) : Registers :=
  let rflags : BitVec 64 := 0x200
  let rflags := if flags &&& 1 ≠ 0 then rflags ||| 0x3000 else rflags
  let rflags := if flags &&& 2 ≠ 0 then rflags &&& ~~~0x200 else rflags
  { regRax := 0, regRcx := 0, regRdx := 0, regRbx := 0, regRbp := 0, regRsi := 0, regRdi := 0,
    regR8 := 0, regR9 := 0, regR10 := 0, regR11 := 0, regR12 := 0, regR13 := 0, regR14 := 0,
    regR15 := 0, regFs := 0x23, regGs := 0x23, regIntno := 0, regErr := 0, regRip := 0,
    regCs := 0x13, regPadding2 := 0, regRflags := rflags, regRsp := 0, regSs := 0x23,
    regPadding3 := 0 }

/-- `process_setup` with `program_load` inlined: a failed load fails the assertion on its result. -/
def processSetup (L : KernelLayout) (images : ℕ → ElfImage) (k : Kernel) (pid program : ℕ) :
    Except Panic Kernel := do
  let (m, info, pt) ← duplicatePagetable k.mem k.pageinfo L.kernelPagetables pid
  assert (program < nPrograms)
  assert ((images program).eMagic = elfMagic)
  let (s, ok) ← loadSegments L pt (k.processes pid).pid (images program).bytes
    (images program).programs (m, info)
  assert (ok = true)
  let (m, info, _) ← sysPageAllocFindFree s.1 s.2 pt pid (memsizeVirtual - pageSize)
  let regs := { processInit 0 with
    regRip := BitVec.ofNat 64 (images program).eEntry, regRsp := BitVec.ofNat 64 memsizeVirtual }
  pure ({ k with mem := m, pageinfo := info }.updateProc pid
    (fun q => { q with registers := regs, pagetable := pt, state := .runnable }))

/-- The identity check at the end of `virtual_memory_init`. -/
def identityMapped (m : Memory) (pagetable : ℕ) : Prop :=
  ∀ i < nPages, (virtualMemoryLookup m pagetable (i * pageSize)).pa = i * pageSize ∧
    (virtualMemoryLookup m pagetable (i * pageSize)).perm &&& (pteP ||| pteW) = pteP ||| pteW

instance (m : Memory) (pagetable : ℕ) : Decidable (identityMapped m pagetable) :=
  Nat.decidableBallLT nPages _

/-- `virtual_memory_init`. -/
def virtualMemoryInit (L : KernelLayout) (m : Memory) : Except Panic Memory := do
  let kp := L.kernelPagetables
  let m := memset m kp 0 (5 * pageSize)
  let m := setEntry m kp 0 ((kp + pageSize) ||| pteP ||| pteW ||| pteU)
  let m := setEntry m (kp + pageSize) 0 ((kp + 2 * pageSize) ||| pteP ||| pteW ||| pteU)
  let m := setEntry m (kp + 2 * pageSize) 0 ((kp + 3 * pageSize) ||| pteP ||| pteW ||| pteU)
  let m := setEntry m (kp + 2 * pageSize) 1 ((kp + 4 * pageSize) ||| pteP ||| pteW ||| pteU)
  let r ← virtualMemoryMap m kp 0 0 memsizePhysical (pteP ||| pteW ||| pteU)
  assert (identityMapped r.1 kp)
  setPagetable L r.1 kp
  pure r.1

/-- The processes that `kernel(command)` sets up, with their program numbers. -/
def setups (command : Option String) : List (ℕ × ℕ) :=
  if command = some "fork" then [(1, 4)]
  else if command = some "forkexit" then [(1, 5)]
  else if command = some "test" then [(1, 6)]
  else if command = some "test2" then [(1, 6), (2, 6)]
  else [(1, 0), (2, 1), (3, 2), (4, 3)]

def initialProc (pid : ℕ) : Proc :=
  { pid := pid
    registers := { processInit 0 with
      regFs := 0, regGs := 0, regCs := 0, regRflags := 0, regSs := 0 }
    state := .free, pagetable := 0, displayStatus := false }

/-- `kernel(command)` from memory `m`, up to and including `run(&processes[1])`. -/
def kernelMain (L : KernelLayout) (images : ℕ → ElfImage) (m : Memory) (command : Option String) :
    Except Panic Kernel := do
  let m ← virtualMemoryInit L m
  let m := consoleClear m
  let r ← virtualMemoryMap m L.kernelPagetables 0 0 procStartAddr (pteP ||| pteW)
  let r ← virtualMemoryMap r.1 L.kernelPagetables consoleAddr consoleAddr pageSize
    (pteP ||| pteW ||| pteU)
  let k : Kernel :=
    { mem := r.1, pageinfo := pageinfoInit L, processes := initialProc, current := 0, ticks := 0,
      dispGlobal := true, lastTicks := 0, showing := 1 }
  let k ← (setups command).foldlM (fun k s => processSetup L images k s.1 s.2) k
  run L k 1

end WeensyOS
