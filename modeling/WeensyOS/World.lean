import WeensyOS.Exception
import WeensyOS.RefLedger

/-!
# The abstract memory manager

A `World` forgets page tables, registers and bytes. What remains is which process holds which
physical page, and for what: as one of its five tables or as a page of its address space, writable
or read-only. The operations of the kernel become updates of this ledger and of `pageinfo`; the
modules that follow connect them to the code and prove invariants about them.
-/

namespace WeensyOS

/-- What a process can hold a physical page for: a page table, or the virtual page `i`. -/
inductive Slot where
  | table (j : Fin 5)
  | page (i : ℕ)
  deriving DecidableEq

structure Ref where
  frame : ℕ
  writable : Bool
  deriving DecidableEq

structure World where
  info : PageInfos
  state : ℕ → ProcState
  held : ℕ × Slot → Option Ref
  current : ℕ

/-- The permissions of kernel pages: only the console is open to users. -/
def kernelPerm (i : ℕ) : ℕ := if i = 0xB8 then 7 else 3

/-- The leaf entries below `PROC_START_ADDR`, the same in every page table. -/
def kernelLeaf (i : ℕ) : ℕ := i * 4096 + kernelPerm i

theorem kernelPerm_lt (i : ℕ) : kernelPerm i < 8 := by
  unfold kernelPerm
  split_ifs <;> norm_num

theorem kernelPerm_present (i : ℕ) : kernelPerm i &&& pteP ≠ 0 := by
  unfold kernelPerm
  split_ifs <;> decide

def Ref.entry : Option Ref → ℕ
  | none => 0
  | some r => r.frame * 4096 + if r.writable then 7 else 5

namespace World

def Live (w : World) (p : ℕ) : Prop := w.state p ≠ .free

def leaf (w : World) (p i : ℕ) : ℕ :=
  if i < 256 then kernelLeaf i else Ref.entry (w.held (p, .page i))

/-- The pages of the five tables of `p`. -/
def frames (w : World) (p : ℕ) (j : Fin 5) : ℕ :=
  match w.held (p, .table j) with
  | some r => r.frame
  | none => 0

def hold (w : World) (p : ℕ) (s : Slot) (r : Option Ref) : World :=
  { w with held := Function.update w.held (p, s) r }

def setInfo (w : World) (pn : ℕ) (i : PageInfo) : World :=
  { w with info := Function.update w.info pn i }

def setState (w : World) (p : ℕ) (s : ProcState) : World :=
  { w with state := Function.update w.state p s }

/-- Page `pn` goes to `p`, who becomes its owner and only user. -/
def give (w : World) (p : ℕ) (s : Slot) (pn : ℕ) : World :=
  (w.hold p s (some ⟨pn, true⟩)).setInfo pn ⟨p, 1⟩

/-- `sys_page_alloc`: an address that reaches no leaf table wastes the page. -/
def pageAlloc (w : World) (p addr : ℕ) : World :=
  match lowestFree w.info with
  | none => w
  | some pn =>
    if procStartAddr ≤ addr ∧ inTree addr then w.give p (.page (addr / pageSize % 1024)) pn
    else w.setInfo pn ⟨p, 1⟩

/-- A fresh page for one table of `c`. -/
def takeTable (c : ℕ) (w : World) (j : Fin 5) : Option World :=
  (lowestFree w.info).map (w.give c (.table j))

def duplicate (c : ℕ) (w : World) : Option World :=
  [0, 1, 2, 3, 4].foldlM (takeTable c) w

/-- `fork` on virtual page `i`: writable pages are copied, read-only ones shared. Without a free
page the copy goes to page 0. -/
def forkSlot (p c i : ℕ) (w : World) : World :=
  match w.held (p, .page i) with
  | none => w
  | some ⟨_, true⟩ =>
    match lowestFree w.info with
    | some pn => w.give c (.page i) pn
    | none => w.hold c (.page i) (some ⟨0, true⟩)
  | some ⟨pn, false⟩ =>
    { w.hold c (.page i) (some ⟨pn, false⟩) with info := incRefcount w.info pn }

def forkSlots (p c : ℕ) : ℕ → ℕ → World → World
  | 0, _, w => w
  | n + 1, i, w => forkSlots p c n (i + 1) (forkSlot p c i w)

/-- The five allocations of a `duplicate_pagetable` that runs out of pages. -/
def drain (info : PageInfos) (c : ℤ) : PageInfos :=
  (fun info => (allocPageProcess info c).1)^[5] info

def fork (w : World) : World × Next :=
  match findFreeSlot w.state (nProc - 1) 1 with
  | none => (w, .break)
  | some c =>
    match duplicate c (w.setState c .runnable) with
    | some w' => (forkSlots w.current c userPages (procStartAddr / pageSize) w', .break)
    | none => ({ w with info := drain w.info c }, .return)

def releaseTable (p : ℕ) (w : World) (j : Fin 5) : World :=
  (w.hold p (.table j) none).setInfo (w.frames p j) ⟨0, 0⟩

/-- What `exit` does to the counts of a page that the exiting process `p` maps. -/
def releaseRef (p : ℕ) (tables : List ℕ) (r : Ref) (info : PageInfos) : PageInfos :=
  if r.writable then
    if 0 < r.frame ∧ (info r.frame).owner = p ∧ (info r.frame).refcount ≠ 0 ∧ r.frame ∉ tables then
      Function.update info r.frame ⟨0, 0⟩
    else info
  else if 0 < r.frame ∧ (info r.frame).refcount ≠ 0 then
    Function.update info r.frame
      ⟨(info r.frame).owner, toInt8 ((info r.frame).refcount - 1)⟩
  else info

def releaseSlot (p : ℕ) (tables : List ℕ) (i : ℕ) (w : World) : World :=
  match w.held (p, .page i) with
  | none => w
  | some r => { w.hold p (.page i) none with info := releaseRef p tables r w.info }

def releaseSlots (p : ℕ) (tables : List ℕ) : ℕ → ℕ → World → World
  | 0, _, w => w
  | n + 1, i, w => releaseSlots p tables n (i + 1) (releaseSlot p tables i w)

/-- The process is gone, with whatever it still held. -/
def drop (w : World) (p : ℕ) : World :=
  { w.setState p .free with held := fun x => if x.1 = p then none else w.held x }

def exit (w : World) : World :=
  let p := w.current
  let tables := (List.finRange 5).map (w.frames p)
  (releaseSlots p tables userPages (procStartAddr / pageSize)
    ((List.finRange 5).foldl (releaseTable p) w)).drop p

def dispatch (w : World) (t : Trap) (addr : ℕ) : World × Next :=
  match t with
  | .timer => (w, .schedule)
  | .yield => (w, .schedule)
  | .pageAlloc => (w.pageAlloc w.current addr, .break)
  | .fork => w.fork
  | .exit => (w.exit, .break)
  | .pagefault _ _ => (w.setState w.current .broken, .break)
  | _ => (w, .break)

def schedule (w : World) : World × Outcome :=
  match scheduleLoop w.state nProc w.current with
  | some p => ({ w with current := p }, .schedule)
  | none => (w, .spin)

def leave (w : World) : Next → World × Outcome
  | .return => (w, .returned)
  | .schedule => w.schedule
  | .break => if w.state w.current = .runnable then (w, .run) else w.schedule

/-- One trap of the current process, with `addr` in `rdi`. -/
def trap (w : World) (t : Trap) (addr : ℕ) : World × Outcome :=
  (w.dispatch t addr).1.leave (w.dispatch t addr).2

/-- Ledgers that the kernel's page tables can represent. Nothing here mentions a reference count
of a usable page. -/
structure Wf (L : KernelLayout) (w : World) : Prop where
  zero : w.state 0 = .free
  above : ∀ p, 16 ≤ p → w.state p = .free
  current : w.current < 16
  dead : ∀ p s, w.state p = .free → w.held (p, s) = none
  tables : ∀ p, w.Live p → ∀ j, w.held (p, .table j) = some ⟨w.frames p j, true⟩
  table_usable : ∀ p j r, w.held (p, .table j) = some r → usable L r.frame
  table_inj : ∀ p j q j' r r', w.held (p, .table j) = some r → w.held (q, .table j') = some r' →
    r.frame = r'.frame → p = q ∧ j = j'
  page_range : ∀ p i r, w.held (p, .page i) = some r → 256 ≤ i ∧ i < 1024
  page_frame : ∀ p i r, w.held (p, .page i) = some r →
    usable L r.frame ∨ r.frame = 0 ∧ r.writable = true
  home : ∀ p i q i' pn, w.held (p, .page i) = some ⟨pn, false⟩ →
    w.held (q, .page i') = some ⟨pn, false⟩ → i = i'
  kernel : ∀ pn, ¬ usable L pn → w.info pn = pageinfoInit L pn

/-- The part of `check_virtual_memory` that a ledger can fail: tables belong to their process alone,
and pages in use belong to a live process. -/
structure Checked (L : KernelLayout) (w : World) : Prop where
  tables : ∀ p, w.Live p → ∀ j, w.info (w.frames p j) = ⟨p, 1⟩
  owners : ∀ pn < nPages, 0 < (w.info pn).refcount → 0 ≤ (w.info pn).owner →
    w.Live (w.info pn).owner.toNat

section fields
variable (w : World) (p : ℕ) (s : Slot) (r : Option Ref) (pn : ℕ) (i : PageInfo) (st : ProcState)

@[simp] theorem hold_info : (w.hold p s r).info = w.info := rfl
@[simp] theorem hold_state : (w.hold p s r).state = w.state := rfl
@[simp] theorem hold_current : (w.hold p s r).current = w.current := rfl
@[simp] theorem hold_held : (w.hold p s r).held = Function.update w.held (p, s) r := rfl
@[simp] theorem setInfo_info : (w.setInfo pn i).info = Function.update w.info pn i := rfl
@[simp] theorem setInfo_held : (w.setInfo pn i).held = w.held := rfl
@[simp] theorem setInfo_state : (w.setInfo pn i).state = w.state := rfl
@[simp] theorem setInfo_current : (w.setInfo pn i).current = w.current := rfl
@[simp] theorem setState_info : (w.setState p st).info = w.info := rfl
@[simp] theorem setState_state : (w.setState p st).state = Function.update w.state p st := rfl
@[simp] theorem setState_held : (w.setState p st).held = w.held := rfl
@[simp] theorem setState_current : (w.setState p st).current = w.current := rfl
@[simp] theorem give_state : (w.give p s pn).state = w.state := rfl
@[simp] theorem give_current : (w.give p s pn).current = w.current := rfl
@[simp] theorem give_held :
    (w.give p s pn).held = Function.update w.held (p, s) (some ⟨pn, true⟩) := rfl
@[simp] theorem give_info : (w.give p s pn).info = Function.update w.info pn ⟨p, 1⟩ := rfl

end fields

end World

end WeensyOS
