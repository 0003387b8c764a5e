import Mathlib.Data.BitVec
import Mathlib.Tactic.Common

/-!
# Register files, trap frames and the return to user mode

A trap passes through three layouts: the words pushed by the processor and by the stubs of
`k-exception.S`, the fields of `x86_64_registers` through which the kernel reads them, and the pops
of `exception_return`. Each is written down here in the order of its source; that they agree is
`exceptionReturn_ofWords`.
-/

namespace WeensyOS

/-- The user-visible registers that a trap saves. -/
inductive Reg where
  | rax | rcx | rdx | rbx | rbp | rsi | rdi | r8 | r9 | r10 | r11 | r12 | r13 | r14 | r15
  | fs | gs | rip | cs | rflags | rsp | ss
  deriving DecidableEq, Repr

structure Cpu where
  rax : BitVec 64
  rcx : BitVec 64
  rdx : BitVec 64
  rbx : BitVec 64
  rbp : BitVec 64
  rsi : BitVec 64
  rdi : BitVec 64
  r8 : BitVec 64
  r9 : BitVec 64
  r10 : BitVec 64
  r11 : BitVec 64
  r12 : BitVec 64
  r13 : BitVec 64
  r14 : BitVec 64
  r15 : BitVec 64
  fs : BitVec 16
  gs : BitVec 16
  rip : BitVec 64
  cs : BitVec 16
  rflags : BitVec 64
  rsp : BitVec 64
  ss : BitVec 16
  deriving DecidableEq, Repr

/-- The word that pushing a register stores; segment selectors are zero-extended. -/
def Cpu.read (c : Cpu) : Reg → BitVec 64
  | .rax => c.rax | .rcx => c.rcx | .rdx => c.rdx | .rbx => c.rbx | .rbp => c.rbp
  | .rsi => c.rsi | .rdi => c.rdi | .r8 => c.r8 | .r9 => c.r9 | .r10 => c.r10 | .r11 => c.r11
  | .r12 => c.r12 | .r13 => c.r13 | .r14 => c.r14 | .r15 => c.r15
  | .fs => c.fs.setWidth 64 | .gs => c.gs.setWidth 64 | .rip => c.rip
  | .cs => c.cs.setWidth 64 | .rflags => c.rflags | .rsp => c.rsp | .ss => c.ss.setWidth 64

/-- Popping a word into a register; segment selectors take the low 16 bits. -/
def Cpu.load (c : Cpu) (r : Reg) (w : BitVec 64) : Cpu :=
  match r with
  | .rax => { c with rax := w } | .rcx => { c with rcx := w } | .rdx => { c with rdx := w }
  | .rbx => { c with rbx := w } | .rbp => { c with rbp := w } | .rsi => { c with rsi := w }
  | .rdi => { c with rdi := w } | .r8 => { c with r8 := w } | .r9 => { c with r9 := w }
  | .r10 => { c with r10 := w } | .r11 => { c with r11 := w } | .r12 => { c with r12 := w }
  | .r13 => { c with r13 := w } | .r14 => { c with r14 := w } | .r15 => { c with r15 := w }
  | .fs => { c with fs := w.setWidth 16 } | .gs => { c with gs := w.setWidth 16 }
  | .rip => { c with rip := w } | .cs => { c with cs := w.setWidth 16 }
  | .rflags => { c with rflags := w } | .rsp => { c with rsp := w }
  | .ss => { c with ss := w.setWidth 16 }

/-- The ways user code enters the kernel. `cr2` is the faulting address of a page fault; the
system call vectors are `INT_SYS + n`. -/
inductive Trap where
  | timer
  | pagefault (err : BitVec 64) (cr2 : ℕ)
  | gpf (err : BitVec 64)
  | syscall (n : Fin 16)
  deriving DecidableEq, Repr

namespace Trap

/-! The system calls that the kernel implements. -/

@[match_pattern] abbrev sysPanic : Trap := .syscall 0
@[match_pattern] abbrev getpid : Trap := .syscall 1
@[match_pattern] abbrev yield : Trap := .syscall 2
@[match_pattern] abbrev pageAlloc : Trap := .syscall 3
@[match_pattern] abbrev fork : Trap := .syscall 4
@[match_pattern] abbrev exit : Trap := .syscall 5
@[match_pattern] abbrev mapping : Trap := .syscall 6
@[match_pattern] abbrev memTog : Trap := .syscall 8

end Trap

/-- The vector that the stub of each trap pushes. -/
def Trap.intno : Trap → ℕ
  | .timer => 32
  | .pagefault _ _ => 14
  | .gpf _ => 13
  | .syscall n => 48 + n

/-- The error code below the vector: pushed by the processor for faults, zero otherwise. -/
def Trap.err : Trap → BitVec 64
  | .pagefault err _ => err
  | .gpf err => err
  | _ => 0

def Trap.cr2 : Trap → ℕ
  | .pagefault _ cr2 => cr2
  | _ => 0

/-- What the processor pushes when it leaves user mode, in order. -/
def hardwarePushes : List Reg := [.ss, .rsp, .rflags, .cs, .rip]

/-- The pushes of `generic_exception_handler`, in order. -/
def genericExceptionHandler : List Reg :=
  [.gs, .fs, .r15, .r14, .r13, .r12, .r11, .r10, .r9, .r8, .rdi, .rsi, .rbp, .rbx, .rdx, .rcx,
    .rax]

/-- The kernel stack at the call of `exception`, from the stack pointer upwards. -/
def trapFrame (c : Cpu) (t : Trap) : List (BitVec 64) :=
  (hardwarePushes.map c.read ++ [t.err, BitVec.ofNat 64 t.intno] ++
    genericExceptionHandler.map c.read).reverse

/-- `struct x86_64_registers`. -/
structure Registers where
  regRax : BitVec 64
  regRcx : BitVec 64
  regRdx : BitVec 64
  regRbx : BitVec 64
  regRbp : BitVec 64
  regRsi : BitVec 64
  regRdi : BitVec 64
  regR8 : BitVec 64
  regR9 : BitVec 64
  regR10 : BitVec 64
  regR11 : BitVec 64
  regR12 : BitVec 64
  regR13 : BitVec 64
  regR14 : BitVec 64
  regR15 : BitVec 64
  regFs : BitVec 64
  regGs : BitVec 64
  regIntno : BitVec 64
  regErr : BitVec 64
  regRip : BitVec 64
  regCs : BitVec 16
  regPadding2 : BitVec 48
  regRflags : BitVec 64
  regRsp : BitVec 64
  regSs : BitVec 16
  regPadding3 : BitVec 48
  deriving DecidableEq, Repr

/-- Reading the frame at the stack pointer as a `struct x86_64_registers`. -/
def Registers.ofWords (ws : List (BitVec 64)) : Registers where
  regRax := ws.getD 0 0
  regRcx := ws.getD 1 0
  regRdx := ws.getD 2 0
  regRbx := ws.getD 3 0
  regRbp := ws.getD 4 0
  regRsi := ws.getD 5 0
  regRdi := ws.getD 6 0
  regR8 := ws.getD 7 0
  regR9 := ws.getD 8 0
  regR10 := ws.getD 9 0
  regR11 := ws.getD 10 0
  regR12 := ws.getD 11 0
  regR13 := ws.getD 12 0
  regR14 := ws.getD 13 0
  regR15 := ws.getD 14 0
  regFs := ws.getD 15 0
  regGs := ws.getD 16 0
  regIntno := ws.getD 17 0
  regErr := ws.getD 18 0
  regRip := ws.getD 19 0
  regCs := (ws.getD 20 0).setWidth 16
  regPadding2 := (ws.getD 20 0).extractLsb' 16 48
  regRflags := ws.getD 21 0
  regRsp := ws.getD 22 0
  regSs := (ws.getD 23 0).setWidth 16
  regPadding3 := (ws.getD 23 0).extractLsb' 16 48

def Registers.toWords (r : Registers) : List (BitVec 64) :=
  [r.regRax, r.regRcx, r.regRdx, r.regRbx, r.regRbp, r.regRsi, r.regRdi, r.regR8, r.regR9,
    r.regR10, r.regR11, r.regR12, r.regR13, r.regR14, r.regR15, r.regFs, r.regGs,
    r.regIntno, r.regErr, r.regRip, r.regPadding2 ++ r.regCs, r.regRflags, r.regRsp,
    r.regPadding3 ++ r.regSs]

def popRegs : List Reg → Cpu → List (BitVec 64) → Cpu × List (BitVec 64)
  | [], c, ws => (c, ws)
  | r :: rs, c, ws => popRegs rs (c.load r (ws.headD 0)) ws.tail

/-- The pops of `exception_return` before `addq $16, %rsp`, in order. -/
def exceptionReturnPops : List Reg :=
  [.rax, .rcx, .rdx, .rbx, .rbp, .rsi, .rdi, .r8, .r9, .r10, .r11, .r12, .r13, .r14, .r15, .fs,
    .gs]

/-- What `iretq` pops, in order. -/
def iretq : List Reg := [.rip, .cs, .rflags, .rsp, .ss]

def Cpu.zero : Cpu := ⟨0, 0, 0, 0, 0, 0, 0, 0, 0, 0, 0, 0, 0, 0, 0, 0, 0, 0, 0, 0, 0, 0⟩

def exceptionReturn (r : Registers) : Cpu :=
  let (c, ws) := popRegs exceptionReturnPops Cpu.zero r.toWords
  (popRegs iretq c (ws.drop 2)).1

/-- The register file that `exception_return` loads, field by field. -/
theorem exceptionReturn_eq (r : Registers) :
    exceptionReturn r =
      { rax := r.regRax, rcx := r.regRcx, rdx := r.regRdx, rbx := r.regRbx, rbp := r.regRbp,
        rsi := r.regRsi, rdi := r.regRdi, r8 := r.regR8, r9 := r.regR9, r10 := r.regR10,
        r11 := r.regR11, r12 := r.regR12, r13 := r.regR13, r14 := r.regR14, r15 := r.regR15,
        fs := r.regFs.setWidth 16, gs := r.regGs.setWidth 16, rip := r.regRip,
        cs := (r.regPadding2 ++ r.regCs).setWidth 16, rflags := r.regRflags, rsp := r.regRsp,
        ss := (r.regPadding3 ++ r.regSs).setWidth 16 } := rfl

theorem setWidth_append_low (hi : BitVec 48) (lo : BitVec 16) :
    BitVec.setWidth 16 (hi ++ lo) = lo := by
  ext i hlt
  rw [BitVec.getElem_setWidth, BitVec.getLsbD_append]
  simp [hlt]

/-- Pushes, structure fields and pops agree: an unmodified frame restores every register. -/
theorem exceptionReturn_ofWords (c : Cpu) (t : Trap) :
    exceptionReturn (Registers.ofWords (trapFrame c t)) = c := by
  rw [exceptionReturn_eq]
  cases c
  simp only [Registers.ofWords, trapFrame, hardwarePushes, genericExceptionHandler, List.map_cons,
    List.map_nil, Cpu.read]
  simp [setWidth_append_low]

theorem intno_ofWords (c : Cpu) (t : Trap) :
    (Registers.ofWords (trapFrame c t)).regIntno.toNat = t.intno := by
  cases t with
  | syscall n =>
      have hn := n.isLt
      change (BitVec.ofNat 64 (48 + n)).toNat = 48 + n
      rw [BitVec.toNat_ofNat]
      omega
  | _ => rfl

theorem err_ofWords (c : Cpu) (t : Trap) :
    (Registers.ofWords (trapFrame c t)).regErr = t.err := rfl

theorem exceptionReturn_setRax (r : Registers) (v : BitVec 64) :
    exceptionReturn { r with regRax := v } = { exceptionReturn r with rax := v } := rfl

end WeensyOS
