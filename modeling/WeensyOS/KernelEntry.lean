import WeensyOS.Descriptors
import WeensyOS.SystemRuns

/-!
# The ways into the kernel

`segments_init` builds the descriptor tables, and k-exception.S the handlers that they lead to. With
the rules by which the processor takes an interrupt this gives what the kernel finds on its stack
when a process executes `int`, causes an exception or is interrupted. The traps of `Trap` are all
that comes of it, except for exceptions that reset the machine. All this happens in user mode, since
no run ever resumes a process in another.
-/

namespace WeensyOS
open ByteMemory Runs

/-- The handlers of k-exception.S. -/
inductive Handler where
  | default
  | gpf
  | pagefault
  | timer
  | sys (n : Fin 16)
  deriving DecidableEq

/-- What the handler pushes before it jumps to `generic_exception_handler`. -/
def Handler.pushes : Handler → List (BitVec 64)
  | .default => [0]
  | .gpf => [13]
  | .pagefault => [14]
  | .timer => [0, 32]
  | .sys n => [0, BitVec.ofNat 64 (48 + n)]

def handlers : List Handler :=
  [.gpf, .pagefault, .timer] ++ (List.finRange 16).map .sys ++ [.default]

/-- Where the linker puts the handlers and `kernel_task_descriptor`. -/
structure EntryLayout where
  address : Handler → BitVec 64
  kernelTaskDescriptor : BitVec 64
  injective : Function.Injective address

/-! The tables. -/

@[simp] abbrev x86segX : BitVec 64 := 0x8#64 <<< 40
@[simp] abbrev x86segW : BitVec 64 := 0x2#64 <<< 40
@[simp] abbrev x86segS : BitVec 64 := 1#64 <<< 44
@[simp] abbrev x86segL : BitVec 64 := 1#64 <<< 53

def setAppSegment (type : BitVec 64) (dpl : BitVec 32) : BitVec 64 :=
  type ||| x86segS ||| (dpl.signExtend 64 <<< 45) ||| x86segP

/-- `segments`: kernel code, application code, kernel data, application data and the task state. -/
def segments (L : EntryLayout) : List (BitVec 64) :=
  let tss := setSysSegment SystemType.tss.word 0 L.kernelTaskDescriptor 96
  [0, setAppSegment (x86segX ||| x86segL) 0, setAppSegment (x86segX ||| x86segL) 3,
    setAppSegment x86segW 0, setAppSegment x86segW 3, tss.1, tss.2]

/-- `kernel_task_descriptor`, with the kernel stack in `ts_rsp[0]`. -/
def taskState (L : EntryLayout) (m : Memory) : Memory :=
  let addr := L.kernelTaskDescriptor.toNat
  storeLE (memset m addr 0 96) (addr + 4) kernelStackTop 8

abbrev GateTable := ℕ → BitVec 64 × BitVec 64

/-- A loop over `set_gate` with `n` rounds left from `i` on. -/
def setGates (dpl : BitVec 32) (function : ℕ → BitVec 64) : ℕ → ℕ → GateTable → GateTable
  | 0, _, gates => gates
  | n + 1, i, gates => setGates dpl function n (i + 1)
      (Function.update gates i (setGate SystemType.interrupt.word dpl (function i)))

/-- The array `sys_int_handlers`. -/
def sysIntHandlers (L : EntryLayout) : List (BitVec 64) :=
  (List.finRange 16).map fun n => L.address (.sys n)

def interruptDescriptors (L : EntryLayout) : GateTable :=
  let gates := setGates 0 (fun _ => L.address .default) 240 16 fun _ => (0, 0)
  let gates := Function.update gates 32 (setGate SystemType.interrupt.word 0 (L.address .timer))
  let gates := Function.update gates 13 (setGate SystemType.interrupt.word 0 (L.address .gpf))
  let gates := Function.update gates 14 (setGate SystemType.interrupt.word 0 (L.address .pagefault))
  setGates 3 (fun i => (sysIntHandlers L).getD (i - 48) 0) 16 48 gates

/-! The processor. -/

/-- What `lgdt`, `ltr` and `lidt` load, and the memory that holds the task state. -/
structure DescriptorTables where
  gdt : List (BitVec 64)
  tr : BitVec 16
  idt : GateTable
  idtLimit : ℕ
  mem : Memory

def segmentsInit (L : EntryLayout) (m : Memory) : DescriptorTables where
  gdt := segments L
  tr := 0x28
  idt := interruptDescriptors L
  idtLimit := 4095
  mem := taskState L m

structure CodeSegment where
  code : Bool
  conforming : Bool
  long : Bool
  dpl : BitVec 2
  present : Bool

def decodeCodeSegment (w : BitVec 64) : CodeSegment where
  code := w.getLsbD 44 && w.getLsbD 43
  conforming := w.getLsbD 42
  long := w.getLsbD 53
  dpl := w.extractLsb' 45 2
  present := w.getLsbD 47

structure Fault where
  vector : ℕ
  err : Option (BitVec 64)

def Fault.protection (err : ℕ) : Fault := ⟨13, some (BitVec.ofNat 64 err)⟩

/-- How the processor has entered a handler: its address, the privilege level, the stack before
the pushes, the pushes and the interrupt flag. -/
structure Entry where
  address : BitVec 64
  privilege : BitVec 2
  stack : ℕ
  pushed : List (BitVec 64)
  interrupts : Bool

def Cpu.privilege (c : Cpu) : BitVec 2 := c.cs.setWidth 2

/-- A word of the task state. -/
def DescriptorTables.taskWord (T : DescriptorTables) (offset : ℕ) : Option ℕ :=
  let i := T.tr.toNat / 8
  let tss := decodeSysSegment (T.gdt.getD i 0, T.gdt.getD (i + 1) 0)
  if offset + 7 ≤ tss.limit.toNat then some (loadLE T.mem (tss.base.toNat + offset) 8) else none

/-- From the code segment of a gate on. `ist` can name a stack, and `ext` is the lowest bit of an
error code. -/
def DescriptorTables.enterGate (T : DescriptorTables) (c : Cpu) (gate : Gate) (ist : BitVec 3)
    (ext : ℕ) (err : Option (BitVec 64)) : Except Fault Entry :=
  let i := gate.selector.toNat / 8
  let seg := decodeCodeSegment (T.gdt.getD i 0)
  if i = 0 then .error (.protection ext)
  else if T.gdt.length ≤ i ∨ ¬ seg.code ∨ ¬ seg.long ∨ c.privilege < seg.dpl then
    .error (.protection (i * 8 + ext))
  else if ¬ seg.present then .error ⟨11, some (BitVec.ofNat 64 (i * 8 + ext))⟩
  else
    let inner := !seg.conforming && decide (seg.dpl < c.privilege)
    let stack :=
      if ist ≠ 0 then T.taskWord (28 + 8 * ist.toNat)
      else if inner then T.taskWord (4 + 8 * seg.dpl.toNat)
      else some c.rsp.toNat
    match stack with
    | none => .error ⟨10, some (BitVec.ofNat 64 (T.tr.toNat / 8 * 8 + ext))⟩
    | some rsp => .ok
        { address := gate.offset
          privilege := if inner then seg.dpl else c.privilege
          stack := rsp / 16 * 16
          pushed := hardwarePushes.map c.read ++ err.toList
          interrupts := gate.type = SystemType.trap.bits && c.rflags.getLsbD 9 }

/-- The processor at vector `v`. An `int` instruction needs the privilege that the gate asks for. -/
def DescriptorTables.enter (T : DescriptorTables) (c : Cpu) (v : ℕ) (instruction : Bool)
    (err : Option (BitVec 64)) : Except Fault Entry :=
  let ext := if instruction then 0 else 1
  let gate := decodeGate (T.idt v)
  if T.idtLimit < v * 16 + 15 ∨
      gate.type ≠ SystemType.interrupt.bits ∧ gate.type ≠ SystemType.trap.bits then
    .error (.protection (v * 8 + 2 + ext))
  else if instruction = true ∧ gate.dpl < c.privilege then .error (.protection (v * 8 + 2))
  else if ¬ gate.present then .error ⟨11, some (BitVec.ofNat 64 (v * 8 + 2 + ext))⟩
  else T.enterGate c gate ((T.idt v).1.extractLsb' 32 3) ext err

/-- Why the processor leaves user code. -/
inductive Cause where
  /-- The instruction `int v`. -/
  | int (v : ℕ)
  /-- From the interrupt controller. -/
  | interrupt (v : ℕ)
  /-- An exception of the instruction that runs. -/
  | fault (f : Fault)

/-- Exceptions that do not turn the next exception into a double fault. -/
def Cause.benign : Cause → Bool
  | .fault f => f.vector ∉ [0, 10, 11, 12, 13, 14]
  | _ => true

def DescriptorTables.enterCause (T : DescriptorTables) (c : Cpu) : Cause → Except Fault Entry
  | .int v => T.enter c v true none
  | .interrupt v => T.enter c v false none
  | .fault f => T.enter c f.vector false f.err

/-- `none` is a double fault that finds no handler, which resets the machine. -/
def DescriptorTables.deliver (T : DescriptorTables) (c : Cpu) (cause : Cause) : Option Entry :=
  let doubleFault := (T.enter c 8 false (some 0)).toOption
  match T.enterCause c cause with
  | .ok e => some e
  | .error f =>
    if cause.benign then
      match T.enter c f.vector false f.err with
      | .ok e => some e
      | .error _ => doubleFault
    else doubleFault

/-- The call of `exception`: the stack pointer and the words from there upwards, the privilege
level and the interrupt flag. -/
structure Call where
  rsp : ℕ
  words : List (BitVec 64)
  privilege : BitVec 2
  interrupts : Bool

def handlerAt (L : EntryLayout) (address : BitVec 64) : Option Handler :=
  handlers.find? fun h => L.address h = address

/-- From user code with the registers `c` to the call of `exception`. -/
def kernelEntry (L : EntryLayout) (m : Memory) (c : Cpu) (cause : Cause) : Option Call := do
  let e ← (segmentsInit L m).deliver c cause
  let h ← handlerAt L e.address
  let pushed := e.pushed ++ h.pushes ++ genericExceptionHandler.map c.read
  some ⟨e.stack - 8 * pushed.length, pushed.reverse, e.privilege, e.interrupts⟩

/-! What the tables hold. -/

theorem setGates_apply (dpl : BitVec 32) (function : ℕ → BitVec 64) (n i : ℕ) (gates : GateTable)
    (v : ℕ) : setGates dpl function n i gates v =
      if i ≤ v ∧ v < i + n then setGate SystemType.interrupt.word dpl (function v)
      else gates v := by
  induction n generalizing i gates with
  | zero => exact (if_neg (by omega)).symm
  | succ n ih =>
      rw [setGates, ih]
      by_cases hv : v = i
      · rw [hv, if_neg (by omega), if_pos (by omega), Function.update_self]
      · rw [Function.update_of_ne hv]
        exact if_congr (by omega) rfl rfl

section tables
variable (L : EntryLayout) {m : Memory} {c : Cpu} {v : ℕ}

theorem gate_sys (n : Fin 16) : interruptDescriptors L (48 + n) =
    setGate SystemType.interrupt.word 3 (L.address (.sys n)) := by
  have hn := n.isLt
  have hfun : (sysIntHandlers L).getD (48 + n - 48) 0 = L.address (.sys n) := by
    rw [Nat.add_sub_cancel_left, sysIntHandlers, List.getD_eq_getElem _ _ (by simp)]
    simp
  rw [interruptDescriptors, setGates_apply, if_pos (by omega), hfun]

/-- The handler of each vector that is not a system call. -/
theorem gate_of_not_sys (hv : ¬ (48 ≤ v ∧ v < 64)) : interruptDescriptors L v =
    if v = 14 then setGate SystemType.interrupt.word 0 (L.address .pagefault)
    else if v = 13 then setGate SystemType.interrupt.word 0 (L.address .gpf)
    else if v = 32 then setGate SystemType.interrupt.word 0 (L.address .timer)
    else if 16 ≤ v ∧ v < 256 then setGate SystemType.interrupt.word 0 (L.address .default)
    else (0, 0) := by
  rw [interruptDescriptors, setGates_apply, if_neg hv]
  simp only [Function.update_apply, setGates_apply]

theorem taskWord_stack : (segmentsInit L m).taskWord 4 = some kernelStackTop := by
  have htr : (segmentsInit L m).tr = 0x28#16 := rfl
  have hi : (0x28#16).toNat / 8 = 5 := by decide
  have hlow : (segments L).getD 5 0 =
    (setSysSegment SystemType.tss.word 0 L.kernelTaskDescriptor 96).1 := rfl
  have hhigh : (segments L).getD 6 0 =
    (setSysSegment SystemType.tss.word 0 L.kernelTaskDescriptor 96).2 := rfl
  have hgdt : (segmentsInit L m).gdt = segments L := rfl
  have hmem : (segmentsInit L m).mem = taskState L m := rfl
  unfold DescriptorTables.taskWord
  simp only [htr, hi, hgdt, hmem, Nat.reduceAdd, hlow, hhigh, Prod.mk.eta]
  rw [decodeSysSegment_set .tss (by decide)]
  dsimp only
  rw [if_pos (by decide), taskState, loadLE_storeLE_same]
  rfl

theorem ist_setGate (t : SystemType) {dpl : BitVec 32} (hd : dpl < 4) (function : BitVec 64) :
    (setGate t.word dpl function).1.extractLsb' 32 3 = 0 := by
  apply BitVec.eq_of_getLsbD_eq
  intro i hi
  rw [BitVec.getLsbD_extractLsb', setGate_bit t hd function (by omega)]
  grind

/-- A gate to the kernel's code segment, entered from user mode. -/
theorem enterGate_kernel (hc : c.privilege = 3) (address : BitVec 64) (dpl : BitVec 2) (ext : ℕ)
    (err : Option (BitVec 64)) :
    (segmentsInit L m).enterGate c
      ⟨address, segselKernCode.setWidth 16, SystemType.interrupt.bits, dpl, true⟩ 0 ext err =
      .ok ⟨address, 0, kernelStackTop, hardwarePushes.map c.read ++ err.toList, false⟩ := by
  have hi : (segselKernCode.setWidth 16).toNat / 8 = 1 := by decide
  have hseg : (segments L).getD 1 0 = setAppSegment (x86segX ||| x86segL) 0 := rfl
  have hcode : decodeCodeSegment (setAppSegment (x86segX ||| x86segL) 0) =
      ⟨true, false, true, 0, true⟩ := by
    unfold decodeCodeSegment
    rw [CodeSegment.mk.injEq]
    decide
  have hgdt : (segmentsInit L m).gdt = segments L := rfl
  have hlength : (segments L).length = 7 := rfl
  have hstack : (segmentsInit L m).taskWord (4 + 8 * (0 : BitVec 2).toNat) = some kernelStackTop :=
    taskWord_stack L
  unfold DescriptorTables.enterGate
  simp only [hi, hgdt, hseg, hcode, hlength, hc]
  rw [if_neg (by norm_num), if_neg (by decide), if_neg (by decide), if_neg (by decide),
    if_pos (by decide), hstack]
  rfl

/-- A vector whose gate leads to the handler at `address`. -/
theorem enter_gate (hc : c.privilege = 3) {dpl : BitVec 32} (hd : dpl < 4) {address : BitVec 64}
    (hgate : interruptDescriptors L v = setGate SystemType.interrupt.word dpl address)
    (hv : v < 256) {instruction : Bool} (hint : instruction = true → dpl = 3)
    (err : Option (BitVec 64)) : (segmentsInit L m).enter c v instruction err =
      .ok ⟨address, 0, kernelStackTop, hardwarePushes.map c.read ++ err.toList, false⟩ := by
  have hidt : (segmentsInit L m).idt v = setGate SystemType.interrupt.word dpl address := hgate
  have hlimit : (segmentsInit L m).idtLimit = 4095 := rfl
  have hallowed : ¬ (instruction = true ∧ dpl.setWidth 2 < c.privilege) := by
    rintro ⟨hi, hlt⟩
    rw [hint hi, hc] at hlt
    exact absurd hlt (by decide)
  unfold DescriptorTables.enter
  simp only [hidt, hlimit]
  rw [decodeGate_set .interrupt hd, ist_setGate .interrupt hd]
  dsimp only
  rw [if_neg (by simp; omega), if_neg hallowed, if_neg (by decide), enterGate_kernel L hc]

/-- `int` on a gate that is not for users. -/
theorem enter_denied (hc : c.privilege = 3) {address : BitVec 64}
    (hgate : interruptDescriptors L v = setGate SystemType.interrupt.word 0 address)
    (err : Option (BitVec 64)) :
    (segmentsInit L m).enter c v true err = .error (.protection (v * 8 + 2)) := by
  have hidt : (segmentsInit L m).idt v = setGate SystemType.interrupt.word 0 address := hgate
  unfold DescriptorTables.enter
  simp only [hidt]
  rw [decodeGate_set .interrupt (by decide), hc]
  dsimp only
  have hdenied : (0 : BitVec 32).setWidth 2 < (3 : BitVec 2) := by decide
  simp only [hdenied, and_self, if_true, Nat.add_zero, ite_self]

/-- A vector without a gate. -/
theorem enter_missing (hgate : interruptDescriptors L v = (0, 0)) (instruction : Bool)
    (err : Option (BitVec 64)) : (segmentsInit L m).enter c v instruction err =
      .error (.protection (v * 8 + 2 + if instruction then 0 else 1)) := by
  have hidt : (segmentsInit L m).idt v = (0, 0) := hgate
  have hdecode : (decodeGate (0, 0)).type ≠ SystemType.interrupt.bits ∧
      (decodeGate (0, 0)).type ≠ SystemType.trap.bits := by decide
  unfold DescriptorTables.enter
  simp only [hidt]
  rw [if_pos (.inr hdecode)]

theorem handlerAt_address (h : Handler) : handlerAt L (L.address h) = some h := by
  have heq : (fun h' => decide (L.address h' = L.address h)) = fun h' => decide (h' = h) := by
    funext h'
    exact decide_eq_decide.mpr L.injective.eq_iff
  have hsys : ∀ n, handlers.find? (fun h' => decide (h' = .sys n)) = some (.sys n) := by decide
  rw [handlerAt, heq]
  cases h with
  | sys n => exact hsys n
  | _ => rfl

end tables

/-! The ways in. -/

/-- The call of `exception` for the trap `t`, on the kernel's stack. -/
def trapCall (c : Cpu) (t : Trap) : Call := ⟨kernelStackTop - 192, trapFrame c t, 0, false⟩

section entry
variable (L : EntryLayout) {m : Memory} {c : Cpu} {cause : Cause} {err : Option (BitVec 64)}

/-- The entry of the handler `h`. -/
def handlerEntry (c : Cpu) (h : Handler) (err : Option (BitVec 64)) : Entry :=
  ⟨L.address h, 0, kernelStackTop, hardwarePushes.map c.read ++ err.toList, false⟩

theorem kernelEntry_trap {h : Handler} {t : Trap}
    (hdeliver : (segmentsInit L m).deliver c cause = some (handlerEntry L c h err))
    (hpush : err.toList ++ h.pushes = [t.err, BitVec.ofNat 64 t.intno]) :
    kernelEntry L m c cause = some (trapCall c t) := by
  have hframe : (hardwarePushes.map c.read ++ err.toList ++ h.pushes ++
      genericExceptionHandler.map c.read).reverse = trapFrame c t := by
    rw [List.append_assoc (hardwarePushes.map c.read), hpush, trapFrame]
  have hlength : (hardwarePushes.map c.read ++ err.toList ++ h.pushes ++
      genericExceptionHandler.map c.read).length = 24 := by
    rw [← List.length_reverse, hframe, trapFrame]
    rfl
  rw [kernelEntry, hdeliver]
  simp only [Option.bind_eq_bind, Option.bind_some, handlerEntry, handlerAt_address, hlength,
    hframe]
  rfl

theorem deliver_ok {e : Entry} (h : (segmentsInit L m).enterCause c cause = .ok e) :
    (segmentsInit L m).deliver c cause = some e := by
  rw [DescriptorTables.deliver, h]

theorem gate_gpf : interruptDescriptors L 13 =
    setGate SystemType.interrupt.word 0 (L.address .gpf) :=
  gate_of_not_sys L (by norm_num)

/-- A protection fault on the way to a handler goes to the kernel, but not as a second fault. -/
theorem deliver_protection (hc : c.privilege = 3) {e : ℕ}
    (h : (segmentsInit L m).enterCause c cause = .error (.protection e)) :
    (segmentsInit L m).deliver c cause =
      if cause.benign then some (handlerEntry L c .gpf (some (BitVec.ofNat 64 e))) else none := by
  have hdouble : interruptDescriptors L 8 = (0, 0) := gate_of_not_sys L (by norm_num)
  have hgpf : (segmentsInit L m).enter c 13 false (some (BitVec.ofNat 64 e)) =
      .ok (handlerEntry L c .gpf (some (BitVec.ofNat 64 e))) :=
    enter_gate L hc (by decide) (gate_gpf L) (by norm_num) (fun hf => by cases hf) _
  rw [DescriptorTables.deliver, h]
  dsimp only [Fault.protection]
  rw [hgpf, enter_missing L hdouble]
  rfl

theorem kernelEntry_gpf (hc : c.privilege = 3) (hbenign : cause.benign = true) {e : ℕ}
    (h : (segmentsInit L m).enterCause c cause = .error (.protection e)) :
    kernelEntry L m c cause = some (trapCall c (.gpf (BitVec.ofNat 64 e))) := by
  refine kernelEntry_trap L ((deliver_protection L hc h).trans (if_pos hbenign)) rfl

theorem enterCause_missing {v : ℕ} (hv : v < 13) (err : Option (BitVec 64)) :
    (segmentsInit L m).enterCause c (.fault ⟨v, err⟩) = .error (.protection (v * 8 + 3)) := by
  have hgate : interruptDescriptors L v = (0, 0) := by
    rw [gate_of_not_sys L (by omega), if_neg (by omega), if_neg (by omega), if_neg (by omega),
      if_neg (by omega)]
  exact enter_missing L hgate false err

theorem kernelEntry_int (hc : c.privilege = 3) {v : ℕ} (hv : v < 256) :
    kernelEntry L m c (.int v) = some (trapCall c
      (if h : 48 ≤ v ∧ v < 64 then .syscall ⟨v - 48, by omega⟩
        else .gpf (BitVec.ofNat 64 (v * 8 + 2)))) := by
  split_ifs with hsys
  · obtain ⟨n, rfl⟩ : ∃ n : Fin 16, v = 48 + n := ⟨⟨v - 48, by omega⟩, by simp only; omega⟩
    have hn : (⟨48 + n - 48, by omega⟩ : Fin 16) = n := Fin.ext (Nat.add_sub_cancel_left ..)
    have hok : (segmentsInit L m).enterCause c (.int (48 + n)) =
        .ok (handlerEntry L c (.sys n) none) :=
      enter_gate L hc (by decide) (gate_sys L n) hv (fun _ => rfl) none
    rw [hn]
    exact kernelEntry_trap L (deliver_ok L hok) rfl
  · refine kernelEntry_gpf L hc rfl ?_
    have hgate := gate_of_not_sys L hsys
    split_ifs at hgate
    · exact enter_denied L hc hgate none
    · exact enter_denied L hc hgate none
    · exact enter_denied L hc hgate none
    · exact enter_denied L hc hgate none
    · exact enter_missing L hgate true none

theorem mem_handlers (h : Handler) : h ∈ handlers := by
  cases h with
  | sys n =>
      revert n
      decide
  | _ => decide

/-- Sixteen bytes for each handler. -/
def sampleAddress (h : Handler) : BitVec 64 := BitVec.ofNat 64 (0x40100 + 16 * handlers.idxOf h)

def sampleEntryLayout : EntryLayout where
  address := sampleAddress
  kernelTaskDescriptor := 0x52000
  injective h h' :=
    (by decide : ∀ h ∈ handlers, ∀ h' ∈ handlers, sampleAddress h = sampleAddress h' → h = h')
      h (mem_handlers h) h' (mem_handlers h')

/-- `default_int_handler` pushes no error code, so `exception` would read every field behind the
interrupt number one word too low. -/
theorem kernelEntry_default (hc : c.privilege = 3) {v : ℕ} (hlo : 16 ≤ v) (hhi : v < 256)
    (htimer : v ≠ 32) (hsys : ¬ (48 ≤ v ∧ v < 64)) : ∃ call,
      kernelEntry L m c (.interrupt v) = some call ∧ call.rsp = kernelStackTop - 184 ∧
      (Registers.ofWords call.words).regIntno = 0 ∧
      (Registers.ofWords call.words).regErr = c.rip ∧
      (Registers.ofWords call.words).regRip = c.cs.setWidth 64 := by
  have hgate := gate_of_not_sys L hsys
  rw [if_neg (by omega), if_neg (by omega), if_neg htimer, if_pos ⟨hlo, hhi⟩] at hgate
  have hok : (segmentsInit L m).enterCause c (.interrupt v) =
      .ok (handlerEntry L c .default none) :=
    enter_gate L hc (by decide) hgate hhi (fun hf => by cases hf) none
  rw [kernelEntry, deliver_ok L hok]
  simp only [Option.bind_eq_bind, Option.bind_some, handlerEntry, handlerAt_address]
  exact ⟨_, rfl, rfl, rfl, rfl, rfl⟩

end entry

/-! User mode. -/

/-- What user code cannot change: its code segment, the interrupt flag and the I/O privilege. -/
def Cpu.mode (c : Cpu) : BitVec 16 × BitVec 64 := (c.cs, c.rflags &&& 0x3200)

/-- `SEGSEL_APP_CODE | 3`, with interrupts and without I/O. -/
def userMode : BitVec 16 × BitVec 64 := (0x13, 0x200)

/-- The steps of user code, which leaves the mode as it is. -/
def KeepsMode (M : Machine) : Event → Prop
  | .store _ _ => True
  | .trap cpu _ => cpu.mode = M.cpu.mode

def Proc.inUserMode (p : Proc) : Prop := (exceptionReturn p.registers).mode = userMode

section mode
variable {L : KernelLayout} {images : ℕ → ElfImage} {command : Option String} {M : Machine}

theorem inUserMode_setRax {p : Proc} {cpu : Cpu} {t : Trap} {v : BitVec 64}
    (hp : p.registers = { Registers.ofWords (trapFrame cpu t) with regRax := v })
    (hmode : cpu.mode = userMode) : p.inUserMode := by
  rw [Proc.inUserMode, hp, exceptionReturn_trapFrame]
  exact hmode

theorem exceptionReturn_mode (r : Registers) :
    (exceptionReturn r).mode = (r.regCs, r.regRflags &&& 0x3200) := by
  rw [exceptionReturn_eq, Cpu.mode, setWidth_append_low]

theorem processSetup_inUserMode {k k' : Kernel} {pid program : ℕ}
    (h : processSetup L images k pid program = .ok k') :
    ∃ p', p'.inUserMode ∧ k'.processes = Function.update k.processes pid p' := by
  unfold processSetup at h
  rw [bind_eq_ok] at h
  obtain ⟨⟨m, info, pt⟩, -, h⟩ := h
  rw [bind_eq_ok] at h
  obtain ⟨_, -, h⟩ := h
  rw [bind_eq_ok] at h
  obtain ⟨_, -, h⟩ := h
  rw [bind_eq_ok] at h
  obtain ⟨⟨s, ok⟩, -, h⟩ := h
  rw [bind_eq_ok] at h
  obtain ⟨_, -, h⟩ := h
  rw [bind_eq_ok] at h
  obtain ⟨⟨m', info', r⟩, -, h⟩ := h
  obtain rfl := Except.ok.inj h
  have hflags : (processInit 0).regRflags &&& 0x3200 = 0x200 := by decide
  refine ⟨_, ?_, rfl⟩
  rw [Proc.inUserMode, exceptionReturn_mode]
  exact Prod.ext rfl hflags

theorem processSetups_inUserMode {l : List (ℕ × ℕ)} {k k' : Kernel}
    (hk : ∀ p, k.Live p → (k.processes p).inUserMode)
    (h : l.foldlM (fun k s => processSetup L images k s.1 s.2) k = .ok k') :
    ∀ p, k'.Live p → (k'.processes p).inUserMode := by
  induction l generalizing k with
  | nil => exact Except.ok.inj h ▸ hk
  | cons s l ih =>
      rw [List.foldlM_cons, bind_eq_ok] at h
      obtain ⟨k₁, h₁, h⟩ := h
      obtain ⟨p', hp', hproc⟩ := processSetup_inUserMode h₁
      refine ih (fun p hlive => ?_) h
      rw [Kernel.Live, hproc] at hlive
      rw [hproc]
      by_cases hp : p = s.1
      · rw [hp, Function.update_self]
        exact hp'
      · rw [Function.update_of_ne hp] at hlive ⊢
        exact hk p hlive

theorem kernelMain_inUserMode {m : Memory} {k : Kernel}
    (h : kernelMain L images m command = .ok k) :
    ∀ p, k.Live p → (k.processes p).inUserMode := by
  unfold kernelMain at h
  rw [bind_eq_ok] at h
  obtain ⟨m₁, -, h⟩ := h
  rw [bind_eq_ok] at h
  obtain ⟨m₂, -, h⟩ := h
  rw [bind_eq_ok] at h
  obtain ⟨m₃, -, h⟩ := h
  rw [bind_eq_ok] at h
  obtain ⟨k₁, hsetup, h⟩ := h
  obtain ⟨-, rfl⟩ := run_inv h
  have hall : ∀ p, k₁.Live p → (k₁.processes p).inUserMode := by
    refine processSetups_inUserMode ?_ hsetup
    exact fun p hlive => absurd rfl hlive
  exact hall

theorem trap_inUserMode {k k' : Kernel} {cpu : Cpu} {t : Trap} {o : Outcome}
    (hk : ∀ p, k.Live p → (k.processes p).inUserMode) (hmode : cpu.mode = userMode)
    (heff : TrapEffect k (Registers.ofWords (trapFrame cpu t)) k' o) (ho : o ≠ .returned) :
    ∀ p, k'.Live p → (k'.processes p).inUserMode := by
  intro p hlive
  by_cases hp : p = k.current
  · rw [hp]
    exact inUserMode_setRax (heff.own ho) hmode
  · by_cases hlive' : k.Live p
    · rw [heff.other p hp hlive']
      exact hk p hlive'
    · exact inUserMode_setRax (heff.child p hlive' hlive) hmode

theorem cpu_mode {ok : Machine → Event → Prop} (h : Machine.Reach L images command ok M)
    (hres : M.outcome.resumed = true)
    (hall : ∀ p, M.kernel.Live p → (M.kernel.processes p).inUserMode) : M.cpu.mode = userMode := by
  have hrun := (reach_runOk h).runnable hres
  rw [reach_loaded h]
  refine hall M.kernel.current fun hfree => ?_
  rw [Kernel.currentProc, hfree] at hrun
  cases hrun

end mode

end WeensyOS
