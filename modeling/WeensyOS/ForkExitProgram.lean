import WeensyOS.AllocatorProgram

/-!
# Processes that come and go

p-forkexit.c: the first process forks now and then, for ever. Its children allocate pages, fork and
exit at random. What a process has allocated stays writable for it, and for its children; and the
first process never exits, so the pages that all share always have their owner.
-/

namespace WeensyOS.ForkExit
open ByteMemory World Runs UserProgram
open Allocator (stackAddr roundDown_stack)

/-- What `process_main` does next: the calls of its first loop, of the start of a child, of the
second loop and of the last one. -/
inductive Pc where
  | spawn
  | idle
  | getpid
  | alloc
  | touch
  | fork
  | renumber
  | exit
  | yield
  | lastExit
  | lastYield
  deriving DecidableEq, Repr

structure State where
  pc : Pc
  endAddr : ℕ
  rsp : ℕ
  p : BitVec 32
  rng : RandState
  heapTop : ℕ
  stackBottom : ℕ
  deriving DecidableEq, Repr

@[simp] abbrev allocSlowdown : ℕ := 100

def spin (s : State) : State :=
  let r := rand s.rng
  { s with rng := r.2, pc := if r.1 % allocSlowdown = 0 then .spawn else .idle }

def last (s : State) : State :=
  let r := rand s.rng
  { s with rng := r.2, pc := if r.1 % (2 * allocSlowdown) = 0 then .lastExit else .lastYield }

def loop (s : State) : State :=
  let r := rand s.rng
  let x : ℤ := (r.1 % (8 * allocSlowdown) : ℕ)
  if x < 8 * s.p.toInt then
    if s.heapTop = s.stackBottom then last { s with rng := r.2 }
    else { s with rng := r.2, pc := .alloc }
  else if x = 8 * s.p.toInt then { s with rng := r.2, pc := .fork }
  else if x = 8 * s.p.toInt + 1 then { s with rng := r.2, pc := .exit }
  else { s with rng := r.2, pc := .yield }

/-- The variables when the second loop starts; `p` is the result of `sys_getpid`. -/
def begin (s : State) (p : BitVec 32) : State :=
  { s with
    p := p, rng := srand p, heapTop := roundUp s.endAddr pageSize
    stackBottom := roundDown (s.rsp - 1) pageSize }

def resume (s : State) (v : BitVec 64) : State :=
  match s.pc with
  | .spawn => if v.setWidth 32 = 0 then { s with pc := .getpid } else spin s
  | .idle => spin s
  | .getpid => loop (begin s (v.setWidth 32))
  | .alloc => if (v.setWidth 32).toInt < 0 then last s else { s with pc := .touch }
  | .touch => loop { s with heapTop := s.heapTop + pageSize }
  | .fork => if v.setWidth 32 = 0 then { s with pc := .renumber } else loop s
  | .renumber => loop { s with p := v.setWidth 32 }
  | .exit => s
  | .yield => loop s
  | .lastExit => s
  | .lastYield => last s

def act (s : State) : Act :=
  match s.pc with
  | .spawn => .fork
  | .idle => .yield
  | .getpid => .getpid
  | .alloc => .pageAlloc s.heapTop
  | .touch => .store s.heapTop (UInt8.ofNat s.p.toNat)
  | .fork => .fork
  | .renumber => .getpid
  | .exit => .exit
  | .yield => .yield
  | .lastExit => .exit
  | .lastYield => .yield

def heapStart (s : State) : ℕ := roundUp s.endAddr pageSize

/-- The compiler's own stores, and those to the console, stay below the heap or on the stack. -/
def own (s : State) (va : ℕ) : Bool :=
  va < heapStart s || roundDown (s.rsp - 1) pageSize ≤ va

def program : UserProgram State := ⟨act, resume, own⟩

def start (endAddr rsp : ℕ) : State := spin ⟨.idle, endAddr, rsp, 0, ⟨false, 0⟩, 0, 0⟩

/-- The second loop has not begun. -/
def Pc.early : Pc → Bool
  | .spawn => true
  | .idle => true
  | .getpid => true
  | _ => false

/-- The address up to which pages have been allocated. -/
def bound (s : State) : ℕ :=
  if s.pc.early then heapStart s
  else if s.pc = .touch then s.heapTop + pageSize
  else s.heapTop

/-- Memory between the end of the data and the stack is writable up to `top`, and empty above. -/
structure Heap (base top : ℕ) (memory : ℕ → Option Cell) : Prop where
  user : procStartAddr ≤ base
  above : base ≤ top
  below : top ≤ stackAddr
  aligned : top % pageSize = 0
  mapped : ∀ va, base ≤ va → va < top → ∃ b, memory va = some ⟨true, b⟩
  free : ∀ va, top ≤ va → va < stackAddr → memory va = none

/-- The variables of `process_main`, once they are set. -/
structure Ready (p : ℕ) (s : State) : Prop where
  stack : s.stackBottom = stackAddr
  above : heapStart s ≤ s.heapTop
  pid : s.pc ≠ .renumber → s.p = BitVec.ofNat 32 p

/-- The heap is sound, and the processes in `home` stay in the first loop. -/
structure Inv (home : List ℕ) (p : ℕ) (s : State) (memory : ℕ → Option Cell) : Prop where
  rsp : stackAddr < s.rsp ∧ s.rsp ≤ memsizeVirtual
  heap : Heap (heapStart s) (bound s) memory
  ready : s.pc.early = false → Ready p s
  room : s.pc = .alloc → s.heapTop < stackAddr
  child : s.pc ≠ .spawn → s.pc ≠ .idle → p ∉ home

namespace Heap

variable {base top : ℕ} {memory m : ℕ → Option Cell} {x : Process}

/-- Memory that changes only outside the heap. -/
theorem congr (h : Heap base top memory) (hm : ∀ va, base ≤ va → va < stackAddr → m va = memory va) :
    Heap base top m := by
  refine ⟨h.user, h.above, h.below, h.aligned, fun va hlo hhi => ?_, fun va hlo hhi => ?_⟩
  · rw [hm va hlo (hhi.trans_le h.below)]
    exact h.mapped va hlo hhi
  · rw [hm va (h.above.trans hlo) hhi]
    exact h.free va hlo hhi

theorem store (h : Heap base top x.memory) {va : ℕ} (b : UInt8) (hhi : va < top) :
    Heap base top (x.store va b).memory := by
  refine ⟨h.user, h.above, h.below, h.aligned, fun a ha ha' => ?_, fun a ha ha' => ?_⟩
  · by_cases heq : a = va
    · exact ⟨b, by rw [heq]; exact Function.update_self ..⟩
    · obtain ⟨d, hd⟩ := h.mapped a ha ha'
      exact ⟨d, (Function.update_of_ne heq _ _).trans hd⟩
  · exact (Function.update_of_ne (by omega) _ _).trans (h.free a ha ha')

theorem addPage (h : Heap base top x.memory) (contents : ℕ → UInt8) (hroom : top < stackAddr) :
    Heap base (top + pageSize) (x.addPage top contents).memory := by
  have halign := h.aligned
  have habove := h.above
  simp only [stackAddr, memsizeVirtual, pageSize, Nat.reduceSub] at hroom halign
  refine ⟨h.user, habove.trans (Nat.le_add_right _ _), ?_, ?_, fun va hlo hhi => ?_,
    fun va hlo hhi => ?_⟩
  · simp only [stackAddr, memsizeVirtual, pageSize]
    omega
  · simp only [pageSize]
    omega
  · by_cases hin : va / pageSize = top / pageSize
    · exact ⟨contents va, if_pos hin⟩
    · obtain ⟨b, hb⟩ := h.mapped va hlo (by
        simp only [pageSize] at hin hhi
        omega)
      exact ⟨b, (if_neg hin).trans hb⟩
  · refine (if_neg ?_).trans (h.free va (by omega) hhi)
    simp only [pageSize] at hlo ⊢
    omega

end Heap

section loops
variable {home : List ℕ} {p : ℕ} {s : State} {memory : ℕ → Option Cell}

theorem spin_spec (s : State) : ∃ rng pc, spin s = { s with rng := rng, pc := pc } ∧
    (pc = .spawn ∨ pc = .idle) := by
  refine ⟨_, _, rfl, ?_⟩
  split_ifs
  · exact .inl rfl
  · exact .inr rfl

theorem last_spec (s : State) : ∃ rng pc, last s = { s with rng := rng, pc := pc } ∧
    (pc = .lastExit ∨ pc = .lastYield) := by
  refine ⟨_, _, rfl, ?_⟩
  split_ifs
  · exact .inl rfl
  · exact .inr rfl

theorem loop_spec (s : State) : ∃ rng pc, loop s = { s with rng := rng, pc := pc } ∧
    (pc = .alloc ∧ s.heapTop ≠ s.stackBottom ∨ pc = .fork ∨ pc = .exit ∨ pc = .yield ∨
      pc = .lastExit ∨ pc = .lastYield) := by
  unfold loop
  dsimp only
  split_ifs with h1 h2
  · obtain ⟨rng, pc, heq, hpc⟩ := last_spec { s with rng := (rand s.rng).2 }
    exact ⟨rng, pc, heq, .inr (.inr (.inr (.inr hpc)))⟩
  · exact ⟨_, _, rfl, .inl ⟨rfl, h2⟩⟩
  · exact ⟨_, _, rfl, .inr (.inl rfl)⟩
  · exact ⟨_, _, rfl, .inr (.inr (.inl rfl))⟩
  · exact ⟨_, _, rfl, .inr (.inr (.inr (.inl rfl)))⟩

/-- The first loop does not touch the heap. -/
theorem Inv.spin (h : Inv home p s memory) (hpc : s.pc.early = true) :
    Inv home p (spin s) memory := by
  obtain ⟨rng, pc, heq, hspin⟩ := spin_spec s
  have hheap := h.heap
  rw [bound, if_pos hpc] at hheap
  rw [heq]
  rcases hspin with rfl | rfl
  · exact ⟨h.rsp, hheap, nofun, nofun, fun hne => absurd rfl hne⟩
  · exact ⟨h.rsp, hheap, nofun, nofun, fun _ hne => absurd rfl hne⟩

/-- The state in which the second loop goes on. -/
structure Looping (home : List ℕ) (p : ℕ) (s : State) (memory : ℕ → Option Cell) : Prop where
  rsp : stackAddr < s.rsp ∧ s.rsp ≤ memsizeVirtual
  heap : Heap (heapStart s) s.heapTop memory
  stack : s.stackBottom = stackAddr
  pid : s.p = BitVec.ofNat 32 p
  child : p ∉ home

/-- Where no page is half allocated, the loop can go on. -/
theorem Inv.looping (h : Inv home p s memory) (hearly : s.pc.early = false) (htouch : s.pc ≠ .touch)
    (hre : s.pc ≠ .renumber) : Looping home p s memory := by
  have hheap := h.heap
  rw [bound, if_neg (by rw [hearly]; decide), if_neg htouch] at hheap
  refine ⟨h.rsp, hheap, (h.ready hearly).stack, (h.ready hearly).pid hre, h.child ?_ ?_⟩
  · rintro hpc
    rw [hpc] at hearly
    cases hearly
  · rintro hpc
    rw [hpc] at hearly
    cases hearly

theorem Looping.move (h : Looping home p s memory) (rng : RandState) {pc : Pc}
    (hearly : pc.early = false) (htouch : pc ≠ .touch) (hroom : pc = .alloc → s.heapTop < stackAddr) :
    Inv home p { s with rng := rng, pc := pc } memory := by
  refine ⟨h.rsp, ?_, fun _ => ⟨h.stack, h.heap.above, fun _ => h.pid⟩, hroom, fun _ _ => h.child⟩
  rw [bound, if_neg (by rw [hearly]; decide), if_neg htouch]
  exact h.heap

theorem Looping.loop (h : Looping home p s memory) : Inv home p (loop s) memory := by
  obtain ⟨rng, pc, heq, hpc⟩ := loop_spec s
  rw [heq]
  rcases hpc with ⟨rfl, hne⟩ | rfl | rfl | rfl | rfl | rfl
  · exact h.move rng rfl nofun fun _ => lt_of_le_of_ne h.heap.below (h.stack ▸ hne)
  all_goals exact h.move rng rfl nofun nofun

theorem Looping.last (h : Looping home p s memory) : Inv home p (last s) memory := by
  obtain ⟨rng, pc, heq, hpc⟩ := last_spec s
  rw [heq]
  rcases hpc with rfl | rfl <;> exact h.move rng rfl nofun nofun

theorem Inv.begin (h : Inv home p s memory) (hpc : s.pc = .getpid) :
    Inv home p (loop (begin s (BitVec.ofNat 32 p))) memory := by
  have hheap := h.heap
  rw [bound, if_pos (by rw [hpc]; rfl)] at hheap
  exact Looping.loop ⟨h.rsp, hheap, roundDown_stack h.rsp, rfl,
    h.child (by rw [hpc]; decide) (by rw [hpc]; decide)⟩

/-- What a copy of the process in the first loop starts with. -/
theorem Inv.first_child (h : Inv home p s memory) (hpc : s.pc = .spawn) {q : ℕ} (hq : q ∉ home) :
    Inv home q { s with pc := .getpid } memory := by
  have hheap := h.heap
  rw [bound, if_pos (by rw [hpc]; rfl)] at hheap
  exact ⟨h.rsp, hheap, nofun, nofun, fun _ _ => hq⟩

/-- What a copy of the process in the second loop starts with. -/
theorem Looping.child_start (h : Looping home p s memory) {q : ℕ} (hq : q ∉ home) :
    Inv home q { s with pc := .renumber } memory :=
  ⟨h.rsp, h.heap, fun _ => ⟨h.stack, h.heap.above, fun hne => absurd rfl hne⟩, nofun,
    fun _ _ => hq⟩

end loops

section act
variable {home : List ℕ} {p va addr : ℕ} {b : UInt8} {s : State} {memory : ℕ → Option Cell}

theorem act_store (h : act s = .store va b) : s.pc = .touch ∧ va = s.heapTop := by
  unfold act at h
  split at h
  case h_5 hpc =>
    cases h
    exact ⟨hpc, rfl⟩
  all_goals cases h

theorem act_pageAlloc (h : act s = .pageAlloc addr) : s.pc = .alloc ∧ addr = s.heapTop := by
  unfold act at h
  split at h
  case h_4 hpc =>
    cases h
    exact ⟨hpc, rfl⟩
  all_goals cases h

theorem act_getpid (h : act s = .getpid) : s.pc = .getpid ∨ s.pc = .renumber := by
  unfold act at h
  split at h
  case h_3 hpc => exact .inl hpc
  case h_7 hpc => exact .inr hpc
  all_goals cases h

theorem act_fork (h : act s = .fork) : s.pc = .spawn ∨ s.pc = .fork := by
  unfold act at h
  split at h
  case h_1 hpc => exact .inl hpc
  case h_6 hpc => exact .inr hpc
  all_goals cases h

theorem act_exit (h : act s = .exit) : s.pc = .exit ∨ s.pc = .lastExit := by
  unfold act at h
  split at h
  case h_8 hpc => exact .inl hpc
  case h_10 hpc => exact .inr hpc
  all_goals cases h

theorem act_yield (h : act s = .yield) : s.pc = .idle ∨ s.pc = .yield ∨ s.pc = .lastYield := by
  unfold act at h
  split at h
  case h_2 hpc => exact .inl hpc
  case h_9 hpc => exact .inr (.inl hpc)
  case h_11 hpc => exact .inr (.inr hpc)
  all_goals cases h

theorem act_ne_panic (s : State) : act s ≠ .panic := by
  unfold act
  split <;> simp

theorem resume_eq (v : BitVec 64) : program.resume s v = resume s v := rfl

end act

theorem setWidth_ofNat (c : ℕ) : (BitVec.ofNat 64 c).setWidth 32 = BitVec.ofNat 32 c :=
  BitVec.setWidth_ofNat_of_le (by norm_num) c

/-- The number of a child is not zero. -/
theorem ofNat_ne_zero {q : ℕ} (h1 : 1 ≤ q) (h16 : q < nProc) : BitVec.ofNat 32 q ≠ 0 := by
  simp only [nProc] at h16
  interval_cases q <;> decide

/-- The rules for the calls of the program. -/
theorem keeps (home : List ℕ) : program.Keeps home (Inv home) := by
  constructor
  case own =>
    intro p s va b d x h hown hcell
    refine ⟨h.rsp, h.heap.congr fun a ha ha' => Function.update_of_ne ?_ _ _, h.ready, h.room,
      h.child⟩
    rintro rfl
    rw [program] at hown
    simp only [own, roundDown_stack h.rsp, Bool.or_eq_true, decide_eq_true_eq] at hown
    omega
  case target =>
    intro p s va b memory h hact
    obtain ⟨hpc, rfl⟩ := act_store hact
    have hearly : s.pc.early = false := by rw [hpc]; rfl
    have habove := (h.ready hearly).above
    have hheap := h.heap
    rw [bound, if_neg (by rw [hearly]; decide), if_pos hpc] at hheap
    have hlt : s.heapTop < s.heapTop + pageSize := by simp only [pageSize]; omega
    have hbelow := hheap.below
    refine ⟨h.heap.user.trans habove, ?_, hheap.mapped _ habove hlt⟩
    simp only [stackAddr, memsizeVirtual, pageSize] at hbelow
    omega
  case store =>
    intro p s va b x h hact v
    obtain ⟨hpc, rfl⟩ := act_store hact
    have hearly : s.pc.early = false := by rw [hpc]; rfl
    have hr := h.ready hearly
    have hheap := h.heap
    rw [bound, if_neg (by rw [hearly]; decide), if_pos hpc] at hheap
    have hlt : s.heapTop < s.heapTop + pageSize := by simp only [pageSize]; omega
    rw [resume_eq, resume, hpc]
    refine Looping.loop ⟨h.rsp, hheap.store b hlt, hr.stack, hr.pid (by rw [hpc]; decide), ?_⟩
    exact h.child (by rw [hpc]; decide) (by rw [hpc]; decide)
  case getpid =>
    intro p s memory h hact
    rw [resume_eq, resume]
    rcases act_getpid hact with hpc | hpc
    · rw [hpc]
      dsimp only
      rw [setWidth_ofNat]
      exact h.begin hpc
    · have hearly : s.pc.early = false := by rw [hpc]; rfl
      have hheap := h.heap
      rw [bound, if_neg (by rw [hearly]; decide), if_neg (by rw [hpc]; decide)] at hheap
      rw [hpc]
      dsimp only
      rw [setWidth_ofNat]
      refine Looping.loop ⟨h.rsp, hheap, (h.ready hearly).stack, rfl, ?_⟩
      exact h.child (by rw [hpc]; decide) (by rw [hpc]; decide)
  case yield =>
    intro p s memory h hact v
    rw [resume_eq, resume]
    rcases act_yield hact with hpc | hpc | hpc
    · rw [hpc]
      exact h.spin (by rw [hpc]; rfl)
    · have hloop := h.looping (by rw [hpc]; rfl) (by rw [hpc]; decide) (by rw [hpc]; decide)
      rw [hpc]
      exact hloop.loop
    · have hloop := h.looping (by rw [hpc]; rfl) (by rw [hpc]; decide) (by rw [hpc]; decide)
      rw [hpc]
      exact hloop.last
  case fresh =>
    intro p s addr memory h hact
    obtain ⟨hpc, rfl⟩ := act_pageAlloc hact
    have hroom := h.room hpc
    have hheap := h.heap
    rw [bound, if_neg (by rw [hpc]; decide), if_neg (by rw [hpc]; decide)] at hheap
    have halign := hheap.aligned
    refine ⟨⟨halign, hheap.user.trans hheap.above, ?_⟩, fun va hva => ?_⟩
    · simp only [stackAddr, memsizeVirtual, pageSize] at hroom ⊢
      omega
    · simp only [stackAddr, memsizeVirtual, pageSize] at hva hroom halign
      refine hheap.free va (by omega) ?_
      simp only [stackAddr, memsizeVirtual, pageSize]
      omega
  case page =>
    intro p s addr x h hact contents
    obtain ⟨hpc, rfl⟩ := act_pageAlloc hact
    have hearly : s.pc.early = false := by rw [hpc]; rfl
    have hr := h.ready hearly
    have hheap := h.heap
    rw [bound, if_neg (by rw [hearly]; decide), if_neg (by rw [hpc]; decide)] at hheap
    rw [resume_eq, resume, hpc]
    dsimp only
    rw [if_neg (by decide)]
    exact ⟨h.rsp, hheap.addPage contents (h.room hpc),
      fun _ => ⟨hr.stack, hr.above, fun _ => hr.pid (by rw [hpc]; decide)⟩, nofun,
      fun _ _ => h.child (by rw [hpc]; decide) (by rw [hpc]; decide)⟩
  case full =>
    intro p s addr memory h hact
    obtain ⟨hpc, rfl⟩ := act_pageAlloc hact
    have hloop := h.looping (by rw [hpc]; rfl) (by rw [hpc]; decide) (by rw [hpc]; decide)
    rw [resume_eq, resume, hpc]
    dsimp only
    rw [if_pos (by decide)]
    exact hloop.last
  case fork =>
    intro p s memory h hact q h1 h16 _ hq
    rw [resume_eq, resume_eq, resume, resume]
    rcases act_fork hact with hpc | hpc
    · rw [hpc]
      dsimp only
      rw [setWidth_ofNat, if_neg (ofNat_ne_zero h1 h16), if_pos (by decide)]
      exact ⟨h.spin (by rw [hpc]; rfl), h.first_child hpc hq⟩
    · have hloop := h.looping (by rw [hpc]; rfl) (by rw [hpc]; decide) (by rw [hpc]; decide)
      rw [hpc]
      dsimp only
      rw [setWidth_ofNat, if_neg (ofNat_ne_zero h1 h16), if_pos (by decide)]
      exact ⟨hloop.loop, hloop.child_start hq⟩
  case noSlot =>
    intro p s memory h hact
    rw [resume_eq, resume]
    rcases act_fork hact with hpc | hpc
    · rw [hpc]
      dsimp only
      rw [if_neg (by decide)]
      exact h.spin (by rw [hpc]; rfl)
    · have hloop := h.looping (by rw [hpc]; rfl) (by rw [hpc]; decide) (by rw [hpc]; decide)
      rw [hpc]
      dsimp only
      rw [if_neg (by decide)]
      exact hloop.loop
  case exit =>
    intro p s memory h hact
    rcases act_exit hact with hpc | hpc <;> exact h.child (by rw [hpc]; decide) (by rw [hpc]; decide)

end WeensyOS.ForkExit
