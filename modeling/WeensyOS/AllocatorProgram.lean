import WeensyOS.UserPrograms
import WeensyOS.Rand

/-!
# The allocator program

p-allocator.c, turn by turn. It asks for the pages between the end of its data and its stack, one
after the other and at random times, until it has them all or a request fails.
-/

namespace WeensyOS
open ByteMemory

def roundDown (a n : ℕ) : ℕ := a - a % n
def roundUp (a n : ℕ) : ℕ := roundDown (a + n - 1) n

/-- The symbol `end`, which the linker puts after the last segment. -/
def ElfImage.endAddr (image : ElfImage) : ℕ :=
  (image.segments.map fun ph => ph.pVa + ph.pMemsz).foldr max 0

namespace Allocator

/-- What `process_main` does next. -/
inductive Pc where
  | getpid
  | alloc
  | touch
  | yield
  | done
  deriving DecidableEq, Repr

/-- The variables of `process_main`, with `end` and the stack pointer as it reads them. -/
structure State where
  pc : Pc
  endAddr : ℕ
  rsp : ℕ
  p : BitVec 32
  rng : RandState
  heapTop : ℕ
  stackBottom : ℕ
  deriving DecidableEq, Repr

@[simp] abbrev allocSlowdown : ℕ := 100

/-- The loop up to the next store or call. -/
def loop (s : State) : State :=
  let r := rand s.rng
  if ((r.1 % allocSlowdown : ℕ) : ℤ) < s.p.toInt then
    if s.heapTop = s.stackBottom then { s with rng := r.2, pc := .done }
    else { s with rng := r.2, pc := .alloc }
  else { s with rng := r.2, pc := .yield }

/-- The variables when the loop starts; `p` is the result of `sys_getpid`. -/
def begin (s : State) (p : BitVec 32) : State :=
  { s with
    p := p, rng := srand p, heapTop := roundUp s.endAddr pageSize
    stackBottom := roundDown (s.rsp - 1) pageSize }

def resume (s : State) (v : BitVec 64) : State :=
  match s.pc with
  | .getpid => loop (begin s (v.setWidth 32))
  | .alloc => if (v.setWidth 32).toInt < 0 then { s with pc := .done } else { s with pc := .touch }
  | .touch => { s with heapTop := s.heapTop + pageSize, pc := .yield }
  | .yield => loop s
  | .done => s

def act (s : State) : Act :=
  match s.pc with
  | .getpid => .getpid
  | .alloc => .pageAlloc s.heapTop
  | .touch => .store s.heapTop (UInt8.ofNat s.p.toNat)
  | .yield => .yield
  | .done => .yield

def heapStart (s : State) : ℕ := roundUp s.endAddr pageSize

/-- The compiler's own stores stay below the heap, or on the stack. -/
def own (s : State) (va : ℕ) : Bool :=
  va < heapStart s || roundDown (s.rsp - 1) pageSize ≤ va

def program : UserProgram State := ⟨act, resume, own⟩

def start (endAddr rsp : ℕ) : State := ⟨.getpid, endAddr, rsp, 0, ⟨false, 0⟩, 0, 0⟩

/-- The address up to which pages have been allocated. -/
def bound (s : State) : ℕ :=
  match s.pc with
  | .getpid => heapStart s
  | .touch => s.heapTop + pageSize
  | _ => s.heapTop

/-- The first address of the stack page. -/
@[simp] abbrev stackAddr : ℕ := memsizeVirtual - pageSize

/-- The variables of `process_main`, once they are set. -/
structure Ready (p : ℕ) (s : State) (memory : ℕ → Option Cell) : Prop where
  pid : s.p = BitVec.ofNat 32 p
  stack : s.stackBottom = stackAddr
  above : heapStart s ≤ s.heapTop
  below : s.heapTop ≤ stackAddr
  aligned : s.heapTop % pageSize = 0
  marked : ∀ x, heapStart s ≤ x * pageSize → x * pageSize < s.heapTop →
    memory (x * pageSize) = some ⟨true, UInt8.ofNat p⟩

/-- The heap pages are mapped and begin with the process number. -/
structure Inv (p : ℕ) (s : State) (memory : ℕ → Option Cell) : Prop where
  rsp : stackAddr < s.rsp ∧ s.rsp ≤ memsizeVirtual
  heap : procStartAddr ≤ heapStart s ∧ heapStart s ≤ stackAddr
  ready : s.pc ≠ .getpid → Ready p s memory
  room : s.pc = .alloc ∨ s.pc = .touch → s.heapTop < stackAddr
  page : s.pc = .touch → ∃ d, memory s.heapTop = some ⟨true, d⟩
  free : ∀ va, bound s ≤ va → va < stackAddr → memory va = none

variable {p : ℕ} {s : State} {memory : ℕ → Option Cell}

theorem roundDown_stack {rsp : ℕ} (h : stackAddr < rsp ∧ rsp ≤ memsizeVirtual) :
    roundDown (rsp - 1) pageSize = stackAddr := by
  simp only [stackAddr, memsizeVirtual, pageSize, roundDown] at h ⊢
  omega

theorem heapStart_aligned (s : State) : heapStart s % pageSize = 0 := by
  simp only [heapStart, roundUp, roundDown, pageSize]
  omega

theorem loop_spec (s : State) : ∃ rng pc, loop s = { s with rng := rng, pc := pc } ∧
    (pc = .done ∧ s.heapTop = s.stackBottom ∨ pc = .alloc ∧ s.heapTop ≠ s.stackBottom ∨
      pc = .yield) := by
  unfold loop
  dsimp only
  split_ifs with h1 h2
  · exact ⟨_, _, rfl, .inl ⟨rfl, h2⟩⟩
  · exact ⟨_, _, rfl, .inr (.inl ⟨rfl, h2⟩)⟩
  · exact ⟨_, _, rfl, .inr (.inr rfl)⟩

theorem Ready.move (h : Ready p s memory) (rng : RandState) (pc : Pc) :
    Ready p { s with rng := rng, pc := pc } memory := ⟨h.1, h.2, h.3, h.4, h.5, h.6⟩

/-- The loop goes on from any state in which no page is half allocated. -/
theorem Ready.loop (h : Ready p s memory) (hrsp : stackAddr < s.rsp ∧ s.rsp ≤ memsizeVirtual)
    (hheap : procStartAddr ≤ heapStart s ∧ heapStart s ≤ stackAddr)
    (hfree : ∀ va, s.heapTop ≤ va → va < stackAddr → memory va = none) :
    Inv p (loop s) memory := by
  obtain ⟨rng, pc, heq, hpc⟩ := loop_spec s
  have hstack := h.stack
  have hbelow := h.below
  rw [heq]
  refine ⟨hrsp, hheap, fun _ => h.move rng pc, fun hroom => ?_, fun htouch => ?_, ?_⟩
  · rcases hpc with ⟨rfl, -⟩ | ⟨rfl, hne⟩ | rfl
    · simp at hroom
    · exact lt_of_le_of_ne hbelow (hstack ▸ hne)
    · simp at hroom
  · rcases hpc with ⟨rfl, -⟩ | ⟨rfl, -⟩ | rfl <;> cases htouch
  · rcases hpc with ⟨rfl, -⟩ | ⟨rfl, -⟩ | rfl <;> exact hfree

/-- Memory that changes only outside the heap. -/
theorem Inv.frame {m : ℕ → Option Cell} (h : Inv p s memory)
    (hm : ∀ va, heapStart s ≤ va → va < stackAddr → m va = memory va) : Inv p s m := by
  refine ⟨h.rsp, h.heap, fun hpc => ?_, h.room, fun htouch => ?_, fun va hlo hhi => ?_⟩
  · obtain ⟨h1, h2, h3, h4, h5, h6⟩ := h.ready hpc
    exact ⟨h1, h2, h3, h4, h5, fun x hx hx' => (hm _ hx (hx'.trans_le h4)).trans (h6 x hx hx')⟩
  · have hr := h.ready (by rw [htouch]; decide)
    rw [hm _ hr.above (h.room (.inr htouch))]
    exact h.page htouch
  · have hbound : heapStart s ≤ bound s := by
      cases hpc : s.pc with
      | getpid => simp [bound, hpc]
      | _ =>
          have := (h.ready (by rw [hpc]; decide)).above
          simp only [bound, hpc, pageSize]
          omega
    rw [hm va (hbound.trans hlo) hhi]
    exact h.free va hlo hhi

/-- An allocator that has not begun can begin as any process. -/
theorem Inv.renumber (h : Inv p s memory) (hpc : s.pc = .getpid) (q : ℕ) : Inv q s memory :=
  ⟨h.rsp, h.heap, fun hne => absurd hpc hne, h.room, h.page, h.free⟩

theorem mark_eq (p : ℕ) : UInt8.ofNat (BitVec.ofNat 32 p).toNat = UInt8.ofNat p := by
  rw [BitVec.toNat_ofNat, ← UInt8.toNat_inj]
  simp only [UInt8.toNat_ofNat']
  omega

section act
variable {va addr : ℕ} {b : UInt8}

theorem act_store (h : act s = .store va b) :
    s.pc = .touch ∧ va = s.heapTop ∧ b = UInt8.ofNat s.p.toNat := by
  unfold act at h
  split at h
  case h_3 hpc =>
    cases h
    exact ⟨hpc, rfl, rfl⟩
  all_goals cases h

theorem act_pageAlloc (h : act s = .pageAlloc addr) : s.pc = .alloc ∧ addr = s.heapTop := by
  unfold act at h
  split at h
  case h_2 hpc =>
    cases h
    exact ⟨hpc, rfl⟩
  all_goals cases h

theorem act_getpid (h : act s = .getpid) : s.pc = .getpid := by
  unfold act at h
  split at h
  case h_1 hpc => exact hpc
  all_goals cases h

theorem act_yield (h : act s = .yield) : s.pc = .yield ∨ s.pc = .done := by
  unfold act at h
  split at h
  case h_4 hpc => exact .inl hpc
  case h_5 hpc => exact .inr hpc
  all_goals cases h

theorem act_ne (s : State) : act s ≠ .fork ∧ act s ≠ .exit ∧ act s ≠ .panic := by
  unfold act
  split <;> simp

theorem resume_eq (v : BitVec 64) : program.resume s v = resume s v := rfl

theorem resume_getpid (h : s.pc = .getpid) (v : BitVec 64) :
    program.resume s v = loop (begin s (v.setWidth 32)) := by
  rw [resume_eq, resume, h]

theorem resume_yield (h : s.pc = .yield) (v : BitVec 64) : program.resume s v = loop s := by
  rw [resume_eq, resume, h]

theorem resume_done (h : s.pc = .done) (v : BitVec 64) : program.resume s v = s := by
  rw [resume_eq, resume, h]

theorem resume_touch (h : s.pc = .touch) (v : BitVec 64) :
    program.resume s v = { s with heapTop := s.heapTop + pageSize, pc := .yield } := by
  rw [resume_eq, resume, h]

theorem resume_alloc (h : s.pc = .alloc) (v : BitVec 64) : program.resume s v =
    if (v.setWidth 32).toInt < 0 then { s with pc := .done } else { s with pc := .touch } := by
  rw [resume_eq, resume, h]

end act

/-- The store to the new page. -/
theorem Inv.store {x : Process} (h : Inv p s x.memory) (hpc : s.pc = .touch) (v : BitVec 64) :
    Inv p (program.resume s v) (x.store s.heapTop (UInt8.ofNat s.p.toNat)).memory := by
  have hr := h.ready (by rw [hpc]; decide)
  have hroom := h.room (.inr hpc)
  have hfree := h.free
  obtain ⟨hpid, hstack, habove, hbelow, halign, hmarked⟩ := hr
  have hstart := heapStart_aligned s
  simp only [bound, hpc] at hfree
  simp only [stackAddr, memsizeVirtual, pageSize, Nat.reduceSub] at hroom hbelow halign hstart hfree
  rw [resume_touch hpc]
  refine ⟨h.rsp, h.heap, fun _ => ⟨hpid, hstack, ?_, ?_, ?_, fun y hy hy' => ?_⟩, by simp, by simp,
    fun va hlo hhi => ?_⟩
  · exact habove.trans (Nat.le_add_right _ _)
  · simp only [stackAddr, memsizeVirtual, pageSize]
    omega
  · simp only [pageSize]
    omega
  · simp only [pageSize] at hy hy' ⊢
    by_cases heq : y * 4096 = s.heapTop
    · rw [heq, hpid, mark_eq]
      exact Function.update_self ..
    · exact (Function.update_of_ne heq _ _).trans (hmarked y hy (by
        simp only [pageSize]
        omega))
  · simp only [bound, pageSize, stackAddr, memsizeVirtual] at hlo hhi
    refine (Function.update_of_ne ?_ _ _).trans (hfree va hlo hhi)
    omega

theorem Inv.begin (h : Inv p s memory) (hpc : s.pc = .getpid) :
    Inv p (loop (begin s (BitVec.ofNat 32 p))) memory := by
  have hfree := h.free
  simp only [bound, hpc] at hfree
  have hstack := roundDown_stack h.rsp
  refine Ready.loop ⟨rfl, hstack, le_rfl, h.heap.2, heapStart_aligned s, fun x hx hx' => ?_⟩ h.rsp
    h.heap hfree
  exact absurd hx' (not_lt.mpr hx)

/-- The page that a successful request adds. -/
theorem Inv.page_alloc {x : Process} (h : Inv p s x.memory) (hpc : s.pc = .alloc)
    (contents : ℕ → UInt8) :
    Inv p { s with pc := .touch } (x.addPage s.heapTop contents).memory := by
  have hr := h.ready (by rw [hpc]; decide)
  have hroom := h.room (.inl hpc)
  have hfree := h.free
  obtain ⟨hpid, hstack, habove, hbelow, halign, hmarked⟩ := hr
  have hstart := heapStart_aligned s
  simp only [bound, hpc] at hfree
  simp only [stackAddr, memsizeVirtual, pageSize, Nat.reduceSub] at hroom hbelow halign hstart hfree
  refine ⟨h.rsp, h.heap, fun _ => ⟨hpid, hstack, habove, hbelow, halign, fun y hy hy' => ?_⟩,
    fun _ => hroom, fun _ => ⟨_, if_pos rfl⟩, fun va hlo hhi => ?_⟩
  · refine (if_neg ?_).trans (hmarked y hy hy')
    simp only [pageSize] at hy' ⊢
    omega
  · simp only [bound, pageSize, stackAddr, memsizeVirtual] at hlo hhi
    refine (if_neg ?_).trans (hfree va (by omega) hhi)
    simp only [pageSize]
    omega

/-- The rules for the calls of the program. -/
theorem keeps (home : List ℕ) : program.Keeps home Inv := by
  constructor
  case own =>
    intro p s va b d x h hown hcell
    refine h.frame fun a ha ha' => Function.update_of_ne ?_ _ _
    rintro rfl
    rw [program] at hown
    simp only [own, roundDown_stack h.rsp, Bool.or_eq_true, decide_eq_true_eq] at hown
    omega
  case target =>
    intro p s va b memory h hact
    obtain ⟨hpc, rfl, -⟩ := act_store hact
    have hroom := h.room (.inr hpc)
    have habove := (h.ready (by rw [hpc]; decide)).above
    refine ⟨h.heap.1.trans habove, ?_, h.page hpc⟩
    simp only [stackAddr, memsizeVirtual, pageSize] at hroom
    omega
  case store =>
    intro p s va b x h hact v
    obtain ⟨hpc, rfl, rfl⟩ := act_store hact
    exact h.store hpc v
  case getpid =>
    intro p s memory h hact
    have hpc := act_getpid hact
    rw [resume_getpid hpc, BitVec.setWidth_ofNat_of_le (by norm_num)]
    exact h.begin hpc
  case yield =>
    intro p s memory h hact v
    rcases act_yield hact with hpc | hpc
    · have hfree := h.free
      simp only [bound, hpc] at hfree
      rw [resume_yield hpc]
      exact (h.ready (by rw [hpc]; decide)).loop h.rsp h.heap hfree
    · rw [resume_done hpc]
      exact h
  case fresh =>
    intro p s addr memory h hact
    obtain ⟨hpc, rfl⟩ := act_pageAlloc hact
    have hr := h.ready (by rw [hpc]; decide)
    have hroom := h.room (.inl hpc)
    have habove := hr.above
    have halign := hr.aligned
    have hfree := h.free
    simp only [bound, hpc] at hfree
    simp only [stackAddr, memsizeVirtual, pageSize, Nat.reduceSub] at hroom halign hfree
    refine ⟨⟨halign, h.heap.1.trans habove, ?_⟩, fun va hva => ?_⟩
    · simp only [memsizeVirtual]
      omega
    · simp only [pageSize] at hva
      exact hfree va (by omega) (by omega)
  case page =>
    intro p s addr x h hact contents
    obtain ⟨hpc, rfl⟩ := act_pageAlloc hact
    rw [resume_alloc hpc, if_neg (by decide)]
    exact h.page_alloc hpc contents
  case full =>
    intro p s addr memory h hact
    obtain ⟨hpc, rfl⟩ := act_pageAlloc hact
    have hfree := h.free
    simp only [bound, hpc] at hfree
    rw [resume_alloc hpc, if_pos (by decide)]
    exact ⟨h.rsp, h.heap, fun _ => (h.ready (by rw [hpc]; decide)).move s.rng .done, by simp,
      by simp, hfree⟩
  case fork => exact fun _ hact => absurd hact (act_ne _).1
  case noSlot => exact fun _ hact => absurd hact (act_ne _).1
  case exit => exact fun _ hact => absurd hact (act_ne _).2.1

end Allocator

end WeensyOS
