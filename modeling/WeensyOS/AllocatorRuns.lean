import WeensyOS.AllocatorProgram

/-!
# The allocators as processes

Processes that run p-allocator.c, interrupted at any time, never make the kernel panic, and each
finds its own number on every page of its heap. When one gives up, no physical page is free any
more. Each of them gives up after a bounded number of its own turns.
-/

namespace WeensyOS.Allocator
open ByteMemory World Runs UserProgram

variable {L : KernelLayout} {images : ℕ → ElfImage} {command : Option String}
  {control : ℕ → State} {R R' : Running State} {h : Happening}

/-- Every process that is started runs p-allocator.c with a stack of at most one page. -/
def Starts (images : ℕ → ElfImage) (command : Option String) (control : ℕ → State) : Prop :=
  ∀ s ∈ setups command, (images s.2).segments ≠ [] ∧ ∃ rsp, stackAddr < rsp ∧
    rsp ≤ memsizeVirtual ∧ control s.1 = start (images s.2).endAddr rsp

theorem le_endAddr {image : ElfImage} {ph : ElfProgram} (h : ph ∈ image.segments) :
    ph.pVa + ph.pMemsz ≤ image.endAddr :=
  List.le_max_of_le (List.mem_map_of_mem h) le_rfl

theorem endAddr_le {image : ElfImage} {n : ℕ}
    (h : ∀ ph ∈ image.segments, ph.pVa + ph.pMemsz ≤ n) : image.endAddr ≤ n := by
  refine List.max_le_of_forall_le _ n fun x hx => ?_
  obtain ⟨ph, hph, rfl⟩ := List.mem_map.mp hx
  exact h ph hph

/-- A process that has just been loaded has no heap page yet. -/
theorem Starts.inv (hfit : ImagesFit L images command) (hstart : Starts images command control)
    {s : ℕ × ℕ} (hs : s ∈ setups command) {memory : ℕ → Option Cell}
    (hm : (images s.2).Loads memory) : Inv s.1 (control s.1) memory := by
  obtain ⟨hne, rsp, hlo, hhi, hcontrol⟩ := hstart s hs
  have hin := hfit.inside s hs
  have hend : (images s.2).endAddr ≤ stackAddr := endAddr_le fun ph hph => (hin ph hph).mem
  obtain ⟨ph₀, hph₀⟩ := List.exists_mem_of_ne_nil _ hne
  have hbase := (hin ph₀ hph₀).start
  have hle₀ := le_endAddr hph₀
  rw [hcontrol]
  simp only [stackAddr, memsizeVirtual, pageSize, procStartAddr] at hend hbase
  refine ⟨⟨hlo, hhi⟩, ?_, by simp [start], by simp [start], by simp [start], fun va hva hva' => ?_⟩
  · simp only [start, heapStart, roundUp, roundDown, stackAddr, memsizeVirtual, pageSize,
      procStartAddr]
    omega
  · simp only [start, bound, heapStart, roundUp, roundDown, pageSize] at hva
    simp only [stackAddr, memsizeVirtual, pageSize] at hva'
    apply hm.outside
    · intro hx
      obtain ⟨ph, hph, hx⟩ := mem_segmentPages.mp hx
      have hle := le_endAddr hph
      obtain ⟨-, hlt⟩ := Finset.mem_Ico.mp hx
      have hpages : ph.pages = (ph.pVa % 4096 + ph.pMemsz + 4095) / 4096 := rfl
      simp only [pageSize] at hlt
      omega
    · simp only [stackPage, memsizeVirtual, pageSize]
      omega

theorem careful (R : Running State) (h : Happening) : program.Careful R h :=
  careful_of_ne (fun s => (act_ne s).1) R h

section runs
variable (hfit : ImagesFit L images command) (hdisj : ImagesDisjoint images command)
  (hstart : Starts images command control)
  (hR : program.Reach L images command control (fun _ _ => True) R)

include hfit hdisj hstart hR

theorem reach_sound : Sound L images command Inv R ∧ R.machine.outcome.resumed = true :=
  (keeps _).reach hfit hdisj (fun _ hs _ hm => hstart.inv hfit hs hm) (fun R h _ => careful R h) hR

theorem reach_alive {p : ℕ} (hp : p ∈ started command) :
    ∃ q, R.machine.kernel.system.process p = some q :=
  Option.ne_none_iff_exists'.mp ((reach_sound hfit hdisj hstart hR).1.alive p hp)

theorem reach_dead {p : ℕ} (hp : p ∉ started command) :
    R.machine.kernel.system.process p = none :=
  (keeps _).dead hfit hdisj (fun _ hs _ hm => hstart.inv hfit hs hm) (fun R h _ => careful R h) hR
    (fun s => (act_ne s).1) hp

theorem reach_step (hs : program.step L R h = some R') :
    ∃ e, program.event R h = some e ∧ R' = program.next R R'.machine h ∧
      Orderly R.machine e ∧ R.machine.step L e = some R'.machine ∧
      R.machine.kernel.system.Step e R'.machine.kernel.system R'.machine.outcome :=
  (reach_sound hfit hdisj hstart hR).1.system_step (keeps _) hfit hdisj (careful R h) hs

theorem reach_current : ∃ q,
    R.machine.kernel.system.process R.machine.kernel.current = some q ∧
      R.machine.kernel.current ∈ started command := by
  obtain ⟨hsound, hres⟩ := reach_sound hfit hdisj hstart hR
  obtain ⟨w, hw, -⟩ := reach_owned hfit hdisj hsound.reach
  have hq := hw.current_process (hw.live hres)
  refine ⟨_, hq, ?_⟩
  by_contra hp
  exact Option.some_ne_none _ (hq.symm.trans (reach_dead hfit hdisj hstart hR hp))

theorem reach_act {cpu : Cpu} (hcpu : ∀ addr, act (R.control R.machine.kernel.current) =
    .pageAlloc addr → cpu.rdi.toNat = addr) : ∃ R', program.step L R (.act cpu) = some R' := by
  obtain ⟨hsound, hres⟩ := reach_sound hfit hdisj hstart hR
  exact hsound.act_exists (keeps _) hfit hdisj hres (careful R _) hcpu (act_ne _).2.2

/-- The machine never stops, and every process keeps running its program. -/
theorem allocators_run : R.machine.outcome.resumed = true ∧
    (∀ p, p ∉ started command → R.machine.kernel.system.process p = none) ∧
    (∀ p ∈ started command, ∃ q, R.machine.kernel.system.process p = some q ∧
      q.runnable = true ∧ ((R.control p).pc ≠ .getpid → ∀ x,
        heapStart (R.control p) ≤ x * pageSize → x * pageSize < (R.control p).heapTop →
        q.memory (x * pageSize) = some ⟨true, UInt8.ofNat p⟩)) ∧
    (∀ cpu, (∀ addr, act (R.control R.machine.kernel.current) = .pageAlloc addr →
      cpu.rdi.toNat = addr) → ∃ R', program.step L R (.act cpu) = some R') ∧
    ∀ cpu, ∃ R', program.step L R (.timer cpu) = some R' := by
  obtain ⟨hsound, hres⟩ := reach_sound hfit hdisj hstart hR
  refine ⟨hres, fun p hp => reach_dead hfit hdisj hstart hR hp, fun p hp => ?_,
    fun cpu hcpu => reach_act hfit hdisj hstart hR hcpu,
    fun cpu => hsound.timer_exists (keeps _) hfit hdisj hres cpu⟩
  obtain ⟨q, hq⟩ := reach_alive hfit hdisj hstart hR hp
  obtain ⟨hrun, hinv⟩ := hsound.holds p q hq
  exact ⟨q, hq, hrun, fun hpc => (hinv.ready hpc).marked⟩

end runs

/-! One allocator alone. -/

def sampleControl (_ : ℕ) : State := start (sampleImages 0 4).endAddr memsizeVirtual

theorem sample_starts : Starts (sampleImages 0) (some "fork") sampleControl := by
  intro s hs
  obtain rfl : s = (1, 4) := by simpa [setups] using hs
  exact ⟨by simp [sample_segments], memsizeVirtual, by norm_num, le_rfl, rfl⟩

theorem sample_reach : ∃ R, Machine.Boots sampleLayout (sampleImages 0) (some "fork") R.machine ∧
    R.control = sampleControl ∧
    program.Reach sampleLayout (sampleImages 0) (some "fork") sampleControl (fun _ _ => True) R := by
  obtain ⟨M, hM⟩ := sample_boots sampleLayout 0 (some "fork") (by decide)
  exact ⟨⟨M, sampleControl⟩, hM, rfl, .start ⟨hM, rfl⟩⟩

theorem allocators_run_sample : ∃ R R',
    Machine.Boots sampleLayout (sampleImages 0) (some "fork") R.machine ∧
    program.step sampleLayout R (.timer (sampleCpu 0)) = some R' := by
  obtain ⟨R, hM, -, hR⟩ := sample_reach
  obtain ⟨-, -, -, -, htimer⟩ := allocators_run (sample_fits _ _ _ (by decide))
    (sample_disjoint _ _) sample_starts hR
  obtain ⟨R', hR'⟩ := htimer (sampleCpu 0)
  exact ⟨R, R', hM, hR'⟩

/-! Memory runs out. -/

section free
variable {M M' : Machine} {w : World} {e : Event} {cpu : Cpu}

/-- Without exits, memory that is full stays full. -/
theorem free_empty (hw : Represents L M w) (hex : w.Exact L) (hd : Disciplined M e)
    (hs : M.step L e = some M') (he : ∀ cpu, e ≠ .trap cpu .exit)
    (hfull : freePages M.kernel.pageinfo = ∅) : freePages M'.kernel.pageinfo = ∅ := by
  cases e with
  | store va b =>
      obtain ⟨t, -, -, -, -, rfl⟩ := Machine.step_store hs
      exact hfull
  | trap cpu t =>
      have hadm := hd.admits hw hex
      have hreg := hd.regular hw (hw.live (Machine.step_resumed hs)) hex
      obtain ⟨-, -, hrep, -, -⟩ := step_refines hw hadm.1 hadm.2 hs
      rw [hw.sim.info] at hfull
      have hnone : lowestFree w.info = none := freePages_eq_empty.mp hfull
      rw [hrep.sim.info, World.trap, (leave_same _ _).info, ← hfull]
      unfold World.dispatch
      split
      case h_3 => rw [World.pageAlloc, hnone]
      case h_4 =>
        cases hslot : findFreeSlot w.state (nProc - 1) 1 with
        | none => rw [World.fork, hslot]
        | some c =>
            have hroom := hreg.room rfl (by rw [hslot]; rfl)
            rw [hfull, Finset.card_empty] at hroom
            omega
      case h_5 => exact absurd rfl (he cpu)
      all_goals rfl

/-- A request fails only when no page is free. -/
theorem free_of_result (hw : Represents L M w) (hex : w.Exact L)
    (hd : Disciplined M (.trap cpu .pageAlloc)) (hs : M.step L (.trap cpu .pageAlloc) = some M')
    (hres : M'.kernel.system.result M.kernel.current ≠ 0) : freePages M.kernel.pageinfo = ∅ := by
  have hsys := step_system hw hex hd hs
  have hp := hw.current_process (hw.live (Machine.step_resumed hs))
  by_contra hne
  rw [freePages_eq_empty] at hne
  obtain ⟨pn, hpn⟩ := Option.ne_none_iff_exists'.mp hne
  obtain ⟨q, hq⟩ := Option.ne_none_iff_exists'.mp
    (hsys.alive (ne_of_eq_of_ne hp (Option.some_ne_none _)) nofun)
  apply hres
  rw [System.result_eq hq, Kernel.process_cpu hq, trap_cpu hw hs hsys.ne_returned, callResult,
    pageAllocResult, hpn]
  dsimp only
  rw [if_neg (not_lt.mpr (hd.2.1 rfl).1.2.1)]
  rfl

end free

theorem loop_done {s : State} (h : (loop s).pc = .done) :
    (loop s).heapTop = (loop s).stackBottom := by
  obtain ⟨rng, pc, heq, ⟨rfl, hfull⟩ | ⟨rfl, -⟩ | rfl⟩ := loop_spec s
  · rw [heq]
    exact hfull
  · rw [heq] at h
    cases h
  · rw [heq] at h
    cases h

/-- How an allocator comes to its last loop. -/
theorem resume_done_cases {s : State} {v : BitVec 64} (h : (program.resume s v).pc = .done) :
    (program.resume s v).heapTop = (program.resume s v).stackBottom ∨
      s.pc = .done ∧ program.resume s v = s ∨ s.pc = .alloc ∧ v ≠ 0 := by
  cases hpc : s.pc with
  | getpid =>
      rw [resume_getpid hpc] at h ⊢
      exact .inl (loop_done h)
  | alloc =>
      rw [resume_alloc hpc] at h
      split_ifs at h with hv
      refine .inr (.inr ⟨rfl, ?_⟩)
      rintro rfl
      exact absurd hv (by decide)
  | touch =>
      rw [resume_touch hpc] at h
      cases h
  | yield =>
      rw [resume_yield hpc] at h ⊢
      exact .inl (loop_done h)
  | done => exact .inr (.inl ⟨rfl, resume_done hpc v⟩)

/-- An allocator that gives up has its whole heap, or no page is free. -/
theorem spent_resume {M M' : Machine} {w : World} {e : Event} {cpu : Cpu} {s : State}
    (hw : Represents L M w) (hex : w.Exact L) (hd : Disciplined M e) (hs : M.step L e = some M')
    (he : (act s).event cpu = some e)
    (hold : s.pc = .done → s.heapTop = s.stackBottom ∨ freePages M.kernel.pageinfo = ∅)
    (hdone : (program.resume s (M'.kernel.system.result M.kernel.current)).pc = .done) :
    (program.resume s (M'.kernel.system.result M.kernel.current)).heapTop =
      (program.resume s (M'.kernel.system.result M.kernel.current)).stackBottom ∨
    freePages M'.kernel.pageinfo = ∅ := by
  have hlast := free_empty hw hex hd hs fun cpu hc =>
    (act_ne s).2.1 ((act_of_trap (act_event_trap (hc ▸ he))).2.1 rfl)
  rcases resume_done_cases hdone with hfull | ⟨hpc, hsame⟩ | ⟨hpc, hresult⟩
  · exact .inl hfull
  · rw [hsame]
    exact (hold hpc).imp_right hlast
  · right
    rw [act, hpc] at he
    dsimp only [Act.event] at he
    split_ifs at he
    obtain rfl := Option.some.inj he
    exact hlast (free_of_result hw hex hd hs hresult)

section exhaustion
variable (hfit : ImagesFit L images command) (hdisj : ImagesDisjoint images command)
  (hstart : Starts images command control)

include hfit hdisj hstart

theorem spent_of_done (hR : program.Reach L images command control (fun _ _ => True) R)
    {p : ℕ} (hp : p ∈ started command) (hdone : (R.control p).pc = .done) :
    (R.control p).heapTop = (R.control p).stackBottom ∨
      freePages R.machine.kernel.pageinfo = ∅ := by
  induction hR with
  | start hboot =>
      obtain ⟨s, hs, rfl⟩ := List.mem_map.mp hp
      obtain ⟨-, rsp, -, -, hcontrol⟩ := hstart s hs
      rw [hboot.2, hcontrol] at hdone
      cases hdone
  | @next R R' h hR hh hs ih =>
      obtain ⟨e, he, hnext, hd, hstep, -⟩ := reach_step hfit hdisj hstart hR hs
      obtain ⟨hsound, -⟩ := reach_sound hfit hdisj hstart hR
      obtain ⟨w, hw, hex, -⟩ := reach_owned hfit hdisj hsound.reach
      have hsame (hcontrol : R'.control p = R.control p) : (R'.control p).heapTop =
          (R'.control p).stackBottom ∨ freePages R'.machine.kernel.pageinfo = ∅ := by
        rw [hcontrol] at hdone ⊢
        exact (ih hdone).imp_right <| free_empty hw hex hd.1 hstep fun _ hc =>
          (act_ne _).2.1 (event_exit (hc ▸ he))
      cases h with
      | own va b | timer cpu => exact hsame ((congrArg (Running.control · p) hnext).trans rfl)
      | act cpu =>
          obtain ⟨q, hq⟩ := reach_alive hfit hdisj hstart hR hp
          have hcontrol : R'.control p = _ := (congrArg (Running.control · p) hnext).trans
            (proceed_alive (ne_of_eq_of_ne hq (Option.some_ne_none q)))
          split_ifs at hcontrol with hcur
          · subst hcur
            rw [hcontrol] at hdone ⊢
            exact spent_resume hw hex hd.1 hstep he ih hdone
          · exact hsame hcontrol

end exhaustion

/-! Every allocator finishes. -/

section turns
variable {s : State} {p : ℕ} {memory : ℕ → Option Cell}

/-- The loop goes on to allocate when `rand` comes out low enough. -/
def lucky (s : State) (n : ℕ) : Prop :=
  (((rand (s.rng.after n)).1 % allocSlowdown : ℕ) : ℤ) < s.p.toInt

/-- How often the program yields before it allocates again. -/
noncomputable def wait (s : State) : ℕ := sInf {n | lucky s n}

theorem exists_lucky (hp : 0 < s.p.toInt) : ∃ n < 2 ^ 32, lucky s n := by
  obtain ⟨n, hn, h⟩ := RandState.generator_surjOn s.rng.start 0
  refine ⟨n, hn, ?_⟩
  rw [lucky, RandState.rand_after, h]
  exact hp

theorem wait_lt (hp : 0 < s.p.toInt) : wait s < 2 ^ 32 := by
  obtain ⟨n, hn, h⟩ := exists_lucky hp
  exact (Nat.sInf_le h).trans_lt hn

theorem loop_yield (h : (loop s).pc = .yield) :
    loop s = { s with rng := (rand s.rng).2, pc := .yield } ∧ ¬ lucky s 0 := by
  unfold loop at h ⊢
  dsimp only at h ⊢
  split_ifs at h ⊢ with hluck
  exact ⟨rfl, hluck⟩

/-- One round of waiting. -/
theorem wait_loop (hp : 0 < s.p.toInt) (h : (loop s).pc = .yield) :
    wait (loop s) + 1 = wait s := by
  obtain ⟨heq, hluck⟩ := loop_yield h
  have hset : {n | lucky (loop s) n} = {n | lucky s (n + 1)} := by
    refine Set.ext fun n => ?_
    change lucky (loop s) n ↔ lucky s (n + 1)
    rw [heq, lucky, lucky, RandState.after_rand]
  obtain ⟨n, -, hn⟩ := exists_lucky hp
  have hmem : wait s ∈ {n | lucky s n} := Nat.sInf_mem ⟨n, hn⟩
  have hpos : 1 ≤ wait s := by
    by_contra hz
    rw [Nat.lt_one_iff.mp (not_le.mp hz)] at hmem
    exact hluck hmem
  rw [wait, hset]
  exact Nat.sInf_add hpos

/-- More turns than the program takes for one page. -/
def turn : ℕ := 2 ^ 32 + 2

/-- The pages that are still missing. -/
def left (s : State) : ℕ := (s.stackBottom - s.heapTop) / pageSize

/-- A bound on the turns that the program still takes. -/
noncomputable def rank (s : State) : ℕ :=
  match s.pc with
  | .getpid => 512 * turn
  | .alloc => left s * turn
  | .touch => left s * turn - 1
  | .yield => left s * turn + wait s + 1
  | .done => 0

/-- The loop brings the program closer to the next page, or to its end. -/
theorem rank_loop (hp : 0 < s.p.toInt) : rank (loop s) < left s * turn + wait s + 1 := by
  obtain ⟨rng, pc, heq, hpc⟩ := loop_spec s
  have hpc' : (loop s).pc = pc := by rw [heq]
  have hleft : left (loop s) = left s := by rw [heq]; rfl
  unfold rank
  rcases hpc with ⟨rfl, -⟩ | ⟨rfl, -⟩ | rfl
  · rw [hpc']
    exact Nat.succ_pos _
  · rw [hpc', hleft]
    dsimp only
    omega
  · rw [hpc', hleft]
    have := wait_loop hp hpc'
    dsimp only
    omega

theorem left_pos (h : Inv p s memory) (hpc : s.pc = .alloc ∨ s.pc = .touch) : 1 ≤ left s := by
  have hroom := h.room hpc
  have hr := h.ready (by rcases hpc with hpc | hpc <;> rw [hpc] <;> decide)
  have halign := hr.aligned
  rw [left, hr.stack]
  simp only [stackAddr, memsizeVirtual, pageSize] at hroom halign ⊢
  omega

theorem rank_getpid (h : s.pc = .getpid) : rank s = 512 * turn := by rw [rank, h]
theorem rank_alloc (h : s.pc = .alloc) : rank s = left s * turn := by rw [rank, h]
theorem rank_touch (h : s.pc = .touch) : rank s = left s * turn - 1 := by rw [rank, h]
theorem rank_yield (h : s.pc = .yield) : rank s = left s * turn + wait s + 1 := by rw [rank, h]
theorem rank_done (h : s.pc = .done) : rank s = 0 := by rw [rank, h]

theorem rank_pos (h : Inv p s memory) (hpc : s.pc ≠ .done) : 0 < rank s := by
  cases heq : s.pc with
  | getpid =>
      rw [rank_getpid heq, turn]
      norm_num
  | alloc =>
      have := left_pos h (.inl heq)
      rw [rank_alloc heq]
      exact Nat.mul_pos this (Nat.succ_pos _)
  | touch =>
      have := left_pos h (.inr heq)
      rw [rank_touch heq, turn]
      omega
  | yield =>
      rw [rank_yield heq]
      exact Nat.succ_pos _
  | done => exact absurd heq hpc

theorem toInt_pid (h1 : 1 ≤ p) (h16 : p < 16) : 0 < (BitVec.ofNat 32 p).toInt := by
  interval_cases p <;> decide

theorem left_le (h : Inv p s memory) (hpc : s.pc ≠ .getpid) : left s ≤ 511 := by
  have hr := h.ready hpc
  have hlow := h.heap.1.trans hr.above
  rw [left, hr.stack]
  simp only [procStartAddr] at hlow
  simp only [stackAddr, memsizeVirtual, pageSize]
  omega

theorem rank_le (h : Inv p s memory) (h1 : 1 ≤ p) (h16 : p < 16) : rank s ≤ 512 * turn := by
  by_cases hpc : s.pc = .getpid
  · rw [rank_getpid hpc]
  · have hleft := left_le h hpc
    have hwait : wait s < 2 ^ 32 := wait_lt ((h.ready hpc).pid ▸ toInt_pid h1 h16)
    have hturn : turn = 2 ^ 32 + 2 := rfl
    have hmul : left s * turn ≤ 511 * turn := Nat.mul_le_mul_right _ hleft
    cases heq : s.pc with
    | getpid => exact absurd heq hpc
    | alloc => rw [rank_alloc heq]; omega
    | touch => rw [rank_touch heq]; omega
    | yield => rw [rank_yield heq]; omega
    | done => rw [rank_done heq]; exact Nat.zero_le _

/-- Every turn of an allocator that is not done brings it closer to the end. -/
theorem rank_resume (h : Inv p s memory) (h1 : 1 ≤ p) (h16 : p < 16) (hpc : s.pc ≠ .done)
    {v : BitVec 64} (hv : s.pc = .getpid → v = BitVec.ofNat 64 p) :
    rank (program.resume s v) < rank s := by
  have hpid (hne : s.pc ≠ .getpid) : 0 < s.p.toInt := (h.ready hne).pid ▸ toInt_pid h1 h16
  cases heq : s.pc with
  | getpid =>
      have hpos : 0 < (begin s (BitVec.ofNat 32 p)).p.toInt := toInt_pid h1 h16
      have hrank := rank_loop hpos
      have hwait := wait_lt hpos
      have hleft : left (begin s (BitVec.ofNat 32 p)) ≤ 511 := by
        have hlow := h.heap.1
        change (roundDown (s.rsp - 1) pageSize - heapStart s) / pageSize ≤ 511
        rw [roundDown_stack h.rsp]
        simp only [procStartAddr] at hlow
        simp only [stackAddr, memsizeVirtual, pageSize]
        omega
      rw [resume_getpid heq, rank_getpid heq, hv heq, BitVec.setWidth_ofNat_of_le (by norm_num)]
      rw [turn] at hrank ⊢
      omega
  | alloc =>
      have := left_pos h (.inl heq)
      rw [resume_alloc heq, rank_alloc heq]
      split_ifs
      · rw [rank_done rfl, turn]
        omega
      · rw [rank_touch rfl]
        change left s * turn - 1 < _
        rw [turn]
        omega
  | touch =>
      have hpos := left_pos h (.inr heq)
      have hleft : left (program.resume s v) + 1 = left s := by
        rw [resume_touch heq]
        unfold left at hpos ⊢
        dsimp only
        simp only [pageSize] at hpos ⊢
        omega
      have hwait := wait_lt (s := program.resume s v) (by
        rw [resume_touch heq]
        exact hpid (by rw [heq]; decide))
      rw [rank_yield (by rw [resume_touch heq]), rank_touch heq, ← hleft, turn]
      omega
  | yield =>
      rw [resume_yield heq, rank_yield heq]
      exact rank_loop (hpid (by rw [heq]; decide))
  | done => exact absurd heq hpc

end turns

section finish
variable (hfit : ImagesFit L images command) (hdisj : ImagesDisjoint images command)
  (hstart : Starts images command control)

include hfit hdisj hstart

/-- One step costs the process that takes a turn some of its rank. -/
theorem rank_step (hR : program.Reach L images command control (fun _ _ => True) R)
    (hs : program.step L R h = some R') {p : ℕ} (hp : p ∈ started command)
    (hpc : (R'.control p).pc ≠ .done) :
    rank (R'.control p) + (if R.machine.kernel.current = p ∧ h.isAct then 1 else 0) ≤
      rank (R.control p) := by
  obtain ⟨⟨-, hholds, -⟩, -⟩ := reach_sound hfit hdisj hstart hR
  obtain ⟨e, he, hnext, -, -, hsys⟩ := reach_step hfit hdisj hstart hR hs
  obtain ⟨q, hq⟩ := reach_alive hfit hdisj hstart hR hp
  have hkeep (hcontrol : R'.control p = R.control p)
      (hidle : ¬ (R.machine.kernel.current = p ∧ h.isAct)) :
      rank (R'.control p) + (if R.machine.kernel.current = p ∧ h.isAct then 1 else 0) ≤
        rank (R.control p) := by
    rw [hcontrol, if_neg hidle, add_zero]
  cases h with
  | own va b | timer cpu =>
      exact hkeep ((congrArg (Running.control · p) hnext).trans rfl) (by simp [Happening.isAct])
  | act cpu =>
      have hcontrol : R'.control p = _ := (congrArg (Running.control · p) hnext).trans
        (proceed_alive (ne_of_eq_of_ne hq (Option.some_ne_none q)))
      split_ifs at hcontrol with hcur
      · obtain ⟨-, hinv⟩ := hholds p q hq
        have hpid : 1 ≤ p ∧ p < 16 := by
          obtain ⟨s, hs, rfl⟩ := List.mem_map.mp hp
          exact setups_pid command s hs
        have hnot : (R.control p).pc ≠ .done := by
          intro hdone
          rw [hcontrol, resume_done hdone] at hpc
          exact hpc hdone
        have hrank := rank_resume hinv hpid.1 hpid.2 hnot
          (v := R'.machine.kernel.system.result p) fun hget => by
            change (act (R.control R.machine.kernel.system.current)).event cpu = _ at he
            rw [← hcur, act, hget] at he
            obtain rfl := Option.some.inj he
            rw [hcur]
            exact hsys.result_getpid
        rw [hcontrol]
        split_ifs <;> omega
      · exact hkeep hcontrol fun hc => hcur hc.1.symm

theorem done_of_turns {R : ℕ → Running State} {h : ℕ → Happening} {n : ℕ}
    (hboot : Machine.Boots L images command (R 0).machine) (hcontrol : (R 0).control = control)
    (hrun : IsRun (program.step L) R h n) {p : ℕ} (hp : p ∈ started command)
    (hturns : 512 * turn ≤ turns R h p n) : ((R n).control p).pc = .done := by
  have hreach : ∀ i ≤ n, program.Reach L images command control (fun _ _ => True) (R i) :=
    hrun.reachable (.start ⟨hboot, hcontrol⟩) fun _ _ => trivial
  have hpos (i : ℕ) (hi : i ≤ n) (hpc : ((R i).control p).pc ≠ .done) :
      0 < rank ((R i).control p) := by
    obtain ⟨q, hq⟩ := reach_alive hfit hdisj hstart (hreach i hi) hp
    exact rank_pos ((reach_sound hfit hdisj hstart (hreach i hi)).1.holds p q hq).2 hpc
  by_contra hpc
  have hrank := hpos n le_rfl hpc
  have hbound := rank_turns (fun i hi hne => rank_step hfit hdisj hstart
    (hreach i hi.le) (hrun i hi) hp fun hdone => hne (rank_done hdone)) hrank.ne'
  have hstart₀ : rank ((R 0).control p) = 512 * turn := by
    obtain ⟨s, hs, rfl⟩ := List.mem_map.mp hp
    obtain ⟨-, rsp, -, -, hs⟩ := hstart s hs
    rw [hcontrol, hs, rank_getpid rfl]
  omega

/-- Whatever the other processes and the interrupts do, an allocator that has had enough turns is in
its last loop, with its whole heap or with no page free any more. -/
theorem allocators_finish {R : ℕ → Running State} {h : ℕ → Happening} {n : ℕ}
    (hboot : Machine.Boots L images command (R 0).machine) (hcontrol : (R 0).control = control)
    (hrun : IsRun (program.step L) R h n) {p : ℕ} (hp : p ∈ started command)
    (hturns : 512 * turn ≤ turns R h p n) : ((R n).control p).pc = .done ∧
      (((R n).control p).heapTop = ((R n).control p).stackBottom ∨
        freePages (R n).machine.kernel.pageinfo = ∅) := by
  have hdone := done_of_turns hfit hdisj hstart hboot hcontrol hrun hp hturns
  have hreach : program.Reach L images command control (fun _ _ => True) (R n) :=
    hrun.reachable (.start ⟨hboot, hcontrol⟩) (fun _ _ => trivial) n le_rfl
  exact ⟨hdone, spent_of_done hfit hdisj hstart hreach hp hdone⟩

end finish

theorem sample_turns (n : ℕ) : ∃ (R : ℕ → Running State) (h : ℕ → Happening),
    Machine.Boots sampleLayout (sampleImages 0) (some "fork") (R 0).machine ∧
    (R 0).control = sampleControl ∧ IsRun (program.step sampleLayout) R h n ∧
    turns R h 1 n = n := by
  have hfit := sample_fits sampleLayout 0 (some "fork") (by decide)
  have hdisj := sample_disjoint 0 (some "fork")
  obtain ⟨R₀, hM, hcontrol, hR₀⟩ := sample_reach
  have hnext (R : Running State) (hR : program.Reach sampleLayout (sampleImages 0) (some "fork")
      sampleControl (fun _ _ => True) R) :
      ∃ cpu R', program.step sampleLayout R (.act cpu) = some R' := by
    obtain ⟨q, hq, -⟩ := reach_current hfit hdisj sample_starts hR
    have hinv := ((reach_sound hfit hdisj sample_starts hR).1.holds _ q hq).2
    refine ⟨sampleCpu (BitVec.ofNat 64 (R.control R.machine.kernel.current).heapTop),
      reach_act hfit hdisj sample_starts hR fun addr hact => ?_⟩
    obtain ⟨hpc, rfl⟩ := act_pageAlloc hact
    have hroom := hinv.room (.inl hpc)
    simp only [stackAddr, memsizeVirtual, pageSize] at hroom
    exact Nat.mod_eq_of_lt (by omega)
  have : Nonempty Cpu := ⟨sampleCpu 0⟩
  have : Nonempty (Running State) := ⟨R₀⟩
  choose! cpu next hstep using hnext
  have hreach (i : ℕ) : program.Reach sampleLayout (sampleImages 0) (some "fork") sampleControl
      (fun _ _ => True) (next^[i] R₀) := by
    induction i with
    | zero => exact hR₀
    | succ i ih =>
        rw [Function.iterate_succ_apply']
        exact ih.next trivial (hstep _ ih)
  refine ⟨fun i => next^[i] R₀, fun i => .act (cpu (next^[i] R₀)), hM, hcontrol, fun i _ => ?_, ?_⟩
  · exact (hstep _ (hreach i)).trans
      (congrArg some (Function.iterate_succ_apply' next i R₀).symm)
  · rw [turns, Finset.filter_true_of_mem, Finset.card_range]
    intro i _
    obtain ⟨-, -, hcur⟩ := reach_current hfit hdisj sample_starts (hreach i)
    exact ⟨by simpa [started, setups] using hcur, rfl⟩

theorem allocators_finish_sample : ∃ (R : ℕ → Running State) (h : ℕ → Happening) (n : ℕ),
    Machine.Boots sampleLayout (sampleImages 0) (some "fork") (R 0).machine ∧
    IsRun (program.step sampleLayout) R h n ∧ ((R n).control 1).pc = .done := by
  obtain ⟨R, h, hM, hcontrol, hrun, hturns⟩ := sample_turns (512 * turn)
  exact ⟨R, h, 512 * turn, hM, hrun, (allocators_finish (sample_fits _ _ _ (by decide))
    (sample_disjoint _ _) sample_starts hM hcontrol hrun (p := 1)
    (by simp [started, setups]) hturns.ge).1⟩

end WeensyOS.Allocator
