import WeensyOS.ReferenceCounts
import WeensyOS.Ownership

/-!
# Isolation when memory runs out

A fork can run out of memory at two places. When a table cannot be allocated, `exception` returns
with the pages that were left all taken but no mapping changed. When a copy cannot be allocated,
`alloc_page_process` yields the null pointer, and the child gets physical page 0 as writable memory.
-/

namespace WeensyOS
open ByteMemory World

variable {L : KernelLayout} {images : ℕ → ElfImage} {command : Option String} {M : Machine}
  {w : World}

/-- A page that user code of one process may write above `PROC_START_ADDR` is open to no other
process, belongs neither to the kernel nor to the hardware, and is no page table. -/
def Kernel.Separated (k : Kernel) : Prop :=
  ∀ p, k.Live p → ∀ va, procStartAddr ≤ va → va < 2 ^ 48 →
    ∀ t, walk k.mem (k.processes p).pagetable va = some t → t.writable = true → t.user = true →
      (∀ q, q ≠ p → k.Live q → ∀ va' < 2 ^ 48,
        ∀ t', walk k.mem (k.processes q).pagetable va' = some t' → t'.user = true →
          t'.pa / pageSize ≠ t.pa / pageSize) ∧
      (k.pageinfo (t.pa / pageSize)).owner ≠ poReserved ∧
      (k.pageinfo (t.pa / pageSize)).owner ≠ poKernel ∧
      ∀ q, ¬ k.usesTable q (t.pa / pageSize)

/-- Traps at any level of free memory, with `page_alloc` at unmapped addresses of the process's
range. -/
def AnyMemory (M : Machine) : Event → Prop
  | .store _ _ => False
  | .trap cpu t => t.ordinary = true ∧
      (t = .pageAlloc → inUserRange cpu.rdi.toNat ∧ M.kernel.Unmapped cpu.rdi.toNat)

/-- No fork finds memory for its tables but not for all of its copies. -/
def NoPartialFork (M : Machine) : Event → Prop
  | .store _ _ => True
  | .trap _ t => t = .fork → (findFreeSlot M.kernel.states (nProc - 1) 1).isSome →
      (freePages M.kernel.pageinfo).card < 5 ∨
        5 + M.kernel.writablePages ≤ (freePages M.kernel.pageinfo).card

/-- The ledger's side of `Separated`. -/
structure World.Separate (L : KernelLayout) (w : World) : Prop where
  own : ∀ p i pn, w.held (p, .page i) = some ⟨pn, true⟩ → usable L pn ∧ w.info pn = ⟨p, 1⟩
  alone : ∀ p i pn y r, w.held (p, .page i) = some ⟨pn, true⟩ → w.held y = some r →
    r.frame = pn → y = (p, .page i)

theorem World.Tallied.separate {T : ℕ → Tally} (h : Tallied T L w) : w.Separate L :=
  ⟨fun _ _ _ hr => ⟨(h.place _ _ hr).2, h.exclusive _ _ _ hr⟩,
    fun _ _ _ _ _ hr hy heq => (h.unique hr hy heq).symm⟩

theorem Represents.separated (h : Represents L M w) (hs : w.Separate L) : M.kernel.Separated := by
  intro p hp va hva hva' t hwalk hwr hus
  have hlive := (h.sim.live p).mp hp
  simp only [procStartAddr] at hva
  rcases h.sim.mem.walk_cases h.wf hlive hva' hwalk hus with ⟨hlow, -⟩ | ⟨-, -, r, hr, rfl⟩
  · omega
  obtain ⟨pn, b⟩ := r
  obtain rfl : b = true := hwr
  obtain ⟨hu, hinfo⟩ := hs.own p _ pn hr
  have hpage : (pn * 4096 + va % 4096) / pageSize = pn := by
    simp only [pageSize]
    omega
  dsimp only
  rw [hpage, h.sim.info, hinfo]
  refine ⟨fun q hq hqlive va₁ hva₁ t' hwalk' hus' heq => ?_, ?_, ?_, fun q hq => ?_⟩
  · rcases h.sim.mem.walk_cases h.wf ((h.sim.live q).mp hqlive) hva₁ hwalk' hus' with
      ⟨-, hpa, hcons⟩ | ⟨-, -, r', hr', rfl⟩
    · rw [hpa, pageSize, hcons] at heq
      exact not_usable_console (heq ▸ hu)
    · have hframe : r'.frame = pn := by
        simp only [pageSize] at heq
        omega
      exact hq (Prod.mk.inj (hs.alone p _ pn _ r' hr hr' hframe)).1
  · change (p : ℤ) ≠ -1
    omega
  · change (p : ℤ) ≠ -2
    omega
  · obtain ⟨j, hj⟩ := (h.usesTable_iff q pn).mp hq
    obtain ⟨r', hr', hf⟩ := frameAt_eq_some.mp hj
    cases (Prod.mk.inj (hs.alone p _ pn _ r' hr hr' hf)).2

/-- A fork that cannot allocate its tables changes the counts of free pages only. -/
theorem World.drain_counted (info : PageInfos) (c : ℤ) {pn : ℕ} (h : (info pn).refcount ≠ 0) :
    drain info c pn = info pn := by
  have hstep (info : PageInfos) (hpn : (info pn).refcount ≠ 0) :
      (allocPageProcess info c).1 pn = info pn := by
    rw [allocPageProcess_eq]
    cases hfree : lowestFree info with
    | none => rfl
    | some pn' =>
        apply Function.update_of_ne
        rintro rfl
        exact hpn (lowestFree_eq_some hfree).2.2
  have hiter (n : ℕ) : (fun info => (allocPageProcess info c).1)^[n] info pn = info pn := by
    induction n with
    | zero => rfl
    | succ n ih => rw [Function.iterate_succ_apply', hstep _ (by rwa [ih]), ih]
  exact hiter 5

theorem World.fork_tables_fail {c : ℕ} (hslot : findFreeSlot w.state (nProc - 1) 1 = some c)
    (hfew : (freePages w.info).card < 5) :
    w.fork = ({ w with info := drain w.info c }, .return) := by
  have hnone : duplicate c (w.setState c .runnable) = none := duplicate_none c hfew
  simp only [World.fork, hslot, hnone]

theorem World.Tallied.separate_drain {T : ℕ → Tally} (h : Tallied T L w) (c : ℤ) :
    Separate L { w with info := drain w.info c } := by
  have hs := h.separate
  refine ⟨fun p i pn hr => ⟨(hs.own p i pn hr).1, ?_⟩, hs.alone⟩
  change drain w.info c pn = _
  rw [drain_counted w.info c (h.counted hr)]
  exact (hs.own p i pn hr).2

/-- Some ledger describes the machine, with exact counts as long as a process runs. -/
def Accounted (L : KernelLayout) (M : Machine) : Prop :=
  ∃ w, Represents L M w ∧ w.Separate L ∧ (M.outcome.resumed = true → w.Exact L)

/-- One trap at any level of free memory: the counts stay exact, or a fork gives up and the kernel
does not come back. -/
theorem AnyMemory.step {M' : Machine} {e : Event} (h : AnyMemory M e) (hpart : NoPartialFork M e)
    (hw : Represents L M w) (hex : w.Exact L) (hs : M.step L e = some M') :
    Accounted L M' := by
  cases e with
  | store va b => exact absurd h id
  | trap cpu t =>
      obtain ⟨hord, halloc⟩ := h
      have hrun := hw.live (Machine.step_resumed hs)
      obtain ⟨-, -, hw', ho, -⟩ := step_refines hw hord (fun ht => (halloc ht).1.high) hs
      refine ⟨_, hw', ?_⟩
      by_cases hfail : t = .fork ∧ ∃ c, findFreeSlot w.state (nProc - 1) 1 = some c ∧
          (freePages w.info).card < 5
      · obtain ⟨rfl, c, hslot, hfew⟩ := hfail
        have htrap : w.trap .fork cpu.rdi.toNat =
            ({ w with info := drain w.info c }, .returned) := by
          change w.fork.1.leave w.fork.2 = _
          rw [fork_tables_fail hslot hfew]
          rfl
        rw [ho, htrap]
        exact ⟨hex.separate_drain c, fun hres => by cases hres⟩
      · have hdisc : Disciplined M (.trap cpu t) := by
          refine ⟨hord, fun ht => ⟨(halloc ht).1, fun _ => (halloc ht).2⟩, fun ht hsome => ?_⟩
          apply (hpart ht hsome).resolve_left
          rw [hw.sim.info]
          rw [hw.sim.state] at hsome
          obtain ⟨c, hc⟩ := Option.isSome_iff_exists.mp hsome
          exact fun hfew => hfail ⟨ht, c, hc, hfew⟩
        have hex' := hex.trap hw.wf hrun (hdisc.regular hw hrun hex)
        exact ⟨hex'.separate, fun _ => hex'⟩

/-- As long as no fork finds memory for its tables but not for all of its copies, writable memory of
different processes stays separate, at whatever level of free memory. -/
theorem reach_separated (hfit : ImagesFit L images command) (hdisj : ImagesDisjoint images command)
    (h : Machine.Reach L images command (fun M e => AnyMemory M e ∧ NoPartialFork M e) M) :
    M.kernel.Separated := by
  have hinv : Accounted L M := by
    refine h.invariant (fun M hM => ?_) fun M e M' hM he hs => ?_
    · obtain ⟨w, hboot, hb, hw, -⟩ := boots_represents hfit hM
      have hex : w.Exact L := Tallied.of_booting _ hb (boot_complete hfit hdisj hboot)
      exact ⟨w, hw, hex.separate, fun _ => hex⟩
    · obtain ⟨w, hw, -, hex⟩ := hM
      exact he.1.step he.2 hw (hex (Machine.step_resumed hs)) hs
  obtain ⟨w, hw, hsep, -⟩ := hinv
  exact hw.separated hsep

theorem reach_separated_sample : ∃ M, Machine.Reach sampleLayout (sampleImages 3) none
    (fun M e => AnyMemory M e ∧ NoPartialFork M e) M ∧ M.kernel.Separated := by
  obtain ⟨M, hM⟩ := sample_boots sampleLayout 3 none (by decide)
  exact ⟨M, .start hM, reach_separated (sample_fits _ _ _ (by decide)) (sample_disjoint _ _)
    (.start hM)⟩

/-- A process with 241 writable pages forks. The child gets physical page 0, which is reserved. -/
theorem not_separated : ¬ ∀ M, Machine.Reach sampleLayout (sampleImages 240) (some "fork")
    AnyMemory M →
    M.kernel.Separated := by
  intro hall
  obtain ⟨M, hM⟩ := sample_boots sampleLayout 240 (some "fork") (by decide)
  obtain ⟨w, hw, hrep, hres⟩ := sample_world sampleLayout (by norm_num) hM
  obtain ⟨hslot, hfive, htrap⟩ := sample_fork hw (by norm_num)
  have hrun := hrep.live hres
  have hex : w.Exact sampleLayout := Tallied.of_booting _ hw.booting hw.complete
  have hmax := (card_freePages_init sampleLayout).2
  have hroom := hw.room
  have hshort : (freePages w.info).card < 5 + writableFrom w w.current userPages 256 := by
    rw [hw.current, hw.writable_eq (by norm_num)]
    omega
  obtain ⟨x, hx, hx', hheld⟩ := hex.fork_exhausted hrep.wf hrun hslot
    (fun _ _ hx => hex.exact_safe hrep.wf hx) hfive hshort
  obtain ⟨hf, -⟩ := fork_forked hrep.wf hrun hslot hfive
  obtain ⟨M', hs, hrep', -⟩ := step_exists (sampleCpu 0) .fork hrep hres
    (hw.booting.checked hw.complete) rfl trivial fun ht => by cases ht
  rw [show (sampleCpu 0).rdi.toNat = 0 from rfl, htrap] at hrep'
  have hok : AnyMemory M (.trap (sampleCpu 0) .fork) := ⟨rfl, fun ht => by cases ht⟩
  have hchild : w.fork.1.Live 2 := by
    rw [Live, hf.state, Function.update_self]
    decide
  generalize w.fork.1 = w' at hrep' hheld hchild
  have hwalk := hrep'.sim.mem.walk_user hrep'.wf hchild
    (show 0x100000 ≤ x * 4096 by omega) (by omega)
  rw [show x * 4096 / 4096 = x by omega, hheld] at hwalk
  obtain ⟨-, howner, -⟩ := hall M' (.next (.start hM) hok hs) 2 ((hrep'.sim.live 2).mpr hchild)
    (x * 4096) (by simp only [procStartAddr]; omega) (by omega) _ hwalk rfl rfl
  apply howner
  have hzero : (⟨0, true⟩ : Ref).frame * 4096 + x * 4096 % 4096 = 0 := by simp
  dsimp only
  rw [hzero, hrep'.sim.info, Nat.zero_div, hrep'.wf.kernel 0 not_usable_zero]
  rfl

end WeensyOS
