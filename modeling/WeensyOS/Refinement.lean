import WeensyOS.BootRefinement

/-!
# Runs of the machine refine runs of the abstract memory manager

`Represents` relates a machine state to a ledger. It holds after the start of the kernel and after
every trap, so an invariant of the ledger becomes an invariant of the machine by one rule. Stores by
user code keep the relation when no page that a process may write is a page table.
-/

namespace WeensyOS
open ByteMemory World Runs

variable {L : KernelLayout} {M M' : Machine} {w : World}

structure Represents (L : KernelLayout) (M : Machine) (w : World) : Prop where
  sim : Sim L M.kernel w
  wf : w.Wf L
  runnable : M.outcome.resumed = true → w.state w.current = .runnable

theorem Represents.live (h : Represents L M w) (hres : M.outcome.resumed = true) :
    w.Live w.current := by
  rw [Live, h.runnable hres]
  decide

theorem boots_represents {images : ℕ → ElfImage} {command : Option String}
    (hfit : ImagesFit L images command) (h : Machine.Boots L images command M) :
    ∃ w, boot L images command = some w ∧ Booting L w ∧ Represents L M w ∧
      M.outcome.resumed = true := by
  obtain ⟨m, k, hk, rfl⟩ := h
  obtain ⟨w, hw, hsim⟩ := kernelMain_refines hfit hk
  obtain ⟨w', hw', hb, hcur, hst⟩ := boot_some hfit
  rw [hw] at hw'
  obtain rfl := Option.some.inj hw'
  refine ⟨w, hw, hb, ⟨hsim, hb.wf, fun _ => ?_⟩, rfl⟩
  rw [hcur, hst, if_pos (one_mem_started command)]

/-! A kernel at the addresses where the linker puts it, and images with two read-only pages and `n`
writable ones. -/

def sampleLayout : KernelLayout where
  startData := 0x45000
  endAddr := 0x57008
  kernelPagetables := 0x52000
  defaultIntHandler := 0x4009c
  virtualMemoryMap := 0x42e14
  pagetables_aligned := by norm_num
  pagetables_lo := by norm_num
  pagetables_hi := by norm_num
  end_le := by norm_num
  handler_mem := by norm_num
  map_mem := by norm_num

def sampleImages (n _program : ℕ) : ElfImage where
  eMagic := elfMagic
  eEntry := procStartAddr
  programs := [⟨elfPtypeLoad, 5, 0x1000, 0x100000, 0x1000, 0x2000⟩,
    ⟨elfPtypeLoad, 6, 0x2000, 0x102000, 0, n * 4096⟩]
  bytes _ := 0

theorem sample_pages (n : ℕ) : (⟨elfPtypeLoad, 5, 0x1000, 0x100000, 0x1000, 0x2000⟩ :
    ElfProgram).pages = 2 ∧
    (⟨elfPtypeLoad, 6, 0x2000, 0x102000, 0, n * 4096⟩ : ElfProgram).pages = n := by
  refine ⟨rfl, ?_⟩
  change (0x102000 % 4096 + n * 4096 + 4095) / 4096 = n
  omega

theorem sample_segments (n program : ℕ) : (sampleImages n program).segments =
    [⟨elfPtypeLoad, 5, 0x1000, 0x100000, 0x1000, 0x2000⟩,
      ⟨elfPtypeLoad, 6, 0x2000, 0x102000, 0, n * 4096⟩] := rfl

theorem sample_demand (n program : ℕ) : (sampleImages n program).demand = 8 + n := by
  obtain ⟨h1, h2⟩ := sample_pages n
  rw [ElfImage.demand, sample_segments, List.map_cons, List.map_cons, h1, h2, List.map_nil,
    List.sum_cons, List.sum_cons, List.sum_nil]
  omega

/-- Every kernel leaves at least the upper half of memory, and the I/O hole is never free. -/
theorem card_freePages_init (L : KernelLayout) :
    256 ≤ (freePages (pageinfoInit L)).card ∧ (freePages (pageinfoInit L)).card ≤ 415 := by
  have hend := L.end_le
  constructor
  · have hsub : Finset.Ico 256 512 ⊆ freePages (pageinfoInit L) := by
      intro x hx
      rw [Finset.mem_Ico] at hx
      have hu : usable L x := by
        rw [usable_iff]
        omega
      simp only [freePages, Finset.mem_filter, Finset.mem_Ico, pageinfoInit_usable hu, and_true]
      omega
    calc 256 = (Finset.Ico 256 512).card := by rw [Nat.card_Ico]
      _ ≤ _ := Finset.card_le_card hsub
  · have hsub : freePages (pageinfoInit L) ⊆ Finset.Ico 1 160 ∪ Finset.Ico 256 512 := by
      intro x hx
      simp only [freePages, Finset.mem_filter, Finset.mem_Ico] at hx
      have hu : usable L x := by
        by_contra hu
        rw [pageinfoInit_refcount hx.1.2 hu] at hx
        omega
      rw [usable_iff] at hu
      simp only [Finset.mem_union, Finset.mem_Ico]
      omega
    calc (freePages (pageinfoInit L)).card ≤ (Finset.Ico 1 160 ∪ Finset.Ico 256 512).card :=
          Finset.card_le_card hsub
      _ ≤ (Finset.Ico 1 160).card + (Finset.Ico 256 512).card := Finset.card_union_le _ _
      _ = 415 := by rw [Nat.card_Ico, Nat.card_Ico]

theorem sample_fits (L : KernelLayout) (n : ℕ) (command : Option String)
    (hn : (8 + n) * (setups command).length ≤ 256) : ImagesFit L (sampleImages n) command := by
  have hroom := (card_freePages_init L).1
  constructor
  · rw [List.map_congr_left fun s _ => sample_demand n s.2, List.map_const',
      List.sum_replicate_nat, mul_comm]
    omega
  · intro s _ ph hph
    rw [sample_segments] at hph
    have hlen : 1 ≤ (setups command).length := by
      unfold setups
      split_ifs <;> simp
    have hn' : 8 + n ≤ 256 := le_trans (Nat.le_mul_of_pos_right _ hlen) hn
    rcases List.mem_pair.mp hph with rfl | rfl
    · exact ⟨by norm_num, by norm_num, by norm_num⟩
    · refine ⟨by norm_num, ?_, by norm_num⟩
      simp only [memsizeVirtual, pageSize]
      omega

theorem sample_disjoint (n : ℕ) (command : Option String) :
    ImagesDisjoint (sampleImages n) command := by
  intro s _
  obtain ⟨h1, h2⟩ := sample_pages n
  rw [sample_segments, List.pairwise_pair]
  rintro i ⟨-, hi⟩ ⟨hi', -⟩
  rw [h1] at hi
  simp only [pageSize] at hi hi'
  omega

theorem sample_boots (L : KernelLayout) (n : ℕ) (command : Option String)
    (hn : (8 + n) * (setups command).length ≤ 256) :
    ∃ M, Machine.Boots L (sampleImages n) command M := by
  obtain ⟨k, w, hk, -, -⟩ := kernelMain_ok (sample_fits L n command hn) (fun _ => 0) fun s _ => by
    refine ⟨rfl, fun ph hph => ?_⟩
    rw [sample_segments] at hph
    rcases List.mem_pair.mp hph with rfl | rfl
    · norm_num
    · exact Nat.zero_le _
  exact ⟨_, _, k, hk, rfl⟩

/-- The ledger of a single process with a sample image: read-only at pages 256 and 257, writable
from 258 on and at the stack page. -/
structure SampleWorld (L : KernelLayout) (n : ℕ) (w : World) : Prop where
  booting : Booting L w
  complete : Complete L w
  current : w.current = 1
  state : ∀ p, w.state p = if p = 1 then .runnable else .free
  code : ∀ i, 256 ≤ i → i < 258 → ∃ f, w.held (1, .page i) = some ⟨f, false⟩
  data : ∀ i, 258 ≤ i → i < 258 + n → ∃ f, w.held (1, .page i) = some ⟨f, true⟩
  stack : ∃ f, w.held (1, .page 767) = some ⟨f, true⟩
  rest : ∀ i, 258 + n ≤ i → i ≠ 767 → w.held (1, .page i) = none
  room : (freePages w.info).card + (8 + n) = (freePages (pageinfoInit L)).card

theorem sample_setup {n : ℕ} (hn : 8 + n ≤ (freePages (pageinfoInit L)).card) (hn' : n ≤ 509)
    {w₀ : World} (h : setup 1 (sampleImages n 4) (initial L) = some w₀) :
    (∀ i, 256 ≤ i → i < 258 → ∃ f, w₀.held (1, .page i) = some ⟨f, false⟩) ∧
      (∀ i, 258 ≤ i → i < 258 + n → ∃ f, w₀.held (1, .page i) = some ⟨f, true⟩) ∧
      (∃ f, w₀.held (1, .page 767) = some ⟨f, true⟩) ∧
      ∀ i, 258 + n ≤ i → i ≠ 767 → w₀.held (1, .page i) = none := by
  obtain ⟨hp₁, hp₂⟩ := sample_pages n
  obtain ⟨w₁, hdup, rfl⟩ := Option.map_eq_some_iff.mp h
  have hcard₁ : (freePages w₁.info).card + 5 = (freePages (pageinfoInit L)).card := by
    obtain ⟨w', hdup', hcard⟩ := duplicate_some (w := (initial L).setState 1 .runnable) 1
      (by rw [setState_info]; change 5 ≤ (freePages (pageinfoInit L)).card; omega)
    rw [hdup] at hdup'
    obtain rfl := Option.some.inj hdup'
    exact hcard
  have hempty (i : ℕ) : w₁.held (1, .page i) = none := by
    rw [duplicate_held_page hdup]
    rfl
  obtain ⟨hcard₂, hcode⟩ := loadPages_held (w := w₁) (p := 1) (n := 2) (i := 256) (by omega)
  set w₂ := loadPages 1 2 256 w₁ with hw₂
  have honly₂ := (loadPages_only 1 2 256 w₁).other
  rw [← hw₂] at honly₂
  set w₃ := protectPages 1 2 256 w₂ with hw₃
  have hcode₃ (i : ℕ) (hi : 256 ≤ i) (hi' : i < 258) :
      ∃ f, w₃.held (1, .page i) = some ⟨f, false⟩ := by
    obtain ⟨f, hf⟩ := hcode i hi hi'
    refine ⟨f, ?_⟩
    rw [hw₃, protectPages_held hi hi', hf]
    rfl
  have hrest₃ (i : ℕ) (hi : 258 ≤ i) : w₃.held (1, .page i) = none := by
    rw [hw₃, (protectPages_only 1 2 256 w₂).other _ fun x hx hx' heq => by
      have := Slot.page.inj (Prod.mk.inj heq).2
      omega, honly₂ _ fun x hx hx' heq => by
      have := Slot.page.inj (Prod.mk.inj heq).2
      omega]
    exact hempty i
  have hcard₃ : (freePages w₃.info).card = (freePages w₂.info).card := by
    rw [hw₃, protectPages_info]
  obtain ⟨hcard₄, hdata⟩ := loadPages_held (w := w₃) (p := 1) (n := n) (i := 258) (by omega)
  have honly₄ := (loadPages_only 1 n 258 w₃).other
  have himage : loadImage 1 (sampleImages n 4) w₁ = loadPages 1 n 258 w₃ := by
    rw [loadImage, sample_segments, List.foldl_cons, List.foldl_cons, List.foldl_nil]
    unfold loadSegment
    rw [hp₁, hp₂]
    simp [hw₂, hw₃]
  obtain ⟨pn, hpn⟩ := exists_lowestFree
    (show 0 < (freePages (loadPages 1 n 258 w₃).info).card by omega)
  rw [himage, stack_eq hpn]
  have hother (i : ℕ) (hi : i ≠ 767) : ((loadPages 1 n 258 w₃).give 1 (.page 767) pn).held
      (1, .page i) = (loadPages 1 n 258 w₃).held (1, .page i) := by
    rw [give_held, Function.update_of_ne (by simp [hi])]
  refine ⟨fun i hi hi' => ?_, fun i hi hi' => ?_, ⟨pn, by simp⟩, fun i hi hi' => ?_⟩
  · rw [hother i (by omega), honly₄ _ fun x hx hx' heq => by
      have := Slot.page.inj (Prod.mk.inj heq).2
      omega]
    exact hcode₃ i hi hi'
  · rw [hother i (by omega)]
    exact hdata i hi hi'
  · rw [hother i hi', honly₄ _ fun x hx hx' heq => by
      have := Slot.page.inj (Prod.mk.inj heq).2
      omega]
    exact hrest₃ i (by omega)

theorem sample_world (L : KernelLayout) {n : ℕ} (hn : 8 + n ≤ 256)
    (h : Machine.Boots L (sampleImages n) (some "fork") M) :
    ∃ w, SampleWorld L n w ∧ Represents L M w ∧ M.outcome.resumed = true := by
  have hfit := sample_fits L n (some "fork") (by simpa [setups] using hn)
  obtain ⟨w, hboot, hb, hrep, hres⟩ := boots_represents hfit h
  obtain ⟨w', hboot', -, hcur, hst⟩ := boot_some hfit
  rw [hboot] at hboot'
  obtain rfl := Option.some.inj hboot'
  have hinit := (card_freePages_init L).1
  obtain ⟨w₀, hfold, hw₀⟩ := Option.map_eq_some_iff.mp hboot
  rw [show setups (some "fork") = [(1, 4)] from rfl, List.foldlM_cons, Option.bind_eq_bind,
    Option.bind_eq_some_iff] at hfold
  obtain ⟨w₁, hsetup, hpure⟩ := hfold
  obtain rfl : w₁ = w₀ := Option.some.inj hpure
  obtain ⟨w₂, hsetup', -, -, -, hcard⟩ := setup_some (p := 1) (sampleImages n 4) (booting_initial L)
    (by norm_num)
    (by norm_num) (show (sampleImages n 4).demand ≤ (freePages (initial L).info).card by
      rw [sample_demand]; exact hn.trans hinit) (hfit.inside (1, 4) (by simp [setups]))
  rw [hsetup] at hsetup'
  obtain rfl := Option.some.inj hsetup'
  rw [sample_demand] at hcard
  obtain ⟨hcode, hdata, hstack, hrest⟩ := sample_setup (hn.trans hinit) (by omega) hsetup
  subst hw₀
  refine ⟨_, ⟨hb, boot_complete hfit (sample_disjoint n _) hboot, hcur, fun p => ?_, hcode, hdata,
    hstack, hrest, hcard⟩, hrep, hres⟩
  rw [hst p]
  simp [started, setups]

/-- A register file with only the argument of a system call set. -/
def sampleCpu (rdi : BitVec 64) : Cpu :=
  { exceptionReturn (processInit 0) with rdi := rdi }

/-- The part of `AllocOk` that the kernel does not check. -/
def World.AllocHigh (w : World) (addr : ℕ) : Prop :=
  procStartAddr ≤ addr → (lowestFree w.info).isSome → inTree addr → addr % 4096 = 0 →
    256 ≤ addr / 4096 % 1024

/-- One trap that the kernel survives is one trap of the ledger. -/
theorem step_refines {cpu : Cpu} {t : Trap} (h : Represents L M w) (ht : t.ordinary = true)
    (hhigh : t = .pageAlloc → w.AllocHigh cpu.rdi.toNat)
    (hs : M.step L (.trap cpu t) = some M') :
    w.Checked L ∧ t.user ∧ Represents L M' (w.trap t cpu.rdi.toNat).1 ∧
      M'.outcome = (w.trap t cpu.rdi.toNat).2 ∧
      AgreeOff 4096 (TrapTouched w (w.dispatch t cpu.rdi.toNat).1 (w.dispatch t cpu.rdi.toNat).2)
        M.kernel.mem M'.kernel.mem := by
  obtain ⟨hres, k, o, he, rfl⟩ := Machine.step_trap hs
  have hrun := h.live hres
  obtain ⟨huser, hchk, halign⟩ := exception_checked h.sim h.wf ht he
  have halloc (hp : t = .pageAlloc) : w.AllocOk cpu.rdi.toNat :=
    ⟨halign hp, fun hlow hfree hin => hhigh hp hlow hfree hin (halign hp hlow hfree)⟩
  obtain ⟨k', he', hsim, ha⟩ := exception_ok h.sim h.wf hrun hchk ht huser halloc
  rw [he] at he'
  obtain ⟨rfl, rfl⟩ := Prod.mk.inj (Except.ok.inj he')
  exact ⟨hchk, huser, ⟨hsim, h.wf.trap hchk hrun t halloc, trap_runnable h.wf hchk hrun t halloc⟩,
    rfl, ha⟩

/-- Conversely, from a state that passes the check the kernel survives every well-formed trap. -/
theorem step_exists (cpu : Cpu) (t : Trap) (h : Represents L M w) (hres : M.outcome.resumed = true)
    (hchk : w.Checked L) (ht : t.ordinary = true) (huser : t.user)
    (halloc : t = .pageAlloc → w.AllocOk cpu.rdi.toNat) :
    ∃ M', M.step L (.trap cpu t) = some M' ∧ Represents L M' (w.trap t cpu.rdi.toNat).1 ∧
      M'.outcome = (w.trap t cpu.rdi.toNat).2 := by
  obtain ⟨k', he, hsim, -⟩ := exception_ok h.sim h.wf (h.live hres) hchk ht huser halloc
  exact ⟨_, Machine.step_trap_eq hres he, ⟨hsim, h.wf.trap hchk (h.live hres) t halloc,
    trap_runnable h.wf hchk (h.live hres) t halloc⟩, rfl⟩

/-- No page that a live process may write is a table. -/
def World.TablesSafe (w : World) : Prop :=
  ∀ p i pn, w.held (p, .page i) = some ⟨pn, true⟩ → ∀ q, w.Live q → ∀ j, pn ≠ w.frames q j

/-- What a store by user code writes to: the console, or a page that its process holds writable. -/
theorem store_target {va : ℕ} {b : UInt8} (h : Represents L M w)
    (hs : M.step L (.store va b) = some M') :
    ∃ a, M' = ⟨{ M.kernel with mem := Function.update M.kernel.mem a b }, M.cpu, .run⟩ ∧
      ((va = a ∧ a / 4096 = consolePage) ∨ 0x100000 ≤ va ∧ va < 0x400000 ∧
        ∃ f, w.held (w.current, .page (va / 4096)) = some ⟨f, true⟩ ∧
          a = f * 4096 + va % 4096) := by
  have hrun := h.live (Machine.step_resumed hs)
  obtain ⟨t, hwalk, hva, hwr, hus, rfl⟩ := Machine.step_store hs
  refine ⟨t.pa, rfl, ?_⟩
  rw [Kernel.currentProc, h.sim.current] at hwalk
  rcases h.sim.mem.walk_cases h.wf hrun (by omega) hwalk hus with
    ⟨-, hpa, hcons⟩ | ⟨hlo, hhi, r, hr, rfl⟩
  · exact Or.inl ⟨hpa.symm, by rwa [hpa]⟩
  · refine Or.inr ⟨hlo, hhi, r.frame, ?_, rfl⟩
    rw [hr, ← hwr]

theorem step_store_represents {va : ℕ} {b : UInt8} (h : Represents L M w) (hsafe : w.TablesSafe)
    (hs : M.step L (.store va b) = some M') : Represents L M' w := by
  have hres := Machine.step_resumed hs
  obtain ⟨a, rfl, htarget⟩ := store_target h hs
  have hkernel (j : Fin 5) : L.tables j ≠ a / 4096 := by
    intro hj
    rcases htarget with ⟨-, hc⟩ | ⟨-, -, f, hf, rfl⟩
    · have := L.tables_range j
      simp only [consolePage] at hc
      omega
    · rw [show (f * 4096 + va % 4096) / 4096 = f by omega] at hj
      rcases h.wf.page_frame _ _ _ hf with hu | ⟨h0, -⟩
      · exact not_usable_tables j (hj ▸ hu)
      · exact zero_ne_tables j (h0.symm.trans hj.symm)
  have htables (q : ℕ) (hq : w.Live q) (j : Fin 5) : w.frames q j ≠ a / 4096 := by
    intro hj
    rcases htarget with ⟨-, hc⟩ | ⟨-, -, f, hf, rfl⟩
    · exact not_usable_console (hj.trans hc ▸ h.wf.frames_usable hq j)
    · rw [show (f * 4096 + va % 4096) / 4096 = f by omega] at hj
      exact hsafe _ _ _ hf q hq j hj.symm
  have hmem := h.sim.mem.frame (agreeOff_update 4096 M.kernel.mem a b) hkernel htables
  exact ⟨⟨h.sim.info, h.sim.state, h.sim.pid, h.sim.current, hmem⟩, h.wf, fun _ => h.runnable hres⟩

/-- The events that `step_refines` and `step_store_represents` speak about. -/
def World.Admits (w : World) : Event → Prop
  | .store _ _ => w.TablesSafe
  | .trap cpu t => t.ordinary = true ∧ (t = .pageAlloc → w.AllocHigh cpu.rdi.toNat)

/-- Some ledger with the property `Inv` describes the machine. -/
def Tracks (L : KernelLayout) (Inv : World → Prop) (M : Machine) : Prop :=
  ∃ w, Represents L M w ∧ Inv w

/-- An invariant of the ledger that holds after the start and survives the admitted traps holds of a
ledger for every reachable state. -/
theorem reach_represents {images : ℕ → ElfImage} {command : Option String}
    {ok : Machine → Event → Prop} {Inv : World → Prop} (hfit : ImagesFit L images command)
    (hboot : ∀ w, boot L images command = some w → Booting L w → Inv w)
    (hok : ∀ M w e, Represents L M w → Inv w → ok M e → w.Admits e)
    (hstep : ∀ M w cpu t, Represents L M w → M.outcome.resumed = true → w.Checked L → Inv w →
      ok M (.trap cpu t) → Inv (w.trap t cpu.rdi.toNat).1)
    (h : Machine.Reach L images command ok M) : Tracks L Inv M := by
  refine h.invariant (fun M hM => ?_) fun M e M' hM he hs => ?_
  · obtain ⟨w, hboot', hb, hw, -⟩ := boots_represents hfit hM
    exact ⟨w, hw, hboot w hboot' hb⟩
  · obtain ⟨w, hw, hinv⟩ := hM
    have hadm := hok M w e hw hinv he
    cases e with
    | store va b => exact ⟨w, step_store_represents hw hadm hs, hinv⟩
    | trap cpu t =>
        obtain ⟨hchk, -, hw', -, -⟩ := step_refines hw hadm.1 hadm.2 hs
        exact ⟨_, hw', hstep M w cpu t hw (Machine.step_resumed hs) hchk hinv he⟩

end WeensyOS
