import WeensyOS.SystemRuns
import WeensyOS.ProcessSetup

/-!
# The system at boot, and the programs' code

`kernel(command)` starts one process for each image, with the bytes of the image in its memory. No
disciplined run ever changes the read-only part of it, in the process or in its descendants.
-/

namespace WeensyOS
open ByteMemory World Runs

variable {L : KernelLayout} {images : ℕ → ElfImage} {command : Option String} {M M' : Machine}
  {w w' : World} {k k' : Kernel} {p : ℕ}

def ElfProgram.writable (ph : ElfProgram) : Bool := ph.pFlags &&& elfPflagWrite ≠ 0

/-- The bytes of the image that the loader copies for the segment. -/
def ElfImage.source (image : ElfImage) (ph : ElfProgram) (i : ℕ) : UInt8 :=
  image.bytes (ph.pOffset + i)

/-- The memory of a process that is about to run the image. -/
structure ElfImage.Loads (image : ElfImage) (memory : ℕ → Option Cell) : Prop where
  page : ∀ ph ∈ image.segments, ∀ va, va / pageSize ∈ ph.range →
    ∃ b, memory va = some ⟨ph.writable, b⟩
  byte : ∀ ph ∈ image.segments, ∀ va, ph.pVa / pageSize * pageSize ≤ va →
    va < ph.pVa + ph.pMemsz → memory va = some ⟨ph.writable, segmentByte ph (image.source ph) va⟩
  stack : ∀ va, va / pageSize = stackPage → ∃ b, memory va = some ⟨true, b⟩
  outside : ∀ va, va / pageSize ∉ segmentPages image.segments → va / pageSize ≠ stackPage →
    memory va = none

/-- A process that has just been set up. -/
structure Process.Starts (image : ElfImage) (p : Process) : Prop where
  cpu : p.cpu = exceptionReturn image.registers
  memory : image.Loads p.memory
  runnable : p.runnable = true

section setup
variable {pid : ℕ} {l : List ElfProgram} {T : Fin 5 → ℕ} {f perm : ℕ → ℕ} {m₁ : Memory}
  {info₁ : PageInfos} (h : SetUp L k k' pid l T f perm m₁ info₁)

include h

theorem SetUp.memory_mem {va : ℕ} (hva : va / 4096 ∈ Finset.Ico 256 768)
    (hx : va / 4096 ∈ segmentPages l ∪ {stackPage}) (hu : perm (va / 4096) &&& pteU ≠ 0) :
    k'.memory pid va = some ⟨perm (va / 4096) &&& pteW ≠ 0, k'.mem (placedAt f va)⟩ := by
  obtain ⟨hlo, hhi⟩ := Finset.mem_Ico.mp hva
  have hin : inTree va := by
    unfold inTree
    omega
  obtain ⟨hp, hlt⟩ := h.perm_mem hx
  have hf := (h.loaded.received.page hx).2.1
  have hmod : va / 4096 % 1024 = va / 4096 := by omega
  rw [Kernel.memory, if_pos (by simp only [procStartAddr, memsizeVirtual]; omega), Kernel.view,
    h.root, h.loaded.tree.walk_eq, if_pos hin, hmod, placed_mem hx, Translation.ofEntry,
    frame_and_flag hlt (by norm_num), frame_and_flag hlt (by norm_num),
    frame_and_flag hlt (by norm_num), if_pos hp, pteAddr_frame (by omega) hlt, pageOffset_eq]
  dsimp only [Option.map_some]
  rw [if_pos (decide_eq_true hu)]
  rfl

theorem SetUp.memory_not_mem {va : ℕ} (hx : va / 4096 ∉ segmentPages l ∪ {stackPage}) :
    k'.memory pid va = none := by
  by_cases hva : procStartAddr ≤ va ∧ va < memsizeVirtual
  · obtain ⟨hlo, hhi⟩ := hva
    simp only [procStartAddr, memsizeVirtual] at hlo hhi
    have hin : inTree va := by
      unfold inTree
      omega
    rw [Kernel.memory, if_pos ⟨hlo, hhi⟩, Kernel.view, h.root, h.loaded.tree.walk_eq, if_pos hin,
      show va / 4096 % 1024 = va / 4096 by omega, placed_not_mem hx, kernelOnly,
      if_neg (by omega)]
    rfl
  · exact Kernel.memory_outside hva

end setup

theorem ElfProgram.perm_flags (ph : ElfProgram) : ph.perm &&& pteU ≠ 0 ∧
    (decide (ph.perm &&& pteW ≠ 0)) = ph.writable := by
  unfold ElfProgram.perm ElfProgram.writable
  split_ifs with h
  · rw [h]
    decide
  · rw [decide_eq_true h]
    decide

theorem ElfProgram.Inside.range_sub {ph : ElfProgram} (h : ph.Inside) :
    ph.range ⊆ Finset.Ico 256 767 := by
  obtain ⟨hlo, hhi⟩ := h.pages_le
  intro x hx
  obtain ⟨hx, hx'⟩ := Finset.mem_Ico.mp hx
  exact Finset.mem_Ico.mpr ⟨hlo.trans hx, hx'.trans_le hhi⟩

/-- Images that fit and do not overlap lie apart. -/
theorem ElfImage.Sound.apart {image : ElfImage} (h : image.Sound)
    (hin : ∀ ph ∈ image.segments, ph.Inside)
    (hd : image.segments.Pairwise (fun a b => ∀ i, a.covers i → ¬ b.covers i)) :
    Apart image.segments ∧ segmentPages image.segments ⊆ Finset.Ico 256 767 := by
  refine ⟨⟨fun ph hph => ⟨?_, h.files ph hph, fun x hx => ?_⟩, hd.imp fun hab => ?_⟩, fun x hx => ?_⟩
  · have hmem := (hin ph hph).mem
    simp only [memsizeVirtual, pageSize] at hmem
    omega
  · obtain ⟨hlo, hhi⟩ := Finset.mem_Ico.mp ((hin ph hph).range_sub hx)
    exact Finset.mem_Ico.mpr ⟨hlo, by omega⟩
  · exact Finset.disjoint_left.mpr fun x hx hx' =>
      hab x (Finset.mem_Ico.mp hx) (Finset.mem_Ico.mp hx')
  · obtain ⟨ph, hph, hx⟩ := mem_segmentPages.mp hx
    exact (hin ph hph).range_sub hx

theorem SetUp.loads {pid : ℕ} {image : ElfImage} {T : Fin 5 → ℕ} {f perm : ℕ → ℕ} {m₁ : Memory}
    {info₁ : PageInfos} (h : SetUp L k k' pid image.segments T f perm m₁ info₁)
    (hrange : segmentPages image.segments ⊆ Finset.Ico 256 767)
    (hbytes : ∀ ph ∈ image.segments, ∀ x, ph.pVa / 4096 * 4096 ≤ x → x < ph.pVa + ph.pMemsz →
      k'.mem (placedAt f x) = segmentByte ph (image.source ph) x) :
    image.Loads (k'.memory pid) := by
  have hpage {ph : ElfProgram} (hph : ph ∈ image.segments) {va : ℕ}
      (hva : va / 4096 ∈ ph.range) :
      k'.memory pid va = some ⟨ph.writable, k'.mem (placedAt f va)⟩ := by
    obtain ⟨hu, hw⟩ := ph.perm_flags
    have hmem := mem_segmentPages.mpr ⟨ph, hph, hva⟩
    obtain ⟨hlo, hhi⟩ := Finset.mem_Ico.mp (hrange hmem)
    have hperm := h.segment ph hph _ hva
    rw [h.memory_mem (Finset.mem_Ico.mpr ⟨hlo, by omega⟩) (Finset.mem_union_left _ hmem)
      (by rwa [hperm]), hperm, hw]
  constructor
  · exact fun ph hph va hva => ⟨_, hpage hph hva⟩
  · intro ph hph va hlo hhi
    rw [hpage hph (ElfProgram.mem_range hlo hhi), hbytes ph hph va hlo hhi]
  · intro va hva
    simp only [stackPage, memsizeVirtual, pageSize, Nat.reduceSub, Nat.reduceDiv] at hva
    have hperm := h.stack
    simp only [stackPage, memsizeVirtual, pageSize, Nat.reduceSub, Nat.reduceDiv] at hperm
    refine ⟨k'.mem (placedAt f va), (h.memory_mem (Finset.mem_Ico.mpr (by omega))
      (Finset.mem_union_right _ (by rw [hva]; exact Finset.mem_singleton_self _))
      (by rw [hva, hperm]; decide)).trans ?_⟩
    rw [hva, hperm]
    rfl
  · intro va hout hstack
    exact h.memory_not_mem fun hc => (Finset.mem_union.mp hc).elim hout fun hc =>
      hstack (Finset.mem_singleton.mp hc)

theorem Sim.represents (h : Sim L k w) (hwf : w.Wf L) : Represents L ⟨k, Cpu.zero, .spin⟩ w :=
  ⟨h, hwf, nofun⟩

theorem Sim.memory_eq (h : Sim L k w) (hwf : w.Wf L) (hp : w.Live p) (va : ℕ) :
    k.memory p va = if procStartAddr ≤ va ∧ va < memsizeVirtual then
      (w.held (p, .page (va / 4096))).map (fun r =>
        ⟨r.writable, k.mem (r.frame * 4096 + va % 4096)⟩)
      else none := by
  split_ifs with hva
  · exact (h.represents hwf).memory_eq hp hva
  · exact Kernel.memory_outside hva

section boot
variable {program : ℕ} (h : Sim L k w) (hb : Booting L w) (hp1 : 1 ≤ p) (hp16 : p < 16)
  (hfree : w.state p = .free) (hroom : (images program).demand ≤ (freePages w.info).card)
  (hin : ∀ ph ∈ (images program).segments, ph.Inside) (hprog : program < nPrograms)
  (hsound : (images program).Sound)
  (hd : (images program).segments.Pairwise (fun a b => ∀ i, a.covers i → ¬ b.covers i))
  (hk : processSetup L images k p program = .ok k')

include h hb hp1 hp16 hroom hin hprog hsound hd hk

/-- One `process_setup` of `kernel()`. What was in use before is still there. -/
theorem processSetup_starts : (images program).Loads (k'.memory p) ∧
    (k'.processes p).registers = (images program).registers ∧
    ∀ pn, (k.pageinfo pn).refcount ≠ 0 → ∀ o < 4096,
      k'.mem (pn * 4096 + o) = k.mem (pn * 4096 + o) := by
  have hready : SetupReady L k p := by
    refine ⟨h.mem.kernel, fun j => ?_, ⟨hp1, hp16⟩, h.pid p⟩
    rw [h.info, hb.wf.kernel _ (not_usable_tables j), pageinfoInit_tables]
    norm_num
  obtain ⟨hapart, hrange⟩ := hsound.apart hin hd
  obtain ⟨k₁, T, f, perm, m₁, info₁, hk₁, hset, hregs, hbytes⟩ := processSetup_contents images hready
    hprog hsound.magic hapart (fun hc => absurd (Finset.mem_Ico.mp (hrange hc)).2 (by norm_num))
    (by rwa [h.info])
  obtain rfl := Except.ok.inj (hk.symm.trans hk₁)
  exact ⟨hset.loads hrange hbytes, hregs, fun pn hpn => (hset.kept hpn).2⟩

end boot

/-- A process that is running keeps its memory and its registers while another one is set up. -/
theorem processSetup_others {image : ElfImage} {program : ℕ} (h : Sim L k w) (hb : Booting L w)
    (h' : Sim L k' w') (hb' : Booting L w') (hk : processSetup L images k p program = .ok k')
    (hw : World.setup p image w = some w')
    (hkept : ∀ pn, (k.pageinfo pn).refcount ≠ 0 → ∀ o < 4096,
      k'.mem (pn * 4096 + o) = k.mem (pn * 4096 + o)) {q : ℕ} (hq : q ≠ p) (hlive : w.Live q)
    (hlive' : w'.Live q) :
    k'.memory q = k.memory q ∧ (k'.processes q).registers = (k.processes q).registers := by
  obtain ⟨-, p', -, -, hproc⟩ := processSetup_inv hk
  refine ⟨funext fun va => ?_, by rw [hproc, Function.update_of_ne hq]⟩
  rw [h'.memory_eq hb'.wf hlive', h.memory_eq hb.wf hlive, World.setup_held_of_ne hw hq]
  split_ifs
  · cases hr : w.held (q, .page (va / 4096)) with
    | none => rfl
    | some r =>
        have hused : (k.pageinfo r.frame).refcount ≠ 0 := by
          rw [h.info, hb.counted _ _ _ hr]
          norm_num
        rw [Option.map_some, Option.map_some, hkept _ hused _ (Nat.mod_lt _ (by norm_num))]
  · rfl

/-- The processes that `kernel()` sets up one after the other. -/
theorem processSetups_start {l : List (ℕ × ℕ)} (h : Sim L k w) (hb : Booting L w)
    (hl : ∀ s ∈ l, 1 ≤ s.1 ∧ s.1 < 16) (hnd : (l.map Prod.fst).Nodup)
    (hfree : ∀ s ∈ l, w.state s.1 = .free)
    (hroom : (l.map (fun s => (images s.2).demand)).sum ≤ (freePages w.info).card)
    (hin : ∀ s ∈ l, ∀ ph ∈ (images s.2).segments, ph.Inside)
    (hsound : ∀ s ∈ l, s.2 < nPrograms ∧ (images s.2).Sound)
    (hd : ∀ s ∈ l, (images s.2).segments.Pairwise (fun a b => ∀ i, a.covers i → ¬ b.covers i))
    (hk : l.foldlM (fun k s => processSetup L images k s.1 s.2) k = .ok k') :
    (∀ s ∈ l, (images s.2).Loads (k'.memory s.1) ∧
      (k'.processes s.1).registers = (images s.2).registers) ∧
    ∀ q, w.Live q → k'.memory q = k.memory q ∧
      (k'.processes q).registers = (k.processes q).registers := by
  induction l generalizing k w with
  | nil =>
      obtain rfl := Except.ok.inj hk
      exact ⟨fun s hs => by simp at hs, fun q _ => ⟨rfl, rfl⟩⟩
  | cons s l ih =>
      rw [List.map_cons, List.sum_cons] at hroom
      rw [List.map_cons, List.nodup_cons] at hnd
      rw [List.foldlM_cons, bind_eq_ok] at hk
      obtain ⟨k₁, hk₁, hk⟩ := hk
      obtain ⟨hs1, hs16⟩ := hl s (by simp)
      have hfree₁ := hfree s (by simp)
      have hin₁ := hin s (by simp)
      have hsound₁ := hsound s (by simp)
      have hroom₁ : (images s.2).demand ≤ (freePages w.info).card := by omega
      obtain ⟨w₁, hw₁, hb₁, hst₁, -, hcard₁⟩ := setup_some (images s.2) hb hs1 hs16 hroom₁ hin₁
      obtain ⟨k₂, w₂, hk₂, hw₂, hsim₁⟩ :=
        processSetup_ok h hb hs1 hs16 hfree₁ hroom₁ hin₁ hsound₁.1 hsound₁.2
      obtain rfl := Except.ok.inj (hk₁.symm.trans hk₂)
      obtain rfl := Option.some.inj (hw₁.symm.trans hw₂)
      obtain ⟨hloads, hregs, hkept⟩ := processSetup_starts h hb hs1 hs16 hroom₁ hin₁ hsound₁.1
        hsound₁.2 (hd s (by simp)) hk₁
      have hlive₁ {q : ℕ} (hq : w.Live q) : q ≠ s.1 ∧ w₁.Live q := by
        have hne : q ≠ s.1 := fun heq => hq (heq ▸ hfree₁)
        exact ⟨hne, by rwa [Live, hst₁, Function.update_of_ne hne]⟩
      have hlive : w₁.Live s.1 := by
        rw [Live, hst₁, Function.update_self]
        decide
      obtain ⟨hrest, hold⟩ := ih hsim₁ hb₁ (fun s' hs' => hl s' (by simp [hs'])) hnd.2
        (fun s' hs' => by
          have hne : s'.1 ≠ s.1 := fun heq => hnd.1 (heq ▸ List.mem_map_of_mem hs')
          rw [hst₁, Function.update_of_ne hne]
          exact hfree s' (by simp [hs'])) (by omega) (fun s' hs' => hin s' (by simp [hs']))
        (fun s' hs' => hsound s' (by simp [hs'])) (fun s' hs' => hd s' (by simp [hs'])) hk
      refine ⟨fun s' hs' => ?_, fun q hq => ?_⟩
      · rcases List.mem_cons.mp hs' with rfl | hs'
        · obtain ⟨hmem, hreg⟩ := hold s'.1 hlive
          refine ⟨?_, hreg.trans hregs⟩
          rw [hmem]
          exact hloads
        · exact hrest s' hs'
      · obtain ⟨hne, hq₁⟩ := hlive₁ hq
        obtain ⟨hmem, hreg⟩ := hold q hq₁
        obtain ⟨hmem₁, hreg₁⟩ := processSetup_others h hb hsim₁ hb₁ hk₁ hw₁ hkept hne hq hq₁
        exact ⟨hmem.trans hmem₁, hreg.trans hreg₁⟩

section boots
variable (hfit : ImagesFit L images command) (hM : Machine.Boots L images command M)

include hfit hM

theorem boots_process (hdisj : ImagesDisjoint images command) {s : ℕ × ℕ}
    (hs : s ∈ setups command) :
    ∃ p, M.kernel.system.process s.1 = some p ∧ p.Starts (images s.2) := by
  obtain ⟨m, k, hk, rfl⟩ := hM
  have hsound := kernelMain_sound hfit hk
  obtain ⟨w, hw, hsim⟩ := kernelMain_refines hfit hk
  obtain ⟨w', hw', hb, -, hst⟩ := boot_some hfit
  obtain rfl := Option.some.inj (hw.symm.trans hw')
  obtain ⟨k₀, hsim₀, heq⟩ := kernelMain_eq L images m command
  rw [heq, bind_eq_ok] at hk
  obtain ⟨k₁, hk₁, hrun⟩ := hk
  obtain ⟨hstarts, -⟩ := processSetups_start hsim₀ (booting_initial L) (setups_pid command)
    (setups_nodup command) (fun _ _ => rfl) hfit.room hfit.inside
    (fun s hs => ⟨setups_program command s hs, hsound s hs⟩) hdisj hk₁
  obtain ⟨-, rfl⟩ := run_inv hrun
  have hstate : w.state s.1 = .runnable := (hst _).trans (if_pos (List.mem_map_of_mem hs))
  obtain ⟨hloads, hregs⟩ := hstarts s hs
  refine ⟨_, ((hsim.represents hb.wf).process_eq s.1).trans (if_neg (by rw [hstate]; decide)), ?_,
    hloads, decide_eq_true hstate⟩
  exact congrArg exceptionReturn hregs

theorem boots_process_none : M.kernel.system.process p = none ↔ p ∉ started command := by
  obtain ⟨w, hw, hb, hrep, -⟩ := boots_represents hfit hM
  obtain ⟨w', hw', -, -, hst⟩ := boot_some hfit
  obtain rfl := Option.some.inj (hw.symm.trans hw')
  refine (hrep.process_eq_none p).trans ?_
  rw [hst]
  split_ifs with hp <;> simp [hp]

theorem boots_current : M.kernel.current = 1 := by
  obtain ⟨w, hw, -, hrep, -⟩ := boots_represents hfit hM
  obtain ⟨w', hw', -, hcur, -⟩ := boot_some hfit
  obtain rfl := Option.some.inj (hw.symm.trans hw')
  exact hrep.sim.current.trans hcur

end boots

/-- The read-only segments of the image are in the memory. -/
def ElfImage.CodeIn (image : ElfImage) (memory : ℕ → Option Cell) : Prop :=
  ∀ ph ∈ image.segments, ph.writable = false → ∀ va, ph.pVa / pageSize * pageSize ≤ va →
    va < ph.pVa + ph.pMemsz → memory va = some ⟨false, segmentByte ph (image.source ph) va⟩

namespace System

variable {S S' : System} {e : Event} {o : Outcome} {P : (ℕ → Option Cell) → Prop}

def Every (P : (ℕ → Option Cell) → Prop) (S : System) : Prop :=
  ∀ p q, S.process p = some q → P q.memory

theorem Every.set (h : S.Every P) {p : ℕ} {q : Process} (hq : P q.memory) :
    (S.set p (some q)).Every P := by
  intro x y hx
  rw [set_process] at hx
  split_ifs at hx
  · obtain rfl := Option.some.inj hx
    exact hq
  · exact h x y hx

theorem Every.remove (h : S.Every P) (p : ℕ) : (S.set p none).Every P := by
  intro x y hx
  rw [set_process] at hx
  split_ifs at hx
  exact h x y hx

theorem Every.switch (h : S.Every P) (hs : S.Switch S' o) : S'.Every P := by
  cases hs with
  | schedule => exact h
  | spin => exact h

/-- The memory properties that stores to writable cells and new pages keep. -/
structure Stable (P : (ℕ → Option Cell) → Prop) : Prop where
  store : ∀ p : Process, P p.memory → ∀ va b c, p.memory va = some ⟨true, c⟩ →
    P (p.store va b).memory
  addPage : ∀ p : Process, P p.memory → ∀ addr contents,
    (∀ va, va / pageSize = addr / pageSize → p.memory va = none) →
    P (p.addPage addr contents).memory

theorem Every.step (h : S.Every P) (hP : Stable P) (hs : S.Step e S' o) : S'.Every P := by
  cases hs with
  | console => exact h
  | store hp hcell => exact h.set (hP.store _ (h _ _ hp) _ _ _ hcell)
  | pageAlloc hp hnew => exact h.set (hP.addPage _ (h _ _ hp) _ _ hnew)
  | fork hp =>
      have hq := h _ _ hp
      refine Every.set (h.set ?_) ?_ <;> exact hq
  | exit hs => exact (h.remove _).switch hs
  | leave _ hp hs | fault hp hs =>
      have hq := h _ _ hp
      refine Every.switch (h.set ?_) hs
      exact hq
  | getpid hp | memoryFull hp | noSlot hp =>
      have hq := h _ _ hp
      exact h.set hq

end System

/-- What every image has when it is loaded, every process has in a disciplined run. -/
theorem reach_every (hfit : ImagesFit L images command) (hdisj : ImagesDisjoint images command)
    {P : (ℕ → Option Cell) → Prop} (hP : System.Stable P)
    (hstart : ∀ s ∈ setups command, ∀ memory, (images s.2).Loads memory → P memory)
    (h : Machine.Reach L images command Disciplined M) : M.kernel.system.Every P := by
  induction h with
  | start hM =>
      intro p q hq
      by_cases hp : p ∈ started command
      · obtain ⟨s, hs, rfl⟩ := List.mem_map.mp hp
        obtain ⟨q', hq', hq₀⟩ := boots_process hfit hM hdisj hs
        obtain rfl := Option.some.inj (hq.symm.trans hq')
        exact hstart s hs _ hq₀.memory
      · rw [(boots_process_none hfit hM).mpr hp] at hq
        cases hq
  | next hreach hd hs ih =>
      obtain ⟨w, hw, hex⟩ := reach_exact hfit hdisj (fun _ _ he => he) hreach
      exact ih.step hP (step_system hw hex hd hs)

theorem ElfImage.CodeIn.store {image : ElfImage} {p : Process} (h : image.CodeIn p.memory)
    {va : ℕ} (b : UInt8) {c : UInt8} (hcell : p.memory va = some ⟨true, c⟩) :
    image.CodeIn (p.store va b).memory := by
  intro ph hph hro x hlo hhi
  have hx := h ph hph hro x hlo hhi
  have hne : x ≠ va := by
    rintro rfl
    rw [hcell] at hx
    cases hx
  exact (Function.update_of_ne hne _ _).trans hx

theorem ElfImage.CodeIn.addPage {image : ElfImage} {p : Process} (h : image.CodeIn p.memory)
    {addr : ℕ} (contents : ℕ → UInt8)
    (hnew : ∀ va, va / pageSize = addr / pageSize → p.memory va = none) :
    image.CodeIn (p.addPage addr contents).memory := by
  intro ph hph hro x hlo hhi
  have hx := h ph hph hro x hlo hhi
  refine (if_neg fun hpage => ?_).trans hx
  rw [hnew x hpage] at hx
  cases hx

/-- Every process runs unchanged code: the read-only segments of an image that was started are, byte
for byte, in its memory. -/
theorem reach_code (hfit : ImagesFit L images command) (hdisj : ImagesDisjoint images command)
    (h : Machine.Reach L images command Disciplined M) {p : ℕ} {q : Process}
    (hp : M.kernel.system.process p = some q) :
    ∃ s ∈ setups command, (images s.2).CodeIn q.memory := by
  refine reach_every (P := fun memory => ∃ s ∈ setups command, (images s.2).CodeIn memory)
    hfit hdisj ⟨?_, ?_⟩ (fun s hs memory hm => ⟨s, hs, fun ph hph hro va hlo hhi => ?_⟩) h p q hp
  · rintro p ⟨s, hs, hcode⟩ va b c hcell
    exact ⟨s, hs, hcode.store b hcell⟩
  · rintro p ⟨s, hs, hcode⟩ addr contents hnew
    exact ⟨s, hs, hcode.addPage contents hnew⟩
  · exact (hm.byte ph hph va hlo hhi).trans (by rw [hro])

theorem reach_code_sample : ∃ M q, Machine.Boots sampleLayout (sampleImages 0) (some "fork") M ∧
    M.kernel.system.process 1 = some q ∧ ∃ s ∈ setups (some "fork"),
      (sampleImages 0 s.2).CodeIn q.memory := by
  obtain ⟨M, hM⟩ := sample_boots sampleLayout 0 (some "fork") (by decide)
  have hfit := sample_fits sampleLayout 0 (some "fork") (by decide)
  have hdisj := sample_disjoint 0 (some "fork")
  obtain ⟨q, hq, -⟩ := boots_process hfit hM hdisj (s := (1, 4)) (by simp [setups])
  exact ⟨M, q, hM, hq, reach_code hfit hdisj (.start hM) hq⟩

end WeensyOS
