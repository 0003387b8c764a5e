import WeensyOS.ForkCopies
import WeensyOS.SegmentContents

/-!
# Setting a process up

`process_setup` on any state in which the kernel's page table is as `kernel()` leaves it. The loader
maps the page-rounded range of each segment; this is the set of pages that the segment meets, except
for an empty segment that starts inside a page, for which the page of its start is mapped all the
same.
-/

namespace WeensyOS
open ByteMemory

/-- Page `x` meets `[p_va, p_va + p_memsz)`. -/
def ElfProgram.meets (ph : ElfProgram) (x : ℕ) : Prop :=
  ∃ a, ph.pVa ≤ a ∧ a < ph.pVa + ph.pMemsz ∧ a / pageSize = x

/-- The segment is not empty, or it starts at a page boundary. -/
def ElfProgram.Rounded (ph : ElfProgram) : Prop := ph.pMemsz = 0 → ph.pVa % pageSize = 0

theorem ElfProgram.meets_mem {ph : ElfProgram} {x : ℕ} (h : ph.meets x) : x ∈ ph.range := by
  obtain ⟨a, ha, ha', rfl⟩ := h
  exact ElfProgram.mem_range (by omega) ha'

theorem ElfProgram.Rounded.meets_iff {ph : ElfProgram} (h : ph.Rounded) (x : ℕ) :
    ph.meets x ↔ x ∈ ph.range := by
  refine ⟨ElfProgram.meets_mem, fun hx => ?_⟩
  have hpages : ph.pages = (ph.pVa % 4096 + ph.pMemsz + 4095) / 4096 := rfl
  obtain ⟨hlo, hhi⟩ := Finset.mem_Ico.mp hx
  unfold Rounded at h
  simp only [pageSize] at hlo hhi h
  have hpos : ph.pMemsz ≠ 0 := by
    intro hz
    have := h hz
    omega
  by_cases hfirst : x = ph.pVa / 4096
  · exact ⟨ph.pVa, le_rfl, by omega, hfirst.symm⟩
  · exact ⟨x * 4096, by omega, by omega, Nat.mul_div_cancel x (by norm_num)⟩

/-- Images with loadable segments on pairwise disjoint sets of pages below the stack page. -/
structure ElfImage.WellPlaced (image : ElfImage) : Prop where
  magic : image.eMagic = elfMagic
  va_lt : ∀ ph ∈ image.segments, ph.pVa < 2 ^ 64
  file : ∀ ph ∈ image.segments, ph.pFilesz ≤ ph.pMemsz
  disjoint : image.segments.Pairwise (fun a b => ∀ x, a.meets x → ¬ b.meets x)
  inside : ∀ ph ∈ image.segments, ∀ x, ph.meets x →
    procStartAddr ≤ x * pageSize ∧ x * pageSize < memsizeVirtual - pageSize

/-- The kernel's own page table and the slot `pid` are as `kernel()` leaves them. -/
structure SetupReady (L : KernelLayout) (k : Kernel) (pid : ℕ) : Prop where
  kernel : Tree k.mem L.tables kernelOwnLeaf
  used : ∀ j, (k.pageinfo (L.tables j)).refcount ≠ 0
  slot : 1 ≤ pid ∧ pid < nProc
  pid_eq : (k.processes pid).pid = pid

@[simp] abbrev stackPage : ℕ := (memsizeVirtual - pageSize) / pageSize

section contract
variable (L : KernelLayout) (k k' : Kernel) (pid : ℕ) (image : ElfImage)

def permIn (k : Kernel) (p va : ℕ) : ℕ :=
  (virtualMemoryLookup k.mem (k.processes p).pagetable va).perm

/-- Process `pid` has an address space of its own with the segments of the image and a stack. -/
structure ProcessBuilt (T : Fin 5 → ℕ) : Prop where
  root : (k'.processes pid).pagetable = T 0 * pageSize
  tables : ∀ va l, l ≤ 3 → Reached k'.mem (k'.processes pid).pagetable va l →
    ∃ j, pathTable k'.mem (k'.processes pid).pagetable va l = T j * pageSize
  mapped : ∀ va, procStartAddr ≤ va → va < memsizeVirtual → (permIn k' pid va &&& pteP ≠ 0 ↔
    (∃ ph ∈ image.segments, ph.meets (va / pageSize)) ∨ va / pageSize = stackPage)
  segment : ∀ ph ∈ image.segments, ∀ va, ph.meets (va / pageSize) →
    permIn k' pid va = if ph.pFlags &&& elfPflagWrite = 0 then pteP ||| pteU
      else pteP ||| pteW ||| pteU
  stack : ∀ va, va / pageSize = stackPage → permIn k' pid va = pteP ||| pteW ||| pteU
  low : ∀ va < procStartAddr,
    virtualMemoryLookup k'.mem (k'.processes pid).pagetable va =
      virtualMemoryLookup k.mem L.kernelPagetables va ∧
    walk k'.mem (k'.processes pid).pagetable va = walk k.mem L.kernelPagetables va
  table_page : ∀ j, T j ∈ freePages k.pageinfo ∧ k'.pageinfo (T j) = ⟨pid, 1⟩
  table_inj : Function.Injective T
  frame : ∀ x ∈ Finset.Ico 256 768, permIn k' pid (x * pageSize) &&& pteP ≠ 0 →
    ∃ pn, frameIn k' pid x = (pn : ℕ) ∧ pn ∈ freePages k.pageinfo ∧ k'.pageinfo pn = ⟨pid, 1⟩ ∧
      ∀ j, pn ≠ T j
  frame_inj : ∀ x ∈ Finset.Ico 256 768, ∀ y ∈ Finset.Ico 256 768,
    permIn k' pid (x * pageSize) &&& pteP ≠ 0 → permIn k' pid (y * pageSize) &&& pteP ≠ 0 →
    frameIn k' pid x = frameIn k' pid y → x = y
  kept : ∀ pn, (k.pageinfo pn).refcount ≠ 0 → k'.pageinfo pn = k.pageinfo pn ∧
    ∀ o < pageSize, k'.mem (pn * pageSize + o) = k.mem (pn * pageSize + o)

end contract

/-- The pages of all page-rounded ranges. -/
def segmentPages : List ElfProgram → Finset ℕ
  | [] => ∅
  | ph :: l => ph.range ∪ segmentPages l

theorem mem_segmentPages {l : List ElfProgram} {x : ℕ} :
    x ∈ segmentPages l ↔ ∃ ph ∈ l, x ∈ ph.range := by
  induction l with
  | nil => simp [segmentPages]
  | cons ph l ih => simp [segmentPages, ih]

theorem ElfProgram.card_range (ph : ElfProgram) : ph.range.card = ph.pages := by
  rw [ElfProgram.range, Nat.card_Ico, Nat.add_sub_cancel_left]

/-- Segments on disjoint page-rounded ranges. -/
structure Apart (l : List ElfProgram) : Prop where
  fits : ∀ ph ∈ l, ph.Fits
  disjoint : l.Pairwise (fun a b => Disjoint a.range b.range)

theorem Apart.tail {ph : ElfProgram} {l : List ElfProgram} (h : Apart (ph :: l)) :
    Apart l ∧ Disjoint ph.range (segmentPages l) := by
  obtain ⟨hd, hrest⟩ := List.pairwise_cons.mp h.disjoint
  refine ⟨⟨fun b hb => h.fits b (List.mem_cons_of_mem ph hb), hrest⟩, ?_⟩
  rw [Finset.disjoint_left]
  intro x hx hx'
  obtain ⟨b, hb, hxb⟩ := mem_segmentPages.mp hx'
  exact Finset.disjoint_left.mp (hd b hb) hx hxb

/-- A page that one operation has received keeps its bytes through the next. -/
theorem Loading.byte_kept {L : KernelLayout} {T : Fin 5 → ℕ} {owner owner' : ℤ} {S S' : Finset ℕ}
    {f f' perm perm' leaf leaf' : ℕ → ℕ} {s s₁ s' : Memory × PageInfos} (h : Loading L T leaf s)
    (hl : Loaded T owner S f perm leaf s s₁) (hl' : Loaded T owner' S' f' perm' leaf' s₁ s') {va : ℕ}
    (hva : va / 4096 ∈ S) : s'.1 (placedAt f va) = s₁.1 (placedAt f va) := by
  apply hl'.frame
  rw [placedAt_div]
  rintro (⟨j, hj⟩ | ⟨x, hx, hj⟩)
  · exact (h.not_table hl.received hva j).1 hj
  · refine hl'.received.ne_used ?_ hx hj.symm
    rw [hl.received.counted _ hva]
    norm_num

theorem placedAt_congr {f g : ℕ → ℕ} {va : ℕ} (h : g (va / 4096) = f (va / 4096)) :
    placedAt g va = placedAt f va := by
  rw [placedAt, placedAt, h]

/-- The segment loop of `program_load`. -/
theorem Loading.load_segments {L : KernelLayout} {T : Fin 5 → ℕ} {leaf : ℕ → ℕ}
    {s : Memory × PageInfos} {l : List ElfProgram} (h : Loading L T leaf s)
    (hl : Apart (loadable l))
    (hroom : ((loadable l).map ElfProgram.pages).sum ≤ (freePages s.2).card) (pid : ℤ)
    (bytes : ℕ → UInt8) :
    ∃ s' f perm, loadSegments L (T 0 * 4096) pid bytes l s = .ok (s', true) ∧
      Loaded T (toInt8 pid) (segmentPages (loadable l)) f perm leaf s s' ∧
      ∀ ph ∈ loadable l, (∀ x ∈ ph.range, perm x = ph.perm) ∧
        ∀ x, ph.pVa / 4096 * 4096 ≤ x → x < ph.pVa + ph.pMemsz →
          s'.1 (placedAt f x) = segmentByte ph (fun i => bytes (ph.pOffset + i)) x := by
  induction l generalizing leaf s with
  | nil => exact ⟨s, fun _ => 0, fun _ => 0, rfl, .refl h.tree, fun ph hph => by cases hph⟩
  | cons ph l ih =>
      rw [loadSegments]
      rw [loadable_cons] at hl hroom ⊢
      split_ifs at hl hroom ⊢ with hload
      · rw [List.map_cons, List.sum_cons] at hroom
        obtain ⟨hrest, hdisj⟩ := hl.tail
        have hfit := hl.fits ph List.mem_cons_self
        obtain ⟨s₁, f₁, hs₁, hl₁, hbytes₁⟩ := h.load_segment hfit (by omega) pid
          (fun i => bytes (ph.pOffset + i))
        have h₁ := h.loaded hl₁ fun x hx => (Finset.mem_Ico.mp (hfit.range hx)).1
        have hcard := ph.card_range
        have hroom₁ := hl₁.received.room
        obtain ⟨s', f, perm, hs', hl', hspec⟩ := ih h₁ hrest (by omega)
        refine ⟨s', _, _, ?_, hl₁.trans hl' hdisj, fun b hb => ?_⟩
        · rw [hs₁, ok_bind]
          exact hs'
        · rcases List.mem_cons.mp hb with rfl | hb
          · refine ⟨fun x hx => Finset.piecewise_eq_of_mem _ _ _ hx, fun x hx hx' => ?_⟩
            have hmem := ElfProgram.mem_range hx hx'
            rw [placedAt_congr (Finset.piecewise_eq_of_mem _ _ _ hmem),
              h.byte_kept hl₁ hl' hmem, hbytes₁ x hx hx']
          · obtain ⟨hperm, hbytes⟩ := hspec b hb
            have hout {x : ℕ} (hx : x ∈ b.range) : x ∉ ph.range :=
              Finset.disjoint_right.mp hdisj (mem_segmentPages.mpr ⟨b, hb, hx⟩)
            refine ⟨fun x hx => ?_, fun x hx hx' => ?_⟩
            · rw [Finset.piecewise_eq_of_notMem _ _ _ (hout hx)]
              exact hperm x hx
            · rw [placedAt_congr (Finset.piecewise_eq_of_notMem _ _ _
                (hout (ElfProgram.mem_range hx hx')))]
              exact hbytes x hx hx'
      · exact ih h hl hroom

/-- The stack page of `process_setup`. -/
theorem Loading.load_stack {L : KernelLayout} {T : Fin 5 → ℕ} {leaf : ℕ → ℕ}
    {s : Memory × PageInfos} (h : Loading L T leaf s) (hroom : 0 < (freePages s.2).card) (pid : ℤ) :
    ∃ m' info' pn, sysPageAllocFindFree s.1 s.2 (T 0 * 4096) pid (memsizeVirtual - pageSize) =
        .ok (m', info', 0) ∧
      Loaded T (toInt8 pid) {stackPage} (fun _ => pn) (fun _ => 7) leaf s (m', info') := by
  obtain ⟨pn, hpn⟩ := exists_lowestFree hroom
  obtain ⟨-, hlt, -⟩ := lowestFree_eq_some hpn
  have hstep := h.tree.sysPageAlloc s.2 pid (show memsizeVirtual - pageSize < 2 ^ 64 by norm_num)
  rw [hpn] at hstep
  dsimp only at hstep
  rw [if_neg (by norm_num), if_neg (by norm_num), if_pos (by unfold inTree; norm_num),
    show (memsizeVirtual - pageSize) / 4096 % 1024 = stackPage by norm_num] at hstep
  have htree := h.tree.setLeaf (show stackPage < 1024 by norm_num)
    (show pn * 4096 + 7 < 2 ^ 64 by omega)
  refine ⟨_, _, pn, hstep, ⟨placed_single _ _ _ ▸ htree, .single hpn, ?_⟩⟩
  exact (Tree.agreeOff_tables s.1 T stackPage (pn * 4096 + 7)).mono fun _ => .inl

/-- The effect of `process_setup` on page tables, memory and `pageinfo`. -/
structure SetUp (L : KernelLayout) (k k' : Kernel) (pid : ℕ) (l : List ElfProgram)
    (T : Fin 5 → ℕ) (f perm : ℕ → ℕ) (m₁ : Memory) (info₁ : PageInfos) : Prop where
  root : (k'.processes pid).pagetable = T 0 * 4096
  fresh : FreshTable k.mem k.pageinfo kernelOwnLeaf pid T m₁ info₁
  start : Loading L T kernelOnly (m₁, info₁)
  loaded : Loaded T pid (segmentPages l ∪ {stackPage}) f perm kernelOnly (m₁, info₁)
    (k'.mem, k'.pageinfo)
  segment : ∀ ph ∈ l, ∀ x ∈ ph.range, perm x = ph.perm
  stack : perm stackPage = 7

theorem segmentPages_range {l : List ElfProgram} (hl : Apart l) :
    segmentPages l ⊆ Finset.Ico 256 768 := by
  intro x hx
  obtain ⟨ph, hph, hx⟩ := mem_segmentPages.mp hx
  exact (hl.fits ph hph).range hx

theorem card_segmentPages (l : List ElfProgram) :
    (segmentPages l).card ≤ (l.map ElfProgram.pages).sum := by
  induction l with
  | nil => exact le_rfl
  | cons ph l ih =>
      have := Finset.card_union_le ph.range (segmentPages l)
      rw [ph.card_range] at this
      rw [segmentPages, List.map_cons, List.sum_cons]
      omega

/-- The registers with which a process starts. -/
def ElfImage.registers (image : ElfImage) : Registers :=
  { processInit 0 with
    regRip := BitVec.ofNat 64 image.eEntry, regRsp := BitVec.ofNat 64 memsizeVirtual }

/-- `process_setup` maps the segments and the stack of the image, with the bytes of the segments. -/
theorem processSetup_contents {L : KernelLayout} (images : ℕ → ElfImage) {k : Kernel}
    {pid program : ℕ} (h : SetupReady L k pid) (hprog : program < nPrograms)
    (hmagic : (images program).eMagic = elfMagic) (hl : Apart (images program).segments)
    (hstack : stackPage ∉ segmentPages (images program).segments)
    (hroom : (images program).demand ≤ (freePages k.pageinfo).card) :
    ∃ k' T f perm m₁ info₁, processSetup L images k pid program = .ok k' ∧
      SetUp L k k' pid (images program).segments T f perm m₁ info₁ ∧
      (k'.processes pid).registers = (images program).registers ∧
      ∀ ph ∈ (images program).segments, ∀ x, ph.pVa / 4096 * 4096 ≤ x →
        x < ph.pVa + ph.pMemsz → k'.mem (placedAt f x) =
          segmentByte ph (fun i => (images program).bytes (ph.pOffset + i)) x := by
  unfold ElfImage.demand at hroom
  obtain ⟨h1, h16⟩ := h.slot
  have hpid : toInt8 (pid : ℤ) = pid := toInt8_pid h16
  obtain ⟨T, m₁, info₁, hdup, hfresh, hload⟩ :=
    duplicatePagetable_loading h16 h.kernel h.used (by omega)
  have hroom₁ := hfresh.room
  obtain ⟨s₂, f₂, perm₂, hs₂, hl₂, hspec₂⟩ := hload.load_segments hl
    (show _ ≤ (freePages info₁).card by unfold ElfImage.segments at hroom; omega) pid
    (images program).bytes
  have hrange := segmentPages_range hl
  have h₂ := hload.loaded hl₂ fun x hx => (Finset.mem_Ico.mp (hrange hx)).1
  have hcard := card_segmentPages (images program).segments
  have hroom₂ := hl₂.received.room
  obtain ⟨m₃, info₃, pn, hs₃, hl₃⟩ := h₂.load_stack
    (by unfold ElfImage.segments at hcard hroom; dsimp only at hroom₂; omega) pid
  have hboth := hl₂.trans hl₃ (Finset.disjoint_singleton_right.mpr hstack)
  have hbyte {va : ℕ} (hva : va / 4096 ∈ segmentPages (images program).segments) :
      m₃ (placedAt f₂ va) = s₂.1 (placedAt f₂ va) := hload.byte_kept hl₂ hl₃ hva
  rw [hpid] at hboth
  have hk : ∃ k', processSetup L images k pid program = .ok k' ∧ k'.mem = m₃ ∧ k'.pageinfo = info₃ ∧
      (k'.processes pid).pagetable = T 0 * 4096 ∧
      (k'.processes pid).registers = (images program).registers := by
    unfold processSetup
    rw [hdup, ok_bind]
    dsimp only
    rw [assert_true hprog, ok_bind, assert_true hmagic, ok_bind, h.pid_eq, hs₂, ok_bind]
    dsimp only
    rw [assert_true rfl, ok_bind, hs₃, ok_bind]
    exact ⟨_, rfl, rfl, rfl, by rw [Kernel.updateProc_same], by rw [Kernel.updateProc_same]; rfl⟩
  obtain ⟨k', hk', rfl, rfl, hroot, hregs⟩ := hk
  refine ⟨k', T, _, _, m₁, info₁, hk', ⟨hroot, hfresh, hload, hboth, fun ph hph x hx => ?_, ?_⟩,
    hregs, fun ph hph x hx hx' => ?_⟩
  · exact (Finset.piecewise_eq_of_mem _ _ _ (mem_segmentPages.mpr ⟨ph, hph, hx⟩)).trans
      ((hspec₂ ph hph).1 x hx)
  · exact Finset.piecewise_eq_of_notMem _ _ _ hstack
  · have hmem := mem_segmentPages.mpr ⟨ph, hph, ElfProgram.mem_range hx hx'⟩
    exact (congrArg k'.mem (placedAt_congr (Finset.piecewise_eq_of_mem _ _ _ hmem))).trans
      ((hbyte hmem).trans ((hspec₂ ph hph).2 x hx hx'))

theorem processSetup_setUp {L : KernelLayout} (images : ℕ → ElfImage) {k : Kernel}
    {pid program : ℕ} (h : SetupReady L k pid) (hprog : program < nPrograms)
    (hmagic : (images program).eMagic = elfMagic) (hl : Apart (images program).segments)
    (hstack : stackPage ∉ segmentPages (images program).segments)
    (hroom : (images program).demand ≤ (freePages k.pageinfo).card) :
    ∃ k' T f perm m₁ info₁, processSetup L images k pid program = .ok k' ∧
      SetUp L k k' pid (images program).segments T f perm m₁ info₁ := by
  obtain ⟨k', T, f, perm, m₁, info₁, hk, hset, -, -⟩ :=
    processSetup_contents images h hprog hmagic hl hstack hroom
  exact ⟨k', T, f, perm, m₁, info₁, hk, hset⟩

namespace SetUp

variable {L : KernelLayout} {k k' : Kernel} {pid : ℕ} {l : List ElfProgram} {T : Fin 5 → ℕ}
  {f perm : ℕ → ℕ} {m₁ : Memory} {info₁ : PageInfos} (h : SetUp L k k' pid l T f perm m₁ info₁)

include h

theorem lookup {va : ℕ} (hva : va < 0x400000) :
    virtualMemoryLookup k'.mem (k'.processes pid).pagetable va = VaMapping.ofEntry
      (placed (segmentPages l ∪ {stackPage}) f perm kernelOnly (va / 4096)) va := by
  rw [h.root]
  exact h.loaded.tree.lookup_low hva

/-- The permissions of a loaded page. -/
theorem perm_mem {x : ℕ} (hx : x ∈ segmentPages l ∪ {stackPage}) : perm x &&& pteP ≠ 0 ∧
    perm x < 4096 := by
  rcases Finset.mem_union.mp hx with hx | hx
  · obtain ⟨ph, hph, hx⟩ := mem_segmentPages.mp hx
    rw [h.segment ph hph x hx]
    exact ph.perm_spec
  · rw [Finset.mem_singleton.mp hx, h.stack]
    exact ⟨by decide, by norm_num⟩

theorem lookup_mem {va : ℕ} (hva : va < 0x400000)
    (hx : va / 4096 ∈ segmentPages l ∪ {stackPage}) :
    virtualMemoryLookup k'.mem (k'.processes pid).pagetable va =
      ⟨f (va / 4096), f (va / 4096) * 4096 + va % 4096, perm (va / 4096)⟩ := by
  obtain ⟨hp, hlt⟩ := h.perm_mem hx
  have hf := (h.loaded.received.page hx).2.1
  have hpresent : (f (va / 4096) * 4096 + perm (va / 4096)) &&& pteP ≠ 0 := by
    rwa [frame_and_flag hlt (by norm_num)]
  rw [h.lookup hva, placed_mem hx, VaMapping.ofEntry, if_pos hpresent, pageNumber_eq (by omega),
    pteAddr_frame (by omega) hlt, pageOffset_eq, pteFlags_eq, frame_mod hlt, frame_div hlt]

theorem lookup_not_mem {va : ℕ} (hva : 0x100000 ≤ va) (hva' : va < 0x400000)
    (hx : va / 4096 ∉ segmentPages l ∪ {stackPage}) :
    virtualMemoryLookup k'.mem (k'.processes pid).pagetable va = VaMapping.unmapped := by
  rw [h.lookup hva', placed_not_mem hx, kernelOnly, if_neg (by omega)]
  rfl

theorem mapped_iff {va : ℕ} (hva : 0x100000 ≤ va) (hva' : va < 0x400000) :
    permIn k' pid va &&& pteP ≠ 0 ↔ va / 4096 ∈ segmentPages l ∪ {stackPage} := by
  unfold permIn
  by_cases hx : va / 4096 ∈ segmentPages l ∪ {stackPage}
  · rw [h.lookup_mem hva' hx]
    exact iff_of_true (h.perm_mem hx).1 hx
  · rw [h.lookup_not_mem hva hva' hx]
    exact iff_of_false (fun hc => hc (by decide)) hx

/-- The received pages were free before the tables were made, and none of them is a table. -/
theorem received {x : ℕ} (hx : x ∈ segmentPages l ∪ {stackPage}) :
    f x ∈ freePages k.pageinfo ∧ k'.pageinfo (f x) = ⟨pid, 1⟩ ∧ ∀ j, f x ≠ T j := by
  obtain ⟨hmem, hz⟩ := Finset.mem_filter.mp (h.loaded.received.fresh x hx)
  exact ⟨Finset.mem_filter.mpr ⟨hmem, h.fresh.free_before hz⟩, h.loaded.received.counted x hx,
    fun j => (h.start.not_table h.loaded.received hx j).1⟩

theorem kept {pn : ℕ} (hpn : (k.pageinfo pn).refcount ≠ 0) : k'.pageinfo pn = k.pageinfo pn ∧
    ∀ o < 4096, k'.mem (pn * 4096 + o) = k.mem (pn * 4096 + o) := by
  obtain ⟨hT, hinfo⟩ := h.fresh.kept hpn
  have hused : (info₁ pn).refcount ≠ 0 := by rwa [hinfo]
  refine ⟨(h.loaded.received.kept hused).trans hinfo, fun o ho => ?_⟩
  have hdiv : (pn * 4096 + o) / 4096 = pn := by omega
  have hfirst : m₁ (pn * 4096 + o) = k.mem (pn * 4096 + o) := by
    apply h.fresh.frame
    rw [hdiv]
    exact fun ⟨j, hj⟩ => hT j hj
  rw [← hfirst]
  apply h.loaded.frame
  rw [hdiv]
  rintro (⟨j, hj⟩ | ⟨x, hx, hj⟩)
  · exact hT j hj
  · exact h.loaded.received.ne_used hused hx hj.symm

/-- Below `PROC_START_ADDR` the new page table translates as the kernel's does. -/
theorem low (hk : Tree k.mem L.tables kernelOwnLeaf) (hl : segmentPages l ⊆ Finset.Ico 256 768)
    {va : ℕ} (hva : va < 0x100000) :
    virtualMemoryLookup k'.mem (k'.processes pid).pagetable va =
      virtualMemoryLookup k.mem L.kernelPagetables va ∧
    walk k'.mem (k'.processes pid).pagetable va = walk k.mem L.kernelPagetables va := by
  have hout : va / 4096 ∉ segmentPages l ∪ {stackPage} := by
    intro hx
    rcases Finset.mem_union.mp hx with hx | hx
    · have := (Finset.mem_Ico.mp (hl hx)).1
      omega
    · have := Finset.mem_singleton.mp hx
      simp only [stackPage, memsizeVirtual, pageSize] at this
      omega
  have hleaf : placed (segmentPages l ∪ {stackPage}) f perm kernelOnly (va / 4096) =
      kernelOwnLeaf (va / 4096) := by
    rw [placed_not_mem hout, kernelOnly, if_pos (by omega), kernelOwnLeaf_kernel _ (by omega)]
  have hmod : va / 4096 % 1024 = va / 4096 := by omega
  have htree : Tree k'.mem T (placed (segmentPages l ∪ {stackPage}) f perm kernelOnly) :=
    h.loaded.tree
  rw [h.root, ← L.tables_zero, htree.lookup_eq, hk.lookup_eq, htree.walk_eq, hk.walk_eq, hmod,
    hleaf]
  exact ⟨rfl, rfl⟩

end SetUp

/-- The pages of well-placed images. -/
theorem ElfImage.WellPlaced.apart {image : ElfImage} (h : image.WellPlaced)
    (hr : ∀ ph ∈ image.segments, ph.Rounded) :
    Apart image.segments ∧ stackPage ∉ segmentPages image.segments := by
  have hin (ph : ElfProgram) (hph : ph ∈ image.segments) (x : ℕ) (hx : x ∈ ph.range) :
      256 ≤ x ∧ x < 767 := by
    obtain ⟨hlo, hhi⟩ := h.inside ph hph x (((hr ph hph).meets_iff x).mpr hx)
    simp only [procStartAddr, memsizeVirtual, pageSize] at hlo hhi
    omega
  refine ⟨⟨fun ph hph => ⟨h.va_lt ph hph, h.file ph hph, fun x hx => ?_⟩, ?_⟩, fun hx => ?_⟩
  · obtain ⟨hlo, hhi⟩ := hin ph hph x hx
    exact Finset.mem_Ico.mpr ⟨hlo, by omega⟩
  · apply h.disjoint.imp_of_mem
    intro a b ha hb hd
    rw [Finset.disjoint_left]
    intro x hx hx'
    exact hd x (((hr a ha).meets_iff x).mpr hx) (((hr b hb).meets_iff x).mpr hx')
  · obtain ⟨ph, hph, hx⟩ := mem_segmentPages.mp hx
    have := (hin ph hph _ hx).2
    simp only [stackPage, memsizeVirtual, pageSize] at this
    omega

theorem SetUp.built {L : KernelLayout} {k k' : Kernel} {pid : ℕ} {image : ElfImage}
    {T : Fin 5 → ℕ} {f perm : ℕ → ℕ} {m₁ : Memory} {info₁ : PageInfos}
    (h : SetUp L k k' pid image.segments T f perm m₁ info₁)
    (hk : Tree k.mem L.tables kernelOwnLeaf) (hl : Apart image.segments)
    (hr : ∀ ph ∈ image.segments, ph.Rounded) : ProcessBuilt L k k' pid image T := by
  have hmem (x : ℕ) : x ∈ segmentPages image.segments ∪ {stackPage} ↔
      (∃ ph ∈ image.segments, ph.meets x) ∨ x = stackPage := by
    rw [Finset.mem_union, Finset.mem_singleton, mem_segmentPages]
    apply or_congr_left
    exact exists_congr fun ph => and_congr_right fun hph => ((hr ph hph).meets_iff x).symm
  have hpage {x : ℕ} (hx : x ∈ Finset.Ico 256 768)
      (hp : permIn k' pid (x * pageSize) &&& pteP ≠ 0) :
      x ∈ segmentPages image.segments ∪ {stackPage} := by
    obtain ⟨hlo, hhi⟩ := Finset.mem_Ico.mp hx
    simp only [pageSize] at hp
    have := (h.mapped_iff (by omega) (by omega)).mp hp
    rwa [Nat.mul_div_cancel x (by norm_num)] at this
  have hframe {x : ℕ} (hx : x ∈ Finset.Ico 256 768)
      (hp : permIn k' pid (x * pageSize) &&& pteP ≠ 0) : frameIn k' pid x = (f x : ℕ) := by
    have hhi := (Finset.mem_Ico.mp hx).2
    rw [frameIn, h.lookup_mem (by omega) (by
      rw [Nat.mul_div_cancel x (by norm_num)]
      exact hpage hx hp), Nat.mul_div_cancel x (by norm_num)]
  constructor
  · exact h.root
  · intro va l hl hreach
    rw [h.root] at hreach ⊢
    exact h.loaded.tree.pathTable_mem hl hreach
  · intro va hlo hhi
    simp only [procStartAddr, memsizeVirtual] at hlo hhi
    exact (h.mapped_iff hlo (by omega)).trans (hmem _)
  · intro ph hph va hmeets
    have hx := ElfProgram.meets_mem hmeets
    have hhi := (Finset.mem_Ico.mp ((hl.fits ph hph).range hx)).2
    simp only [pageSize] at hx hhi hmeets
    rw [permIn, h.lookup_mem (by omega) ((hmem _).mpr (.inl ⟨ph, hph, hmeets⟩)),
      h.segment ph hph _ hx]
    rfl
  · intro va hva
    simp only [stackPage, memsizeVirtual, pageSize, Nat.reduceSub, Nat.reduceDiv] at hva
    rw [permIn, h.lookup_mem (by omega) (by
      rw [hva]
      exact Finset.mem_union_right _ (Finset.mem_singleton_self _)), hva]
    exact h.stack
  · exact fun va hva => h.low hk (segmentPages_range hl) hva
  · intro j
    obtain ⟨hlo, hlt⟩ : 0 < T j ∧ T j < 512 := ⟨h.loaded.tree.pos j, h.loaded.tree.lt j⟩
    refine ⟨Finset.mem_filter.mpr ⟨Finset.mem_Ico.mpr ⟨hlo, hlt⟩, h.fresh.free j⟩, ?_⟩
    exact (h.loaded.received.kept (h.start.used j)).trans (h.fresh.counted j)
  · exact h.loaded.tree.inj
  · intro x hx hp
    obtain ⟨hfree, hinfo, hT⟩ := h.received (hpage hx hp)
    exact ⟨f x, hframe hx hp, hfree, hinfo, hT⟩
  · intro x hx y hy hpx hpy heq
    rw [hframe hx hpx, hframe hy hpy] at heq
    exact h.loaded.received.inj x (hpage hx hpx) y (hpage hy hpy) (by exact_mod_cast heq)
  · exact fun pn hpn => h.kept hpn

/-- A kernel that has just started. -/
theorem setupReady_sample :
    ∃ k, SetupReady sampleLayout k 1 ∧ 7 ≤ (freePages k.pageinfo).card := by
  obtain ⟨k, hsim, -⟩ := kernelMain_eq sampleLayout (sampleImages 0) (fun _ => 0) none
  have hinfo : k.pageinfo = pageinfoInit sampleLayout := hsim.info
  have hcard := (card_freePages_init sampleLayout).1
  refine ⟨k, ⟨hsim.mem.kernel, fun j => ?_, ⟨le_rfl, by decide⟩, hsim.pid 1⟩, ?_⟩
  · rw [hinfo, pageinfoInit_tables]
    norm_num
  · rw [hinfo]
    omega

/-- An image with a single loadable segment. -/
def imageOf (ph : ElfProgram) : ElfImage where
  eMagic := elfMagic
  eEntry := ph.pVa
  programs := [ph]
  bytes := fun i => UInt8.ofNat i

theorem imageOf_segments {ph : ElfProgram} (h : ph.pType = elfPtypeLoad) :
    (imageOf ph).segments = [ph] := by
  rw [ElfImage.segments, imageOf, loadable_cons, if_pos h]
  rfl

theorem imageOf_wellPlaced {ph : ElfProgram} (h : ph.pType = elfPtypeLoad) (hva : ph.pVa < 2 ^ 64)
    (hfile : ph.pFilesz ≤ ph.pMemsz) (hin : ∀ x, ph.meets x → 256 ≤ x ∧ x < 767) :
    (imageOf ph).WellPlaced := by
  have hall {P : ElfProgram → Prop} (hp : P ph) : ∀ b ∈ (imageOf ph).segments, P b := by
    rw [imageOf_segments h]
    exact List.forall_mem_singleton.mpr hp
  refine ⟨rfl, hall hva, hall hfile, ?_, hall fun x hx => ?_⟩
  · rw [imageOf_segments h]
    exact List.pairwise_singleton _ ph
  · obtain ⟨hlo, hhi⟩ := hin x hx
    simp only [procStartAddr, memsizeVirtual, pageSize]
    omega

theorem imageOf_demand {ph : ElfProgram} (h : ph.pType = elfPtypeLoad) :
    (imageOf ph).demand = 6 + ph.pages := by
  rw [ElfImage.demand, imageOf_segments h, List.map_singleton, List.sum_singleton]

/-- A segment without bytes, 16 bytes into a page. -/
def emptySegment : ElfProgram where
  pType := 1
  pFlags := 6
  pOffset := 0x1000
  pVa := 0x100010
  pFilesz := 0
  pMemsz := 0

end WeensyOS
