import WeensyOS.BootWorld
import WeensyOS.TrapRefinement

/-!
# Kernel start refines the abstract loader

`program_load` and `kernel(command)` compute what `World.boot` says, as long as the images fit. The
kernel copies segments through the new process's own page table; since nothing is shared yet, these
stores reach no table. A segment with more bytes in the file than in memory makes the kernel clear
almost the whole address space and fault, so a successful start also shows that there was none.
-/

namespace WeensyOS
open ByteMemory World

variable {L : KernelLayout} {m : Memory} {w : World} {pt : ℕ → ℕ} {p : ℕ}

/-- Nothing that a process holds for its pages is a table. -/
theorem MemSim.store_page (hm : MemSim L m w pt) (hb : Booting L w) {i a : ℕ} {r : Ref}
    (hheld : w.held (p, .page i) = some r) (ha : a / 4096 = r.frame) (b : UInt8) :
    MemSim L (Function.update m a b) w pt := by
  refine hm.frame (agreeOff_update 4096 m a b) (fun j hj => ?_) fun q hq j hj => ?_
  · exact not_usable_tables j (by rw [hj, ha]; exact hb.frame_usable hheld)
  · have hx := hb.distinct _ _ _ _ (hb.wf.tables q hq j) hheld (hj.trans ha)
    cases (Prod.mk.inj hx).2

/-- A store through the page table of a process: the page must be held writable. -/
theorem kernelStore_iff (hm : MemSim L m w pt) (hb : Booting L w) (hp : w.Live p) {va : ℕ}
    (hva : 0x100000 ≤ va) (hva' : va ≤ 0x400000) {b : UInt8} {m' : Memory} :
    kernelStore m (pt p) va b = .ok m' ↔ va < 0x400000 ∧
      ∃ f, w.held (p, .page (va / 4096)) = some ⟨f, true⟩ ∧
        m' = Function.update m (f * 4096 + va % 4096) b := by
  unfold kernelStore
  by_cases htop : va < 0x400000
  · rw [hm.walk_user hb.wf hp hva htop]
    rcases hr : w.held (p, .page (va / 4096)) with _ | ⟨f, _ | _⟩
    · simp
    · simp
    · simp [htop, eq_comm]
  · rw [hm.walk_outside hp (by omega) (by omega)]
    simp [htop]

theorem kernelFill_inv (hm : MemSim L m w pt) (hb : Booting L w) (hp : w.Live p) {src : ℕ → UInt8}
    {n i va : ℕ} {m' : Memory} (hva : 0x100000 ≤ va) (hva' : va ≤ 0x400000)
    (h : kernelFill (pt p) src n i va m = .ok m') : MemSim L m' w pt ∧ va + n ≤ 0x400000 := by
  induction n generalizing m i va with
  | zero =>
      obtain rfl := Except.ok.inj h
      exact ⟨hm, hva'⟩
  | succ n ih =>
      rw [kernelFill, bind_eq_ok] at h
      obtain ⟨m₁, hstore, h⟩ := h
      obtain ⟨htop, f, hheld, rfl⟩ := (kernelStore_iff hm hb hp hva hva').mp hstore
      rw [show (va + 1) % 2 ^ 64 = va + 1 by omega] at h
      obtain ⟨hm', hle⟩ := ih (hm.store_page hb hheld (show _ = f by omega) _) (by omega)
        (by omega) h
      exact ⟨hm', by omega⟩

theorem kernelFill_ok (hm : MemSim L m w pt) (hb : Booting L w) (hp : w.Live p) (src : ℕ → UInt8)
    (n i va : ℕ) (hva : 0x100000 ≤ va) (hend : va + n ≤ 0x400000)
    (hmap : ∀ x, va ≤ x → x < va + n → ∃ f, w.held (p, .page (x / 4096)) = some ⟨f, true⟩) :
    ∃ m', kernelFill (pt p) src n i va m = .ok m' := by
  induction n generalizing m i va with
  | zero => exact ⟨m, rfl⟩
  | succ n ih =>
      obtain ⟨f, hheld⟩ := hmap va le_rfl (by omega)
      have hstore := (kernelStore_iff hm hb hp hva (by omega) (b := src i)).mpr
        ⟨by omega, f, hheld, rfl⟩
      rw [kernelFill, hstore, ok_bind, show (va + 1) % 2 ^ 64 = va + 1 by omega]
      exact ih (hm.store_page hb hheld (show _ = f by omega) _) (i + 1) (va + 1) (by omega)
        (by omega)
        fun x hx hx' => hmap x (by omega) (by omega)

theorem segmentAllocate_ok (hm : MemSim L m w pt) (hb : Booting L w) (hp : w.Live p) (hp' : p < 16)
    {n i f endMem : ℕ} (hi : 256 ≤ i) (hn : i + n ≤ 768) (hf : n ≤ f)
    (hend : ∀ x, i ≤ x → (x * 4096 < endMem ↔ x < i + n)) (hroom : n ≤ (freePages w.info).card) :
    ∃ m', segmentAllocate (pt p) p endMem f (i * 4096) (m, w.info) =
        .ok ((m', (loadPages p n i w).info), true) ∧ MemSim L m' (loadPages p n i w) pt := by
  induction n generalizing m w i f with
  | zero =>
      refine ⟨m, ?_, hm⟩
      cases f with
      | zero => rfl
      | succ f => rw [segmentAllocate, if_neg (by rw [hend i le_rfl]; omega)]; rfl
  | succ n ih =>
      obtain ⟨f, rfl⟩ : ∃ f', f = f' + 1 := ⟨f - 1, by omega⟩
      obtain ⟨pn, hpn⟩ := exists_lowestFree (show 0 < (freePages w.info).card by omega)
      obtain ⟨hpn1, hpn2, -⟩ := lowestFree_eq_some hpn
      have hpage : loadPage p i w = w.give p (.page i) pn := by rw [loadPage, hpn]
      have hidx : i * 4096 / 4096 % 1024 = i := by omega
      obtain ⟨m₁, hmap, hm₁, -⟩ := hm.map hb.wf (i * 4096) (r := some ⟨pn, true⟩) hp (by omega)
        (by omega) (by unfold inTree; omega) (by omega) (fun r' hr => by
          obtain rfl := Option.some.inj hr
          exact ⟨rfl, hpn2⟩)
      rw [hidx] at hm₁
      have hcard := card_freePages_assign p hpn
      obtain ⟨m', h', hm'⟩ := ih (w := w.give p (.page i) pn) (i := i + 1) (f := f)
        (hm₁.of_held rfl rfl) (hb.give hp hi (by omega) hpn) hp (by omega) (by omega)
        (by omega) (fun x hx => (hend x (by omega)).trans (by omega)) (by rw [give_info]; omega)
      refine ⟨m', ?_, by rw [loadPages, hpage]; exact hm'⟩
      rw [segmentAllocate, if_pos ((hend i le_rfl).mpr (by omega)), allocPageProcess_eq, hpn,
        loadPages, hpage]
      dsimp only
      rw [if_neg (by omega), toInt8_pid hp']
      change (virtualMemoryMap m (pt p) (i * 4096) (pn * 4096) 4096 (Ref.perm (some ⟨pn, true⟩)) >>=
        _) = _
      rw [hmap, ok_bind, if_neg (by norm_num), next_page_addr (by omega)]
      exact h'

theorem segmentProtect_ok (hm : MemSim L m w pt) (hb : Booting L w) (hp : w.Live p)
    {n i f endMem : ℕ} (hi : 256 ≤ i) (hn : i + n ≤ 768) (hf : n ≤ f)
    (hend : ∀ x, i ≤ x → (x * 4096 < endMem ↔ x < i + n))
    (hheld : ∀ x, i ≤ x → x < i + n → ∃ r, w.held (p, .page x) = some r) :
    ∃ m', segmentProtect (pt p) endMem f (i * 4096) m = .ok m' ∧
      MemSim L m' (protectPages p n i w) pt := by
  induction n generalizing m w i f with
  | zero =>
      refine ⟨m, ?_, hm⟩
      cases f with
      | zero => rfl
      | succ f => rw [segmentProtect, if_neg (by rw [hend i le_rfl]; omega)]
  | succ n ih =>
      obtain ⟨f, rfl⟩ : ∃ f', f = f' + 1 := ⟨f - 1, by omega⟩
      obtain ⟨r, hr⟩ := hheld i le_rfl (by omega)
      have hlt := hb.wf.frame_lt hr
      have hidx : i * 4096 / 4096 % 1024 = i := by omega
      have hpage : protectPage p i w = w.hold p (.page i) (some ⟨r.frame, false⟩) := by
        rw [protectPage, hr]
        rfl
      obtain ⟨m₁, hmap, hm₁, -⟩ :=
        hm.map hb.wf (i * 4096) (r := some ⟨r.frame, false⟩) hp (by omega)
        (by omega) (by unfold inTree; omega) (by omega) (fun r' hr' => by
          obtain rfl := Option.some.inj hr'
          exact ⟨rfl, hlt⟩)
      rw [hidx, ← hpage] at hm₁
      have hb₁ := hb.protectPage hp hi (show i < 768 by omega)
      obtain ⟨m', h', hm'⟩ := ih (i := i + 1) (f := f) hm₁ hb₁ hp (by omega) (by omega)
        (by omega) (fun x hx => (hend x (by omega)).trans (by omega)) (fun x hx hx' => by
          rw [hpage, hold_held, Function.update_of_ne (by simp; omega)]
          exact hheld x (by omega) (by omega))
      refine ⟨m', ?_, hm'⟩
      rw [segmentProtect, if_pos ((hend i le_rfl).mpr (by omega)),
        hm.lookup_user hb.wf hp hi (by omega), hr]
      change (virtualMemoryMap m (pt p) (i * 4096) (r.frame * 4096) 4096
        (Ref.perm (some ⟨r.frame, false⟩)) >>= _) = _
      rw [hmap, ok_bind, next_page_addr (by omega)]
      exact h'

/-- What `program_load_segment` does once it has memory for the segment: fill it, protect it. -/
def segmentFill (L : KernelLayout) (pagetable : ℕ) (ph : ElfProgram) (src : ℕ → UInt8) (m : Memory)
    (info : PageInfos) : Except Panic ((Memory × PageInfos) × Bool) := do
  let va := ph.pVa / pageSize * pageSize
  let endFile := (ph.pVa + ph.pFilesz) % 2 ^ 64
  let endMem := (ph.pVa + ph.pMemsz) % 2 ^ 64
  let m ← kernelFill pagetable src ((endFile + 2 ^ 64 - va) % 2 ^ 64) 0 va m
  let m ← kernelFill pagetable (fun _ => 0) ((endMem + 2 ^ 64 - endFile) % 2 ^ 64) 0 endFile m
  let m ← if ph.pFlags &&& elfPflagWrite = 0 then segmentProtect pagetable endMem nPages va m
    else .ok m
  setPagetable L m L.kernelPagetables
  pure ((m, info), true)

section segment
variable (hm : MemSim L m w pt) (hb : Booting L w) (hp : w.Live p) (hp' : p < 16)
  {ph : ElfProgram} (hin : ph.Inside) (hroom : ph.pages ≤ (freePages w.info).card)
include hm hb hp hp' hin hroom

theorem programLoadSegment_eq (src : ℕ → UInt8) :
    ∃ m₁, MemSim L m₁ (loadPages p ph.pages (ph.pVa / 4096) w) pt ∧
      programLoadSegment L (pt p) p ph src (m, w.info) =
        segmentFill L (pt p) ph src m₁ (loadPages p ph.pages (ph.pVa / 4096) w).info := by
  obtain ⟨h1, h2⟩ := hin.pages_le
  have h3 := hin.mem
  have hpages : ph.pages = (ph.pVa % 4096 + ph.pMemsz + 4095) / 4096 := rfl
  simp only [memsizeVirtual, pageSize] at h3
  have hend (x : ℕ) (hx : ph.pVa / 4096 ≤ x) :
      x * 4096 < (ph.pVa + ph.pMemsz) % 2 ^ 64 ↔ x < ph.pVa / 4096 + ph.pages := by omega
  obtain ⟨m₁, hall, hm₁⟩ := segmentAllocate_ok hm hb hp hp' (f := nPages) h1 (by omega)
    (by simp only [nPages]; omega) hend hroom
  have hl₁ := ((loadPages_only p ph.pages (ph.pVa / 4096) w).live p).mpr hp
  refine ⟨m₁, hm₁, ?_⟩
  unfold programLoadSegment
  simp only [pageSize]
  rw [hall, ok_bind]
  dsimp only
  rw [if_pos rfl, hm₁.setPagetable_live hl₁, ok_bind]
  rfl

theorem programLoadSegment_ok (hfile : ph.pFilesz ≤ ph.pMemsz) (src : ℕ → UInt8) :
    ∃ m', programLoadSegment L (pt p) p ph src (m, w.info) =
        .ok ((m', (loadSegment p w ph).info), true) ∧ MemSim L m' (loadSegment p w ph) pt := by
  obtain ⟨m₁, hm₁, heq⟩ := programLoadSegment_eq hm hb hp hp' hin hroom src
  obtain ⟨h1, h2⟩ := hin.pages_le
  have h3 := hin.mem
  have h4 := hin.start
  have hpages : ph.pages = (ph.pVa % 4096 + ph.pMemsz + 4095) / 4096 := rfl
  simp only [memsizeVirtual, pageSize, procStartAddr] at h3 h4
  have hl₁ := ((loadPages_only p ph.pages (ph.pVa / 4096) w).live p).mpr hp
  have hb₁ := hb.loadPages (n := ph.pages) hp h1 (by omega)
  have hheld := (loadPages_held (p := p) (i := ph.pVa / 4096) hroom).2
  unfold loadSegment
  simp only [pageSize]
  generalize loadPages p ph.pages (ph.pVa / 4096) w = w₁ at *
  have hmap (x : ℕ) (hx : ph.pVa / 4096 * 4096 ≤ x) (hx' : x < ph.pVa + ph.pMemsz) :
      ∃ f, w₁.held (p, .page (x / 4096)) = some ⟨f, true⟩ := hheld _ (by omega) (by omega)
  obtain ⟨m₂, hfill₂⟩ := kernelFill_ok hm₁ hb₁ hl₁ src
    (ph.pVa + ph.pFilesz - ph.pVa / 4096 * 4096) 0 (ph.pVa / 4096 * 4096)
    (by omega) (by omega) fun x hx hx' => hmap x hx (by omega)
  obtain ⟨hm₂, -⟩ := kernelFill_inv hm₁ hb₁ hl₁ (by omega) (by omega) hfill₂
  obtain ⟨m₃, hfill₃⟩ := kernelFill_ok hm₂ hb₁ hl₁ (fun _ => 0)
    (ph.pMemsz - ph.pFilesz) 0 (ph.pVa + ph.pFilesz)
    (by omega) (by omega) fun x hx hx' => hmap x (by omega) (by omega)
  obtain ⟨hm₃, -⟩ := kernelFill_inv hm₂ hb₁ hl₁ (by omega) (by omega) hfill₃
  have hend (x : ℕ) (hx : ph.pVa / 4096 ≤ x) :
      x * 4096 < ph.pVa + ph.pMemsz ↔ x < ph.pVa / 4096 + ph.pages := by omega
  rw [heq]
  unfold segmentFill
  simp only [pageSize]
  rw [show (ph.pVa + ph.pFilesz) % 2 ^ 64 = ph.pVa + ph.pFilesz by omega,
    show (ph.pVa + ph.pMemsz) % 2 ^ 64 = ph.pVa + ph.pMemsz by omega,
    show (ph.pVa + ph.pFilesz + 2 ^ 64 - ph.pVa / 4096 * 4096) % 2 ^ 64 =
      ph.pVa + ph.pFilesz - ph.pVa / 4096 * 4096 by omega,
    show (ph.pVa + ph.pMemsz + 2 ^ 64 - (ph.pVa + ph.pFilesz)) % 2 ^ 64 =
      ph.pMemsz - ph.pFilesz by omega, hfill₂, ok_bind, hfill₃, ok_bind]
  split_ifs with hflag
  · obtain ⟨m₄, hprot, hm₄⟩ := segmentProtect_ok (f := nPages) hm₃ hb₁ hl₁ h1 (by omega)
      (by simp only [nPages]; omega) hend fun x hx hx' => (hheld x hx hx').imp' _ fun _ h => h
    rw [hprot, ok_bind, setPagetable_kernel hm₄.kernel, ok_bind, protectPages_info]
    exact ⟨m₄, rfl, hm₄⟩
  · rw [ok_bind, setPagetable_kernel hm₃.kernel, ok_bind]
    exact ⟨m₃, rfl, hm₃⟩

/-- A segment whose file part is longer than its memory part is not survived. -/
theorem programLoadSegment_file {src : ℕ → UInt8} {r : (Memory × PageInfos) × Bool}
    (h : programLoadSegment L (pt p) p ph src (m, w.info) = .ok r) : ph.pFilesz ≤ ph.pMemsz := by
  obtain ⟨m₁, hm₁, heq⟩ := programLoadSegment_eq hm hb hp hp' hin hroom src
  obtain ⟨h1, h2⟩ := hin.pages_le
  have h3 := hin.mem
  have h4 := hin.start
  have h5 := hin.file
  simp only [memsizeVirtual, pageSize, procStartAddr] at h3 h4 h5
  have hl₁ := ((loadPages_only p ph.pages (ph.pVa / 4096) w).live p).mpr hp
  have hb₁ := hb.loadPages (n := ph.pages) hp h1 (by omega)
  rw [heq] at h
  unfold segmentFill at h
  simp only [pageSize] at h
  rw [bind_eq_ok] at h
  obtain ⟨m₂, hfill₂, h⟩ := h
  obtain ⟨hm₂, -⟩ := kernelFill_inv hm₁ hb₁ hl₁ (by omega) (by omega) hfill₂
  rw [bind_eq_ok] at h
  obtain ⟨m₃, hfill₃, -⟩ := h
  obtain ⟨-, hle⟩ := kernelFill_inv hm₂ hb₁ hl₁ (by omega) (by omega) hfill₃
  omega

end segment

/-- Segments that fit their own file part. -/
def FilesFit (l : List ElfProgram) : Prop := ∀ ph ∈ l, ph.pFilesz ≤ ph.pMemsz

section image
variable (hm : MemSim L m w pt) (hb : Booting L w) (hp : w.Live p) (hp' : p < 16)
  {l : List ElfProgram} (hin : ∀ ph ∈ loadable l, ph.Inside)
  (hroom : ((loadable l).map ElfProgram.pages).sum ≤ (freePages w.info).card)
include hm hb hp hp' hin hroom

theorem loadSegments_ok (hfile : FilesFit (loadable l)) (bytes : ℕ → UInt8) :
    ∃ m', loadSegments L (pt p) p bytes l (m, w.info) =
        .ok ((m', ((loadable l).foldl (loadSegment p) w).info), true) ∧
      MemSim L m' ((loadable l).foldl (loadSegment p) w) pt := by
  induction l generalizing m w with
  | nil => exact ⟨m, rfl, hm⟩
  | cons ph l ih =>
      rw [loadSegments]
      rw [loadable_cons] at hin hroom hfile ⊢
      split_ifs at hin hroom hfile ⊢ with hload
      · rw [List.map_cons, List.sum_cons] at hroom
        have hph := hin ph (by simp)
        obtain ⟨m₁, h₁, hm₁⟩ := programLoadSegment_ok hm hb hp hp' hph (by omega)
          (hfile ph (by simp)) (fun i => bytes (ph.pOffset + i))
        have hcard := loadSegment_card p (show ph.pages ≤ (freePages w.info).card by omega)
        obtain ⟨m', h', hm'⟩ := ih hm₁ (hb.loadSegment hp hph)
          (((loadSegment_only p w ph).live p).mpr hp) (fun ph' h => hin ph' (by simp [h]))
          (by omega)
          (fun ph' h => hfile ph' (by simp [h]))
        refine ⟨m', ?_, hm'⟩
        rw [h₁, ok_bind]
        exact h'
      · exact ih hm hb hp hin hroom hfile

theorem loadSegments_file {bytes : ℕ → UInt8} {r : (Memory × PageInfos) × Bool}
    (h : loadSegments L (pt p) p bytes l (m, w.info) = .ok r) : FilesFit (loadable l) := by
  induction l generalizing m w with
  | nil => exact fun ph hph => by cases hph
  | cons ph l ih =>
      rw [loadSegments] at h
      rw [loadable_cons] at hin hroom ⊢
      split_ifs at hin hroom h ⊢ with hload
      · rw [List.map_cons, List.sum_cons] at hroom
        have hph := hin ph (by simp)
        rw [bind_eq_ok] at h
        obtain ⟨r₁, h₁, h⟩ := h
        have hfile := programLoadSegment_file hm hb hp hp' hph (by omega) h₁
        obtain ⟨m₁, h₁', hm₁⟩ := programLoadSegment_ok hm hb hp hp' hph (by omega) hfile
          (fun i => bytes (ph.pOffset + i))
        have hcard := loadSegment_card p (show ph.pages ≤ (freePages w.info).card by omega)
        rw [h₁'] at h₁
        obtain rfl := Except.ok.inj h₁
        have hrest := ih hm₁ (hb.loadSegment hp hph) (((loadSegment_only p w ph).live p).mpr hp)
          (fun ph' h => hin ph' (by simp [h])) (by omega) h
        intro ph' hph'
        rcases List.mem_cons.mp hph' with rfl | hph'
        · exact hfile
        · exact hrest ph' hph'
      · exact ih hm hb hp hin hroom h

end image

/-- What the loader checks of an image by itself. -/
structure ElfImage.Sound (image : ElfImage) : Prop where
  magic : image.eMagic = elfMagic
  files : FilesFit image.segments

section setup
variable {k : Kernel} {images : ℕ → ElfImage} {program : ℕ} (h : Sim L k w) (hb : Booting L w)
  (hp1 : 1 ≤ p) (hp16 : p < 16) (hfree : w.state p = .free)
  (hroom : (images program).demand ≤ (freePages w.info).card)
  (hin : ∀ ph ∈ (images program).segments, ph.Inside)
include h hb hp1 hp16 hfree hroom

/-- The start of `process_setup`: the new process gets its tables. -/
theorem processSetup_tables : ∃ w₁ m₁, World.duplicate p (w.setState p .runnable) = some w₁ ∧
    duplicatePagetable k.mem k.pageinfo L.kernelPagetables p =
      .ok (m₁, w₁.info, w₁.frames p 0 * 4096) ∧
    MemSim L m₁ w₁ (Function.update (fun q => (k.processes q).pagetable) p (w₁.frames p 0 * 4096)) ∧
    Booting L w₁ ∧ w₁.Live p ∧ (freePages w₁.info).card + 5 = (freePages w.info).card := by
  unfold ElfImage.demand at hroom
  obtain ⟨w₁, hdup, hcard⟩ := duplicate_some (w := w.setState p .runnable) p
    (by rw [setState_info]; omega)
  rw [setState_info] at hcard
  have hkernel (j : Fin 5) : ((w.setState p .runnable).info (L.tables j)).refcount ≠ 0 := by
    rw [setState_info, hb.wf.kernel _ (not_usable_tables j), pageinfoInit_tables]
    norm_num
  obtain ⟨m₁, hd, htree, ha⟩ :=
    duplicatePagetable_ok (w := w.setState p .runnable) hp16 h.mem.kernel
    kernelOwnLeaf_kernel hkernel hdup
  rw [L.tables_zero, setState_info, ← h.info] at hd
  have hb₁ := hb.duplicate hp1 hp16 hdup
  exact ⟨w₁, m₁, hdup, hd, h.mem.duplicate hb₁.wf hfree hdup hb.wf htree ha, hb₁,
    (duplicate_live hdup p).mpr (Or.inr rfl), hcard⟩

include hin

theorem processSetup_sound {k' : Kernel} (hk : processSetup L images k p program = .ok k') :
    program < nPrograms ∧ (images program).Sound := by
  obtain ⟨w₁, m₁, hdup, hd, hm₁, hb₁, hl₁, hcard⟩ :=
    processSetup_tables h hb hp1 hp16 hfree hroom
  unfold ElfImage.demand ElfImage.segments at hroom
  unfold processSetup at hk
  rw [hd, ok_bind, bind_eq_ok] at hk
  obtain ⟨_, hprog, hk⟩ := hk
  rw [bind_eq_ok] at hk
  obtain ⟨_, hmagic, hk⟩ := hk
  rw [bind_eq_ok] at hk
  obtain ⟨r, hload, -⟩ := hk
  rw [h.pid, ← Function.update_self p (w₁.frames p 0 * 4096)
    (fun q => (k.processes q).pagetable)] at hload
  exact ⟨assert_eq_ok.mp hprog, assert_eq_ok.mp hmagic,
    loadSegments_file hm₁ hb₁ hl₁ hp16 hin (by omega) hload⟩

theorem processSetup_ok (hprog : program < nPrograms) (hsound : (images program).Sound) :
    ∃ k' w', processSetup L images k p program = .ok k' ∧
      World.setup p (images program) w = some w' ∧ Sim L k' w' := by
  obtain ⟨w₁, m₁, hdup, hd, hm₁, hb₁, hl₁, hcard⟩ :=
    processSetup_tables h hb hp1 hp16 hfree hroom
  unfold ElfImage.demand ElfImage.segments at hroom
  obtain ⟨m₂, hload, hm₂⟩ := loadSegments_ok hm₁ hb₁ hl₁ hp16 hin (by omega) hsound.files
    (images program).bytes
  obtain ⟨hs₂, hcur₂, -⟩ := loadImage_only p (loadable (images program).programs) w₁
  have hb₂ := hb₁.loadImage hl₁ hin
  have hl₂ : (loadImage p (images program) w₁).Live p := by
    rw [Live, loadImage, ElfImage.segments, hs₂]
    exact hl₁
  obtain ⟨m₃, hstack, hm₃, -⟩ := sysPageAllocFindFree_ok (memsizeVirtual - pageSize) hm₂
    hb₂.wf hl₂ hp16 (by norm_num) ⟨fun _ _ => by norm_num, fun _ _ _ => by norm_num⟩
  obtain ⟨hs₃, hcur₃⟩ := pageAlloc_state (loadImage p (images program) w₁) p
    (memsizeVirtual - pageSize)
  rw [Function.update_self] at hload hstack
  have hk : ∃ k', processSetup L images k p program = .ok k' ∧ k'.mem = m₃ ∧
      k'.pageinfo = ((loadImage p (images program) w₁).pageAlloc p
        (memsizeVirtual - pageSize)).info ∧
      (k'.processes p).pagetable = w₁.frames p 0 * 4096 := by
    unfold processSetup
    rw [hd, ok_bind]
    dsimp only
    rw [assert_true hprog, ok_bind, assert_true hsound.magic, ok_bind, h.pid, hload, ok_bind]
    dsimp only
    rw [assert_true rfl, ok_bind, hstack, ok_bind]
    exact ⟨_, rfl, rfl, rfl, by rw [Kernel.updateProc_same]⟩
  obtain ⟨k', hk', hmem, hinfo, hpt⟩ := hk
  obtain ⟨hcur, p', hpid, hst, hproc⟩ := processSetup_inv hk'
  rw [hproc, Function.update_self] at hpt
  refine ⟨k', _, hk', by rw [setup, hdup]; rfl,
    Sim.of_parts _ hinfo ?_ (fun q => ?_) ?_ (fun q _ => ?_)
    (hmem ▸ hm₃)⟩
  · rw [hs₃, loadImage, ElfImage.segments, hs₂, (duplicate_spec hdup).state, setState_state,
      ← h.state]
    funext q
    rw [Kernel.states, hproc, Function.update_apply, Function.update_apply]
    split_ifs
    · exact hst
    · rfl
  · rw [hproc, Function.update_apply]
    split_ifs with hq
    · rw [hpid, h.pid, hq]
    · exact h.pid q
  · rw [hcur, hcur₃, loadImage, ElfImage.segments, hcur₂, (duplicate_spec hdup).current,
      setState_current, h.current]
  · rw [hproc, Function.update_apply, Function.update_apply]
    split_ifs
    · exact hpt
    · rfl

end setup

/-- The kernel's table right after `virtual_memory_init`: all of physical memory, open to users. -/
def openLeaf (i : ℕ) : ℕ := if i < 512 then i * 4096 + 7 else 0

theorem KernelLayout.tables_addr (L : KernelLayout) (j : Fin 5) :
    L.tables j * 4096 = L.kernelPagetables + j * 4096 := by
  have := L.pagetables_aligned
  unfold KernelLayout.tables
  omega

theorem Tree.lookup_open {T : Fin 5 → ℕ} (h : Tree m T openLeaf) {va : ℕ} (hva : va < 0x200000) :
    virtualMemoryLookup m (T 0 * 4096) va = ⟨(va / 4096 : ℕ), va, 7⟩ := by
  rw [h.lookup_eq, if_pos (by unfold inTree; omega), show va / 4096 % 1024 = va / 4096 by omega,
    openLeaf, if_pos (by omega)]
  exact VaMapping.ofEntry_identity hva (by norm_num) (by norm_num)

/-- `virtual_memory_map` of a range of the first leaf table to itself. -/
theorem Tree.map_identity {T : Fin 5 → ℕ} {leaf : ℕ → ℕ} (h : Tree m T leaf) (i n perm : ℕ)
    (hperm : perm < 4096) (hp : perm &&& pteP ≠ 0) (hi : i + n ≤ 512) :
    ∃ m', virtualMemoryMap m (T 0 * 4096) (i * 4096) (i * 4096) (n * 4096) perm = .ok (m', 0) ∧
      Tree m' T (fun x => if i ≤ x ∧ x < i + n then x * 4096 + perm else leaf x) := by
  obtain ⟨m', hmap, htree, -⟩ := h.mapPages_first_table 0 hperm hp hi hi
    (Or.inl rfl : (-1 : ℤ) = -1 ∨ _)
  refine ⟨m', ?_, ?_⟩
  · rw [virtualMemoryMap_eq (by omega) (by omega) (by omega) (by omega) hperm
      (fun _ => by omega) (by omega), Nat.mul_div_cancel _ (by norm_num)]
    exact hmap
  · convert htree using 1
    funext x
    by_cases hx : i ≤ x ∧ x < i + n
    · rw [if_pos hx, if_pos hx, show i + (x - i) = x by omega]
    · rw [if_neg hx, if_neg hx]

theorem virtualMemoryInit_ok (L : KernelLayout) (m : Memory) :
    ∃ m', virtualMemoryInit L m = .ok m' ∧ Tree m' L.tables openLeaf := by
  have hrange := L.tables_range
  have haddr := L.tables_addr
  have hinj : Function.Injective L.tables := by
    intro j j' heq
    unfold KernelLayout.tables at heq
    exact Fin.ext (by omega)
  have hzero (j : Fin 5) (i : ℕ) (hi : i < 512) :
      entry (memset m (L.tables 0 * 4096) 0 (5 * pageSize)) (L.tables j * 4096) i = 0 := by
    apply loadLE_zero
    intro x hx hx'
    have hj := j.isLt
    rw [haddr] at hx hx'
    rw [L.tables_zero, memset_apply, if_pos (by simp only [pageSize]; omega)]
  have hempty := Tree.of_empty (fun j => by have := hrange j; omega)
    (fun j => by have := hrange j; omega) hinj hzero
  obtain ⟨m', hmap, htree⟩ := hempty.map_identity 0 512 7 (by norm_num) (by norm_num) (by norm_num)
  have hleaf : (fun x => if 0 ≤ x ∧ x < 0 + 512 then x * 4096 + 7 else 0) = openLeaf := by
    funext x
    simp [openLeaf]
  rw [hleaf] at htree
  have hlook (va : ℕ) (hva : va < 0x200000) :
      (virtualMemoryLookup m' L.kernelPagetables va).pa = va := by
    rw [← L.tables_zero, htree.lookup_open hva]
  have hid : identityMapped m' L.kernelPagetables := by
    intro i hi
    simp only [nPages] at hi
    rw [← L.tables_zero, pageSize, htree.lookup_open (by omega)]
    exact ⟨rfl, show 7 &&& (pteP ||| pteW) = pteP ||| pteW by decide⟩
  refine ⟨m', ?_, htree⟩
  have h1 : L.kernelPagetables + pageSize = L.tables 1 * 4096 := (haddr 1).symm
  have h2 : L.kernelPagetables + 2 * pageSize = L.tables 2 * 4096 := (haddr 2).symm
  have h3 : L.kernelPagetables + 3 * pageSize = L.tables 3 * 4096 := (haddr 3).symm
  have h4 : L.kernelPagetables + 4 * pageSize = L.tables 4 * 4096 := (haddr 4).symm
  unfold virtualMemoryInit
  simp only [h1, h2, h3, h4, or_table_flags]
  rw [← L.tables_zero]
  change (virtualMemoryMap _ (L.tables 0 * 4096) (0 * 4096) (0 * 4096) (512 * 4096) 7 >>= _) = _
  rw [hmap, ok_bind, L.tables_zero, assert_true hid, ok_bind,
    setPagetable_identity L.pagetables_aligned (by rw [← L.tables_zero]; have := hrange 0; omega)
      hlook (fun va _ hva => hlook va (by omega)), ok_bind]
  rfl

/-- The kernel's page table as `kernel()` leaves it. -/
theorem kernelTable_ok (L : KernelLayout) {m : Memory} (h : Tree m L.tables openLeaf) :
    ∃ m₁ m₂, virtualMemoryMap (consoleClear m) L.kernelPagetables 0 0 procStartAddr
        (pteP ||| pteW) = .ok (m₁, 0) ∧
      virtualMemoryMap m₁ L.kernelPagetables consoleAddr consoleAddr pageSize
        (pteP ||| pteW ||| pteU) = .ok (m₂, 0) ∧ Tree m₂ L.tables kernelOwnLeaf := by
  have hclear : Tree (consoleClear m) L.tables openLeaf :=
    h.frame (agreeOff_consoleClear m) fun j hj => by
      have := L.tables_range j
      simp only [consolePage] at hj
      omega
  obtain ⟨m₁, hmap₁, htree₁⟩ :=
    hclear.map_identity 0 256 3 (by norm_num) (by norm_num) (by norm_num)
  obtain ⟨m₂, hmap₂, htree₂⟩ := htree₁.map_identity 0xB8 1 7 (by norm_num) (by norm_num)
    (by norm_num)
  rw [L.tables_zero] at hmap₁ hmap₂
  refine ⟨m₁, m₂, hmap₁, hmap₂, ?_⟩
  convert htree₂ using 1
  funext x
  unfold kernelOwnLeaf kernelLeaf kernelPerm openLeaf
  split_ifs <;> omega

/-- `kernel(command)` up to the loading of processes. -/
theorem kernelMain_eq (L : KernelLayout) (images : ℕ → ElfImage) (m : Memory)
    (command : Option String) :
    ∃ k₀, Sim L k₀ (World.initial L) ∧ kernelMain L images m command =
      ((setups command).foldlM (fun k s => processSetup L images k s.1 s.2) k₀ >>=
        fun k => run L k 1) := by
  obtain ⟨m₀, h₀, htree₀⟩ := virtualMemoryInit_ok L m
  obtain ⟨m₁, m₂, h₁, h₂, htree₂⟩ := kernelTable_ok L htree₀
  let k₀ : Kernel :=
    { mem := m₂, pageinfo := pageinfoInit L, processes := initialProc, current := 0, ticks := 0,
      dispGlobal := true, lastTicks := 0, showing := 1 }
  refine ⟨k₀, ?_, ?_⟩
  · have hfree (p : ℕ) : (World.initial L).state p = .free := rfl
    exact ⟨rfl, rfl, fun _ => rfl, rfl, htree₂, fun p hp => absurd (hfree p) hp,
      fun p hp => absurd (hfree p) hp⟩
  · unfold kernelMain
    rw [h₀, ok_bind]
    dsimp only
    rw [h₁, ok_bind, h₂, ok_bind]

section setups
variable {images : ℕ → ElfImage}

/-- Loading the processes one after the other. -/
theorem processSetups_ok {l : List (ℕ × ℕ)} {k : Kernel} (h : Sim L k w) (hb : Booting L w)
    (hl : ∀ s ∈ l, 1 ≤ s.1 ∧ s.1 < 16) (hnd : (l.map Prod.fst).Nodup)
    (hfree : ∀ s ∈ l, w.state s.1 = .free)
    (hroom : (l.map (fun s => (images s.2).demand)).sum ≤ (freePages w.info).card)
    (hin : ∀ s ∈ l, ∀ ph ∈ (images s.2).segments, ph.Inside) :
    (∀ k', l.foldlM (fun k s => processSetup L images k s.1 s.2) k = .ok k' →
      ∀ s ∈ l, s.2 < nPrograms ∧ (images s.2).Sound) ∧
    ((∀ s ∈ l, s.2 < nPrograms ∧ (images s.2).Sound) →
      ∃ k' w', l.foldlM (fun k s => processSetup L images k s.1 s.2) k = .ok k' ∧
        l.foldlM (fun w s => World.setup s.1 (images s.2) w) w = some w' ∧ Sim L k' w') := by
  induction l generalizing k w with
  | nil => exact ⟨fun _ _ s hs => absurd hs (by simp), fun _ => ⟨k, w, rfl, rfl, h⟩⟩
  | cons s l ih =>
      rw [List.map_cons, List.sum_cons] at hroom
      rw [List.map_cons, List.nodup_cons] at hnd
      obtain ⟨hs1, hs16⟩ := hl s (by simp)
      have hfree₁ := hfree s (by simp)
      have hin₁ := hin s (by simp)
      have hroom₁ : (images s.2).demand ≤ (freePages w.info).card := by omega
      obtain ⟨w₁, hw₁, hb₁, hst₁, -, hcard₁⟩ := setup_some (images s.2) hb hs1 hs16 hroom₁ hin₁
      have hrest {k₁ : Kernel} (hsim : Sim L k₁ w₁) := ih hsim hb₁
        (fun s' hs' => hl s' (by simp [hs'])) hnd.2 (fun s' hs' => by
          have hne : s'.1 ≠ s.1 := fun heq => hnd.1 (heq ▸ List.mem_map_of_mem hs')
          rw [hst₁, Function.update_of_ne hne]
          exact hfree s' (by simp [hs'])) (by omega) (fun s' hs' => hin s' (by simp [hs']))
      have hstep (hs : s.2 < nPrograms ∧ (images s.2).Sound) :
          ∃ k₁, processSetup L images k s.1 s.2 = .ok k₁ ∧ Sim L k₁ w₁ := by
        obtain ⟨k₁, w₂, hk₁, hw₂, hsim⟩ :=
          processSetup_ok h hb hs1 hs16 hfree₁ hroom₁ hin₁ hs.1 hs.2
        rw [hw₁] at hw₂
        obtain rfl := Option.some.inj hw₂
        exact ⟨k₁, hk₁, hsim⟩
      constructor
      · intro k' hk
        rw [List.foldlM_cons, bind_eq_ok] at hk
        obtain ⟨k₁, hk₁, hk⟩ := hk
        have hs := processSetup_sound h hb hs1 hs16 hfree₁ hroom₁ hin₁ hk₁
        obtain ⟨k₂, hk₂, hsim⟩ := hstep hs
        rw [hk₁] at hk₂
        obtain rfl := Except.ok.inj hk₂
        intro s' hs'
        rcases List.mem_cons.mp hs' with rfl | hs'
        · exact hs
        · exact (hrest hsim).1 k' hk s' hs'
      · intro hsound
        obtain ⟨k₁, hk₁, hsim⟩ := hstep (hsound s (by simp))
        obtain ⟨k', w', hk', hw', hsim'⟩ := (hrest hsim).2 fun s' hs' => hsound s' (by simp [hs'])
        refine ⟨k', w', ?_, ?_, hsim'⟩
        · rw [List.foldlM_cons, hk₁]
          exact hk'
        · rw [List.foldlM_cons, hw₁]
          exact hw'

end setups

theorem setups_program (command : Option String) : ∀ s ∈ setups command, s.2 < nPrograms := by
  unfold setups
  split_ifs <;> decide

theorem one_mem_started (command : Option String) : 1 ∈ started command := by
  unfold started setups
  split_ifs <;> decide

section boot
variable {images : ℕ → ElfImage} {command : Option String} (hfit : ImagesFit L images command)
include hfit

theorem kernelMain_ok (m : Memory) (hsound : ∀ s ∈ setups command, (images s.2).Sound) :
    ∃ k w, kernelMain L images m command = .ok k ∧ World.boot L images command = some w ∧
      Sim L k w := by
  obtain ⟨k₀, hsim₀, heq⟩ := kernelMain_eq L images m command
  obtain ⟨k₁, w₁, hk₁, hw₁, hsim₁⟩ := (processSetups_ok hsim₀ (booting_initial L)
    (setups_pid command) (setups_nodup command) (fun _ _ => rfl) hfit.room hfit.inside).2
    fun s hs => ⟨setups_program command s hs, hsound s hs⟩
  obtain ⟨w, hw, -, -, hst⟩ := boot_some hfit
  rw [World.boot, hw₁] at hw
  obtain rfl := Option.some.inj hw
  obtain ⟨hrun, hsim⟩ := run_ok (p := 1) hsim₁ ((hst 1).trans (if_pos (one_mem_started command)))
  exact ⟨_, _, by rw [heq, hk₁, ok_bind, hrun], by rw [World.boot, hw₁]; rfl, hsim⟩

theorem kernelMain_sound {m : Memory} {k : Kernel} (hk : kernelMain L images m command = .ok k) :
    ∀ s ∈ setups command, (images s.2).Sound := by
  obtain ⟨k₀, hsim₀, heq⟩ := kernelMain_eq L images m command
  rw [heq, bind_eq_ok] at hk
  obtain ⟨k₁, hk₁, -⟩ := hk
  exact fun s hs => ((processSetups_ok hsim₀ (booting_initial L) (setups_pid command)
    (setups_nodup command) (fun _ _ => rfl) hfit.room hfit.inside).1 k₁ hk₁ s hs).2

/-- A kernel that has started represents the ledger that the images determine. -/
theorem kernelMain_refines {m : Memory} {k : Kernel} (hk : kernelMain L images m command = .ok k) :
    ∃ w, World.boot L images command = some w ∧ Sim L k w := by
  obtain ⟨k', w, hk', hw, hsim⟩ := kernelMain_ok hfit m (kernelMain_sound hfit hk)
  rw [hk] at hk'
  obtain rfl := Except.ok.inj hk'
  exact ⟨w, hw, hsim⟩

end boot

end WeensyOS
