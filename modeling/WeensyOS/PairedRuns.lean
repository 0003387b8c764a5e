import WeensyOS.Discipline

/-!
# Two memories side by side

The kernel runs twice, from states that differ only in bytes of pages with the property `D`. What it
writes to the console and to page tables is the same in both, and a copy differs only where its
source does. So both runs take the same way, and afterwards the states differ in such pages again.
-/

namespace WeensyOS
open ByteMemory World

variable {L : KernelLayout} {D : ℕ → Prop} {m n : Memory} {w w' : World} {pt : ℕ → ℕ}

/-! The console and the memory viewer. -/

theorem pointwise_setCell (i v : ℕ) : Pointwise fun m => setCell m i v := pointwise_storeLE _ _ _

theorem blankCells_paired (color k : ℕ) {m m' : Memory} (cursor x : ℕ) (h : m' x = m x) :
    (blankCells color k (m', cursor)).1 x = (blankCells color k (m, cursor)).1 x ∧
      (blankCells color k (m', cursor)).2 = (blankCells color k (m, cursor)).2 := by
  induction k generalizing m m' cursor with
  | zero => exact ⟨h, rfl⟩
  | succ k ih => exact ih (cursor + 1) (pointwise_setCell cursor _ _ _ x h)

theorem consolePutc_paired (color c : ℕ) {m m' : Memory} (cursor x : ℕ) (h : m' x = m x) :
    (consolePutc color (m', cursor) c).1 x = (consolePutc color (m, cursor) c).1 x ∧
      (consolePutc color (m', cursor) c).2 = (consolePutc color (m, cursor) c).2 := by
  unfold consolePutc
  dsimp only
  by_cases hnewline : c = 0x0A
  · rw [if_pos hnewline, if_pos hnewline]
    exact blankCells_paired color _ _ x h
  · rw [if_neg hnewline, if_neg hnewline]
    exact ⟨pointwise_setCell _ _ _ _ x h, rfl⟩

theorem pointwise_consolePrintf (pos : ℤ) (color : ℕ) (out : List ℕ) :
    Pointwise fun m => (consolePrintf m pos color out).1 := by
  have hloop (out : List ℕ) : ∀ (cursor : ℕ) (m m' : Memory) (x : ℕ), m' x = m x →
      (out.foldl (consolePutc color) (m', cursor)).1 x =
        (out.foldl (consolePutc color) (m, cursor)).1 x := by
    induction out with
    | nil => exact fun _ _ _ _ h => h
    | cons c out ih =>
        intro cursor m m' x h
        obtain ⟨hbyte, hcursor⟩ := consolePutc_paired color c cursor x h
        have hnext := ih (consolePutc color (m, cursor) c).2 _ _ x hbyte
        rw [List.foldl_cons, List.foldl_cons, ← hnext, ← hcursor]
  exact fun m m' x h => hloop out _ m m' x h

theorem pointwise_rowLabel (pn row addr : ℕ) : Pointwise fun m => rowLabel m pn row addr := by
  unfold rowLabel
  split_ifs
  · exact pointwise_consolePrintf _ _ _
  · exact fun _ _ _ h => h

theorem pointwise_memshowPhysical (info : PageInfos) :
    Pointwise fun m => memshowPhysical m info := by
  have hpage (pn : ℕ) : Pointwise fun m => memshowPhysicalPage info m pn :=
    (pointwise_setCell _ _).comp (pointwise_rowLabel _ _ _)
  exact (Pointwise.foldl hpage _).comp (pointwise_consolePrintf _ _ _)

theorem pointwise_drawVirtualPage (info : PageInfos) (pn : ℕ) (vam : VaMapping) :
    Pointwise fun m => drawVirtualPage info m pn vam :=
  (pointwise_setCell _ _).comp (pointwise_rowLabel _ _ _)

/-- Two runs of a loop whose rounds keep `R`. -/
theorem foldlM_paired {α σ : Type} {f : σ → α → Except Panic σ} {R : σ → σ → Prop} {l : List α}
    (h : ∀ x ∈ l, ∀ s t, R s t → ∃ s' t', f s x = .ok s' ∧ f t x = .ok t' ∧ R s' t') {s t : σ}
    (hR : R s t) : ∃ s' t', l.foldlM f s = .ok s' ∧ l.foldlM f t = .ok t' ∧ R s' t' := by
  induction l generalizing s t with
  | nil => exact ⟨s, t, rfl, rfl, hR⟩
  | cons x l ih =>
      obtain ⟨s₁, t₁, hs, ht, hR₁⟩ := h x List.mem_cons_self s t hR
      obtain ⟨s', t', hs', ht', hR'⟩ := ih (fun y hy => h y (List.mem_cons_of_mem _ hy)) hR₁
      refine ⟨s', t', ?_, ?_, hR'⟩
      · rw [List.foldlM_cons, hs, ok_bind, hs']
      · rw [List.foldlM_cons, ht, ok_bind, ht']

theorem memshowVirtual_paired {T : Fin 5 → ℕ} {leaf : ℕ → ℕ} (h : Tree m T leaf)
    (h' : Tree n T leaf) (hne : ∀ j, T j ≠ consolePage)
    (hleaf : ∀ i < 768, leaf i &&& pteP ≠ 0 → leaf i < 0x200000) (info : PageInfos)
    (name : List ℕ) (ha : AgreeOff 4096 D m n) :
    ∃ m' n', memshowVirtual m info (T 0 * 4096) name = .ok m' ∧
      memshowVirtual n info (T 0 * 4096) name = .ok n' ∧ AgreeOff 4096 D m' n' := by
  have halign : T 0 * 4096 = pteAddr (T 0 * 4096) := by
    have := h.lt 0
    rw [pteAddr_eq (by omega)]
    omega
  have hround : ∀ pn ∈ List.range (memsizeVirtual / pageSize), ∀ s t : Memory,
      Tree s T leaf ∧ Tree t T leaf ∧ AgreeOff 4096 D s t →
      ∃ s' t', memshowVirtualPage info (T 0 * 4096) s pn = .ok s' ∧
        memshowVirtualPage info (T 0 * 4096) t pn = .ok t' ∧
        Tree s' T leaf ∧ Tree t' T leaf ∧ AgreeOff 4096 D s' t' := by
    rintro pn hpn s t ⟨hs, ht, hst⟩
    have hlt : pn < 768 := by simpa using List.mem_range.mp hpn
    have hlook {m : Memory} (hm : Tree m T leaf) := hm.lookup_page (show pn < 1024 by omega)
    have hdraw {m : Memory} (hm : Tree m T leaf) :
        memshowVirtualPage info (T 0 * 4096) m pn =
          .ok (drawVirtualPage info m pn (VaMapping.ofEntry (leaf pn) (pn * 4096))) := by
      unfold memshowVirtualPage
      simp only [pageSize]
      rw [hlook hm]
      exact if_pos (VaMapping.ofEntry_ok (hleaf pn hlt))
    have hframe {m : Memory} (hm : Tree m T leaf) :=
      hm.frame (agreeOff_drawVirtualPage info m (VaMapping.ofEntry (leaf pn) (pn * 4096)) hlt) hne
    exact ⟨_, _, hdraw hs, hdraw ht, hframe hs, hframe ht,
      hst.map (pointwise_drawVirtualPage info pn _)⟩
  have hprint (m : Memory) := agreeOff_consolePrintf m (cpos 10 26) 0x0F00
    (text "VIRTUAL ADDRESS SPACE FOR " ++ name)
  obtain ⟨m', n', hm', hn', -, -, ha'⟩ := foldlM_paired hround
    ⟨h.frame (hprint m) hne, h'.frame (hprint n) hne, ha.map (pointwise_consolePrintf _ _ _)⟩
  refine ⟨m', n', ?_, ?_, ha'⟩
  · rw [memshowVirtual, assert_true halign, ok_bind, hm']
  · rw [memshowVirtual, assert_true halign, ok_bind, hn']

namespace Kernel

def withMem (k : Kernel) (m : Memory) : Kernel := { k with mem := m }

section withMem
variable (k : Kernel) (m n : Memory)

@[simp] theorem withMem_pageinfo : (k.withMem m).pageinfo = k.pageinfo := rfl
@[simp] theorem withMem_processes : (k.withMem m).processes = k.processes := rfl
@[simp] theorem withMem_withMem : (k.withMem m).withMem n = k.withMem n := rfl
@[simp] theorem withMem_self : k.withMem k.mem = k := rfl

end withMem

end Kernel

/-- A trap's checks and drawings, twice. -/
theorem MemSim.memshowVirtual_paired (h : MemSim L m w pt) (h' : MemSim L n w pt) (hw : w.Wf L)
    {p : ℕ} (hp : w.Live p) (info : PageInfos) (name : List ℕ) (ha : AgreeOff 4096 D m n) :
    ∃ m' n', memshowVirtual m info (pt p) name = .ok m' ∧
      memshowVirtual n info (pt p) name = .ok n' ∧ AgreeOff 4096 D m' n' := by
  rw [h.root p hp]
  exact WeensyOS.memshowVirtual_paired (h.tree p hp) (h'.tree p hp)
    (fun j hj => not_usable_console (hj ▸ hw.frames_usable hp j)) (World.leaf_present_lt hw p)
    info name ha

section showMemory
variable {k : Kernel}

/-- What memory does not decide about the viewer: whom it shows, and under what heading. -/
theorem memshowVirtualAnimate_withMem (k : Kernel) : ∃ (k₁ : Kernel) (name : List ℕ), ∀ m,
    memshowVirtualAnimate (k.withMem m) =
      if (k.processes k₁.showing).state ≠ .free then
        (memshowVirtual m k.pageinfo (k.processes k₁.showing).pagetable name).map k₁.withMem
      else .ok (k₁.withMem m) := by
  let advance := k.lastTicks = 0 ∨ (k.ticks + 2 ^ 32 - k.lastTicks) % 2 ^ 32 ≥ 50
  let k₁ : Kernel := { k with
    lastTicks := if advance then k.ticks else k.lastTicks
    showing := skipFree k.states (2 * nProc + 1)
      (if advance then k.showing + 1 else k.showing) % nProc }
  refine ⟨k₁, (formatD k₁.showing ++ text " ").take 3, fun m => ?_⟩
  have hmap (r : Except Panic Memory) :
      (r >>= fun m => pure (k₁.withMem m)) = r.map k₁.withMem := by
    cases r <;> rfl
  rw [← hmap]
  rfl

theorem memshowVirtualAnimate_paired (h : MemSim L m w (fun p => (k.processes p).pagetable))
    (h' : MemSim L n w (fun p => (k.processes p).pagetable)) (hs : k.states = w.state)
    (hw : w.Wf L) (ha : AgreeOff 4096 D m n) :
    ∃ k' n', memshowVirtualAnimate (k.withMem m) = .ok k' ∧
      memshowVirtualAnimate (k.withMem n) = .ok (k'.withMem n') ∧ AgreeOff 4096 D k'.mem n' := by
  obtain ⟨k₁, name, heq⟩ := memshowVirtualAnimate_withMem k
  rw [heq, heq]
  split_ifs with hlive
  · obtain ⟨m', n', hm', hn', ha'⟩ := h.memshowVirtual_paired h' hw (p := k₁.showing)
      (by rw [World.Live, ← hs]; exact hlive) k.pageinfo name ha
    exact ⟨k₁.withMem m', n', by rw [hm']; rfl, by rw [hn']; rfl, ha'⟩
  · exact ⟨k₁.withMem m, n, rfl, rfl, ha⟩

theorem showMemory_eq {reg : Registers} (hreg : showsMemory reg) (hc : checkVirtualMemory L k) :
    showMemory L k reg =
      if k.dispGlobal then memshowVirtualAnimate (k.withMem (memshowPhysical k.mem k.pageinfo))
      else .ok k := by
  rw [showMemory, if_pos hreg, assert_true hc, ok_bind]
  rfl

theorem showMemory_paired (h : Sim L k w) (h' : Sim L (k.withMem n) w) (hw : w.Wf L)
    (hc : w.Checked L) {reg : Registers} (hreg : showsMemory reg) (ha : AgreeOff 4096 D k.mem n) :
    ∃ k' n', showMemory L k reg = .ok k' ∧ showMemory L (k.withMem n) reg = .ok (k'.withMem n') ∧
      AgreeOff 4096 D k'.mem n' := by
  rw [showMemory_eq hreg ((h.check_iff hw).mpr hc), showMemory_eq hreg ((h'.check_iff hw).mpr hc)]
  by_cases hglobal : k.dispGlobal = true
  · have hm₁ := h.mem.console_frame hw (agreeOff_memshowPhysical k.mem k.pageinfo)
    have hn₁ := h'.mem.console_frame hw (agreeOff_memshowPhysical n k.pageinfo)
    have ha₁ := ha.map (pointwise_memshowPhysical k.pageinfo)
    rw [if_pos hglobal, if_pos (show (k.withMem n).dispGlobal = true from hglobal)]
    change ∃ k' n', memshowVirtualAnimate (k.withMem (memshowPhysical k.mem k.pageinfo)) = _ ∧
      memshowVirtualAnimate (k.withMem (memshowPhysical n k.pageinfo)) = _ ∧ _
    generalize memshowPhysical k.mem k.pageinfo = m₁ at *
    generalize memshowPhysical n k.pageinfo = n₁ at *
    exact memshowVirtualAnimate_paired hm₁ hn₁ h.state hw ha₁
  · rw [if_neg hglobal, if_neg (show ¬ (k.withMem n).dispGlobal = true from hglobal)]
    exact ⟨k, n, rfl, rfl, ha⟩

end showMemory

/-! Page tables. -/

/-- A tree determines every byte of its tables. -/
theorem Tree.page_eq {T : Fin 5 → ℕ} {leaf : ℕ → ℕ} (h : Tree m T leaf) (h' : Tree n T leaf)
    (j : Fin 5) {x : ℕ} (hx : x / 4096 = T j) : n x = m x := by
  have hentry : ∀ i < 512, entry n (T j * 4096) i = entry m (T j * 4096) i := by
    intro i hi
    have hlow := (h'.l4 i (by omega)).trans (h.l4 i (by omega)).symm
    have hhigh := (h'.l4 (512 + i) (by omega)).trans (h.l4 (512 + i) (by omega)).symm
    rw [leafTable, if_pos hi, Nat.mod_eq_of_lt hi] at hlow
    rw [leafTable, if_neg (by omega), Nat.add_mod_left, Nat.mod_eq_of_lt hi] at hhigh
    fin_cases j
    · exact (h'.l1 i hi).trans (h.l1 i hi).symm
    · exact (h'.l2 i hi).trans (h.l2 i hi).symm
    · exact (h'.l3 i hi).trans (h.l3 i hi).symm
    · exact hlow
    · exact hhigh
  exact eq_of_loadLE (hentry (x % 4096 / 8) (by omega)) x (by omega) (by omega)

/-- So two memories that represent the same ledger agree on the tables. -/
theorem MemSim.agree (h : MemSim L m w pt) (h' : MemSim L n w pt) {p : ℕ} (hp : w.Live p)
    (ha : AgreeOff 4096 (fun b => D b ∨ ∃ j, b = w.frames p j) m n) : AgreeOff 4096 D m n := by
  intro x hx
  by_cases htable : ∃ j, x / 4096 = w.frames p j
  · obtain ⟨j, hj⟩ := htable
    exact (h.tree p hp).page_eq (h'.tree p hp) j hj
  · exact ha x fun h => h.elim hx htable

theorem World.frames_pageAlloc (w : World) (p addr q : ℕ) :
    (w.pageAlloc p addr).frames q = w.frames q := by
  unfold World.pageAlloc
  split
  · rfl
  · split_ifs
    · exact w.frames_hold_page _ _ _ _
    · rfl

theorem sysPageAllocFindFree_paired (addr : ℕ) (h : MemSim L m w pt) (h' : MemSim L n w pt)
    (hw : w.Wf L) {p : ℕ} (hp : w.Live p) (hp' : p < 16) (haddr : addr < 2 ^ 64)
    (hok : w.AllocOk addr) (ha : AgreeOff 4096 D m n) :
    ∃ m' n' info r, sysPageAllocFindFree m w.info (pt p) p addr = .ok (m', info, r) ∧
      sysPageAllocFindFree n w.info (pt p) p addr = .ok (n', info, r) ∧ AgreeOff 4096 D m' n' := by
  obtain ⟨m', hm', hsim, hagree⟩ := sysPageAllocFindFree_ok addr h hw hp hp' haddr hok
  obtain ⟨n', hn', hsim', hagree'⟩ := sysPageAllocFindFree_ok addr h' hw hp hp' haddr hok
  have hlive : (w.pageAlloc p addr).Live p := by
    rw [Live, (pageAlloc_state w p addr).1]
    exact hp
  refine ⟨m', n', _, _, hm', hn', hsim.agree hsim' hlive ?_⟩
  rw [w.frames_pageAlloc]
  exact ha.square hagree hagree'

/-! Fork. -/

/-- The pages that `p` holds are the same in both memories, unless nothing is said of them. -/
def World.Shown (w : World) (D : ℕ → Prop) (p : ℕ) : Prop :=
  (∀ b, D b) ∨ ∀ i r, w.held (p, .page i) = some r → ¬ D r.frame

theorem World.Shown.of_held {p : ℕ} (h : w.Shown D p)
    (hh : ∀ i, w'.held (p, .page i) = w.held (p, .page i)) : w'.Shown D p :=
  h.imp_right fun h i r hr => h i r (hh i ▸ hr)

theorem forkCopy_paired {p : ℕ} (hshown : w.Shown D p) (i : ℕ) (ha : AgreeOff 4096 D m n) :
    AgreeOff 4096 D (forkCopy w p i m) (forkCopy w p i n) := by
  rcases hshown with hall | hshown
  · exact fun x hx => absurd (hall _) hx
  · unfold forkCopy
    split
    · rename_i f hf
      exact ha.memcpy _ (hshown i _ hf)
    · exact ha

theorem forkPage_paired {p c i : ℕ} (h : MemSim L m w pt) (h' : MemSim L n w pt)
    (hf : Forking L p c i w) (hc : c < 16) (hi : 256 ≤ i) (hi' : i < 1024)
    (hshown : w.Shown D p) (ha : AgreeOff 4096 D m n) :
    ∃ m' n', forkPage (pt p) (pt c) c (i * 4096) (m, w.info) = .ok (m', (forkSlot p c i w).info) ∧
      forkPage (pt p) (pt c) c (i * 4096) (n, w.info) = .ok (n', (forkSlot p c i w).info) ∧
      MemSim L m' (forkSlot p c i w) pt ∧ MemSim L n' (forkSlot p c i w) pt ∧
      AgreeOff 4096 D m' n' := by
  obtain ⟨m', hm', hsim, -, hagree⟩ := forkPage_ok h hf hc hi hi'
  obtain ⟨n', hn', hsim', -, hagree'⟩ := forkPage_ok h' hf hc hi hi'
  have hlive : (forkSlot p c i w).Live c := by
    rw [Live, (forkSlot_state p c i w).1]
    exact hf.child
  have hframes : (forkSlot p c i w).frames c = w.frames c := by
    funext j
    rw [frames, frames, forkSlot_held_of_ne (by simp)]
  refine ⟨m', n', hm', hn', hsim, hsim', hsim.agree hsim' hlive ?_⟩
  rw [hframes]
  exact (forkCopy_paired hshown i ha).square hagree hagree'

theorem forkLoop_paired {p c i k : ℕ} (h : MemSim L m w pt) (h' : MemSim L n w pt)
    (hf : Forking L p c i w) (hc : c < 16) (hi : 256 ≤ i) (hk : i + k ≤ 1024)
    (hshown : w.Shown D p) (ha : AgreeOff 4096 D m n) :
    ∃ m' n' info, forkLoop (pt p) (pt c) c k (i * 4096) (m, w.info) = .ok (m', info) ∧
      forkLoop (pt p) (pt c) c k (i * 4096) (n, w.info) = .ok (n', info) ∧
      AgreeOff 4096 D m' n' := by
  induction k generalizing i w m n with
  | zero => exact ⟨m, n, w.info, rfl, rfl, ha⟩
  | succ k ih =>
      obtain ⟨m₁, n₁, hm₁, hn₁, hsim, hsim', ha₁⟩ :=
        forkPage_paired h h' hf hc hi (by omega) hshown ha
      have hshown₁ : (forkSlot p c i w).Shown D p := by
        apply hshown.of_held
        intro x
        exact forkSlot_held_of_ne fun heq => hf.ne (Prod.mk.inj heq).1
      obtain ⟨m', n', info, hm', hn', ha'⟩ :=
        ih hsim hsim' (hf.next hi (by omega)) (by omega) (by omega) hshown₁ ha₁
      have hnext : i * 4096 + 4096 = (i + 1) * 4096 := by omega
      refine ⟨m', n', info, ?_, ?_, ha'⟩
      · rw [forkLoop, hm₁, ok_bind]
        simp only [pageSize, hnext]
        exact hm'
      · rw [forkLoop, hn₁, ok_bind]
        simp only [pageSize, hnext]
        exact hn'

section sysFork
variable {k : Kernel} {c pt : ℕ} (info info' : PageInfos)
  (hslot : findFreeSlot k.states (nProc - 1) 1 = some c) (hne : k.current ≠ c)

include hslot hne

/-- Memory decides nothing in `sysFork` beyond what its two loops make of it. -/
theorem sysFork_success_withMem (hpt : pt ≠ 0) : ∃ k' : Kernel, k'.current = k.current ∧ ∀ m m₁ m',
    duplicatePagetable m k.pageinfo k.currentProc.pagetable c = .ok (m₁, info, pt) →
    forkLoop k.currentProc.pagetable pt c userPages procStartAddr (m₁, info) = .ok (m', info') →
    sysFork (k.withMem m) = .ok (k'.withMem m', .break) := by
  let k₁ := k.updateProc c fun q => { q with pid := c, state := .runnable }
  let k₂ := { k₁.updateProc c fun q => { q with pagetable := pt } with pageinfo := info' }
  let regs := k₂.currentProc.registers
  let k₃ := k₂.updateProc c fun q => { q with registers := { regs with regRax := 0 } }
  have hparent : k₁.currentProc = k.currentProc := k.updateProc_of_ne c _ hne
  refine ⟨k₃.setRax k.current (BitVec.ofNat 64 c), rfl, fun m m₁ m' hdup hloop => ?_⟩
  rw [← hparent] at hdup hloop
  have hslot' : findFreeSlot (k.withMem m).states (nProc - 1) 1 = some c := hslot
  unfold sysFork
  rw [hslot']
  change (duplicatePagetable m k.pageinfo k₁.currentProc.pagetable c >>= _) = _
  rw [hdup, ok_bind]
  dsimp only
  rw [if_pos hpt]
  change (forkLoop k₁.currentProc.pagetable pt c userPages procStartAddr (m₁, info) >>= _) = _
  rw [hloop]
  rfl

theorem sysFork_fail_withMem : ∃ k' : Kernel, k'.current = k.current ∧ ∀ m m',
    duplicatePagetable m k.pageinfo k.currentProc.pagetable c = .ok (m', info, 0) →
    sysFork (k.withMem m) = .ok (k'.withMem m', .return) := by
  let k₁ := k.updateProc c fun q => { q with pid := c, state := .runnable }
  let k₂ := { k₁.updateProc c fun q => { q with pagetable := 0 } with pageinfo := info }
  let k₃ := k₂.updateProc c fun q => { q with state := .free }
  have hparent : k₁.currentProc = k.currentProc := k.updateProc_of_ne c _ hne
  refine ⟨k₃.setRax k.current (-1), rfl, fun m m' hdup => ?_⟩
  rw [← hparent] at hdup
  have hslot' : findFreeSlot (k.withMem m).states (nProc - 1) 1 = some c := hslot
  unfold sysFork
  rw [hslot']
  change (duplicatePagetable m k.pageinfo k₁.currentProc.pagetable c >>= _) = _
  rw [hdup]
  rfl

end sysFork

theorem sysFork_paired {k : Kernel} (h : Sim L k w) (h' : Sim L (k.withMem n) w) (hw : w.Wf L)
    (hchk : w.Checked L) (hrun : w.Live w.current) (hshown : w.Shown D w.current)
    (ha : AgreeOff 4096 D k.mem n) :
    ∃ k' n' next, sysFork k = .ok (k', next) ∧ sysFork (k.withMem n) = .ok (k'.withMem n', next) ∧
      AgreeOff 4096 D k'.mem n' ∧ k'.current = k.current := by
  cases hslot : findFreeSlot w.state (nProc - 1) 1 with
  | none =>
      rw [← h.state] at hslot
      have hslot' : findFreeSlot (k.withMem n).states (nProc - 1) 1 = none := hslot
      refine ⟨k.setRax k.current (-1), n, .break, ?_, ?_, ha, rfl⟩
      · rw [sysFork, hslot]
      · rw [sysFork, hslot']
        rfl
  | some c =>
      obtain ⟨hc1, hc2, hfree, -⟩ := findFreeSlot_some hslot
      rw [← h.state] at hslot
      simp only [nProc] at hc2
      have hc16 : c < 16 := by omega
      have hne : w.current ≠ c := by
        rintro rfl
        exact hrun hfree
      have hne' : k.current ≠ c := by rwa [h.current]
      have hpt : k.currentProc.pagetable = w.frames w.current 0 * 4096 := by
        rw [Kernel.currentProc, h.current]
        exact h.mem.root _ hrun
      cases hdup : World.duplicate c (w.setState c .runnable) with
      | none =>
          obtain ⟨f, hf, hfail⟩ := duplicatePagetable_fail hc16 hdup
          rw [setState_info, ← h.info] at hfail
          obtain ⟨k', hcur, hk'⟩ := sysFork_fail_withMem (World.drain k.pageinfo c) hslot hne'
          exact ⟨k'.withMem (f k.mem), f n, .return, hk' k.mem _ (hfail k.mem _).1,
            hk' n _ (hfail n _).1, ha.map hf, hcur⟩
      | some w' =>
          have hdup' {m : Memory} (hm : MemSim L m w fun p => (k.processes p).pagetable) :=
            duplicatePagetable_ok (w := w.setState c .runnable) hc16 (hm.tree _ hrun)
              (w.leaf_kernel _) (hchk.tablesCounted _ hrun) hdup
          obtain ⟨m₁, hd, htree, hagree⟩ := hdup' h.mem
          obtain ⟨n₁, hd', htree', hagree'⟩ := hdup' h'.mem
          rw [setState_info, ← h.info, ← hpt] at hd hd'
          have hf := Forking.of_duplicate hw hchk hrun hfree hc1 hc16 hdup
          have hm₁ := h.mem.duplicate hf.wf hfree hdup hw htree hagree
          have hn₁ := h'.mem.duplicate hf.wf hfree hdup hw htree' hagree'
          have ha₁ := hm₁.agree hn₁ hf.child (ha.square hagree hagree')
          have hshown₁ : w'.Shown D w.current := by
            apply hshown.of_held
            intro i
            rw [duplicate_held_page hdup]
          obtain ⟨m', n', info, hl, hl', ha'⟩ :=
            forkLoop_paired hm₁ hn₁ hf hc16 le_rfl (show 256 + userPages ≤ 1024 by norm_num)
              hshown₁ ha₁
          have hpt0 : w'.frames c 0 * 4096 ≠ 0 := by
            have := (duplicate_fresh hdup 0).1
            omega
          have hparent : (k.processes w.current).pagetable = k.currentProc.pagetable := by
            rw [Kernel.currentProc, h.current]
          rw [Function.update_self, Function.update_of_ne hne, hparent] at hl hl'
          obtain ⟨k', hcur, hk'⟩ := sysFork_success_withMem w'.info info hslot hne' hpt0
          exact ⟨k'.withMem m', n', .break, hk' k.mem m₁ m' hd hl, hk' n n₁ n' hd' hl', ha', hcur⟩

/-! Traps. -/

/-- The calls that neither end the caller nor hand the processor on. -/
def Trap.keepsRunning : Trap → Bool
  | .getpid => true
  | .pageAlloc => true
  | .fork => true
  | _ => false

theorem Trap.keepsRunning_cases {t : Trap} (h : t.keepsRunning = true) :
    t = .getpid ∨ t = .pageAlloc ∨ t = .fork := by
  cases t with
  | syscall n =>
      fin_cases n
      any_goals cases h
      · exact Or.inl rfl
      · exact Or.inr (Or.inl rfl)
      · exact Or.inr (Or.inr rfl)
  | _ => cases h

theorem Trap.keepsRunning_ordinary {t : Trap} (h : t.keepsRunning = true) : t.ordinary = true := by
  rcases keepsRunning_cases h with rfl | rfl | rfl <;> rfl

section exception
variable {k : Kernel} {cpu : Cpu} {t : Trap}

theorem dispatch_paired (h : Sim L k w) (h' : Sim L (k.withMem n) w) (hw : w.Wf L)
    (hchk : w.Checked L) (hrun : w.Live w.current)
    (hreg : k.currentProc.registers = Registers.ofWords (trapFrame cpu t))
    (ht : t.keepsRunning = true) (halloc : t = .pageAlloc → w.AllocOk cpu.rdi.toNat)
    (hshown : w.Shown D w.current) (ha : AgreeOff 4096 D k.mem n) :
    ∃ k' n' next, dispatch k (Registers.ofWords (trapFrame cpu t)) t.cr2 = .ok (k', next) ∧
      dispatch (k.withMem n) (Registers.ofWords (trapFrame cpu t)) t.cr2 =
        .ok (k'.withMem n', next) ∧ AgreeOff 4096 D k'.mem n' := by
  have hn := intno_ofWords cpu t
  rcases Trap.keepsRunning_cases ht with rfl | rfl | rfl
  · refine ⟨k.setRax k.current (BitVec.ofNat 64 k.currentProc.pid), n, .break, ?_, ?_, ha⟩
    · unfold dispatch
      rw [hn]
      rfl
    · unfold dispatch
      rw [hn]
      rfl
  · have hpt : k.currentProc.pagetable = (k.processes w.current).pagetable := by
      rw [Kernel.currentProc, h.current]
    have hpid : k.currentProc.pid = w.current := by rw [Kernel.currentProc, h.pid, h.current]
    obtain ⟨m', n', info, r, hm', hn', ha'⟩ := sysPageAllocFindFree_paired cpu.rdi.toNat h.mem
      h'.mem hw hrun hw.current cpu.rdi.isLt (halloc rfl) ha
    rw [← h.info, ← hpt, ← hpid] at hm' hn'
    have hrdi : k.currentProc.registers.regRdi = cpu.rdi := by
      rw [hreg]
      rfl
    rw [← hrdi] at hm' hn'
    refine ⟨({ k with mem := m', pageinfo := info } : Kernel).setRax k.current (BitVec.ofInt 64 r),
      n', .break, ?_, ?_, ha'⟩
    · unfold dispatch
      rw [hn]
      change (sysPageAllocFindFree k.mem k.pageinfo k.currentProc.pagetable k.currentProc.pid
        k.currentProc.registers.regRdi.toNat >>= _) = _
      rw [hm']
      rfl
    · unfold dispatch
      rw [hn]
      change (sysPageAllocFindFree (k.withMem n).mem k.pageinfo k.currentProc.pagetable
        k.currentProc.pid k.currentProc.registers.regRdi.toNat >>= _) = _
      rw [hn']
      rfl
  · obtain ⟨k', n', next, hk', hn', ha', -⟩ := sysFork_paired h h' hw hchk hrun hshown ha
    refine ⟨k', n', next, ?_, ?_, ha'⟩
    · unfold dispatch
      rw [hn]
      exact hk'
    · unfold dispatch
      rw [hn]
      exact hn'

theorem schedule_withMem (h : Sim L k w) (h' : Sim L (k.withMem n) w) (hw : w.Wf L) :
    ∃ k' o, schedule L k = .ok (k', o) ∧ schedule L (k.withMem n) = .ok (k'.withMem n, o) ∧
      k'.mem = k.mem := by
  have hpid : k.currentProc.pid < 16 := by
    rw [Kernel.currentProc, h.pid, h.current]
    exact hw.current
  unfold WeensyOS.schedule
  cases hl : scheduleLoop w.state nProc k.currentProc.pid with
  | none =>
      rw [← h.state] at hl
      have hl' : scheduleLoop (k.withMem n).states nProc (k.withMem n).currentProc.pid = none := hl
      exact ⟨k, .spin, by rw [hl], by rw [hl'], rfl⟩
  | some p =>
      obtain ⟨d, -, -, -, hp, -⟩ := scheduleLoop_some hpid hl
      rw [← h.state] at hl
      have hl' : scheduleLoop (k.withMem n).states nProc (k.withMem n).currentProc.pid = some p :=
        hl
      refine ⟨{ k with current := p }, .schedule, ?_, ?_, rfl⟩
      · rw [hl]
        dsimp only
        rw [(run_ok h hp).1]
        rfl
      · rw [hl']
        dsimp only
        rw [(run_ok h' hp).1]
        rfl

theorem leave_withMem (h : Sim L k w) (h' : Sim L (k.withMem n) w) (hw : w.Wf L) (next : Next) :
    ∃ k' o, leave L k next = .ok (k', o) ∧ leave L (k.withMem n) next = .ok (k'.withMem n, o) ∧
      k'.mem = k.mem := by
  cases next with
  | «return» => exact ⟨k, .returned, rfl, rfl, rfl⟩
  | schedule => exact schedule_withMem h h' hw
  | «break» =>
      have hstate : k.currentProc.state = w.state w.current := by
        rw [← h.state, ← h.current]
        rfl
      have hstate' : (k.withMem n).currentProc.state = w.state w.current := hstate
      simp only [WeensyOS.leave, hstate, hstate']
      split_ifs with hc
      · have hr := (run_ok h hc).1
        have hr' := (run_ok h' hc).1
        rw [← h.current] at hr hr'
        refine ⟨{ k with current := k.current }, .run, ?_, ?_, rfl⟩
        · rw [hr]
          rfl
        · change (run L (k.withMem n) k.current >>= _) = _
          rw [hr']
          rfl
      · exact schedule_withMem h h' hw

/-- One trap, twice. -/
theorem exception_paired (h : Sim L k w) (h' : Sim L (k.withMem n) w) (hw : w.Wf L)
    (hchk : w.Checked L) (hrun : w.Live w.current) (ht : t.keepsRunning = true)
    (halloc : t = .pageAlloc → w.AllocOk cpu.rdi.toNat) (hshown : w.Shown D w.current)
    (ha : AgreeOff 4096 D k.mem n) :
    ∃ k' n' o, exception L k (Registers.ofWords (trapFrame cpu t)) t.cr2 = .ok (k', o) ∧
      exception L (k.withMem n) (Registers.ofWords (trapFrame cpu t)) t.cr2 =
        .ok (k'.withMem n', o) ∧ AgreeOff 4096 D k'.mem n' := by
  have hord := Trap.keepsRunning_ordinary ht
  have huser : t.user := by
    rcases Trap.keepsRunning_cases ht with rfl | rfl | rfl <;> trivial
  have hshows := showsMemory_of_ordinary cpu hord huser
  set reg := Registers.ofWords (trapFrame cpu t) with hreg
  set k₁ := k.updateProc k.current (fun q => { q with registers := reg }) with hk₁
  have h₁ : Sim L k₁ w := h.updateProc _ fun _ => ⟨rfl, rfl, rfl⟩
  have h₁' : Sim L (k₁.withMem n) w :=
    h'.updateProc (f := fun q => { q with registers := reg }) k.current fun _ => ⟨rfl, rfl, rfl⟩
  obtain ⟨k₂, n₂, hs, hs', ha₂⟩ := showMemory_paired h₁ h₁' hw hchk hshows ha
  have hsim {k₁ k₂ : Kernel} (h₁ : Sim L k₁ w) (hs : showMemory L k₁ reg = .ok k₂) :
      Sim L k₂ w ∧ k₂.currentProc = k₁.currentProc := by
    obtain ⟨m, lt, sh, hshow, hm⟩ := h₁.showMemory_ok hw hchk hshows
    rw [hs] at hshow
    obtain rfl := Except.ok.inj hshow
    exact ⟨⟨h₁.info, h₁.state, h₁.pid, h₁.current, h₁.mem.console_frame hw hm⟩, rfl⟩
  obtain ⟨h₂, hproc⟩ := hsim h₁ hs
  obtain ⟨h₂', -⟩ := hsim h₁' hs'
  have hreg₂ : k₂.currentProc.registers = reg := by
    rw [hproc]
    simp [hk₁, Kernel.currentProc]
  obtain ⟨k₃, n₃, next, hd, hd', ha₃⟩ :=
    dispatch_paired h₂ h₂' hw hchk hrun hreg₂ ht halloc hshown ha₂
  have hdispatch {k₂ k₃ : Kernel} (h₂ : Sim L k₂ w) (hreg₂ : k₂.currentProc.registers = reg)
      (hd : dispatch k₂ reg t.cr2 = .ok (k₃, next)) :
      Sim L k₃ (w.dispatch t cpu.rdi.toNat).1 := by
    obtain ⟨k', hk', h₃, -⟩ := dispatch_ok h₂ hw hrun hreg₂ hchk hord huser halloc
    rw [hd] at hk'
    obtain ⟨rfl, -⟩ := Prod.mk.inj (Except.ok.inj hk')
    exact h₃
  obtain ⟨k', o, hl, hl', hmem⟩ := leave_withMem (hdispatch h₂ hreg₂ hd)
    (hdispatch h₂' hreg₂ hd') (hw.dispatch hchk hrun t halloc) next
  refine ⟨k', n₃, o, ?_, ?_, ?_⟩
  · unfold exception
    dsimp only
    rw [Kernel.updateProc_mem, setPagetable_kernel h.mem.kernel, ok_bind, hs, ok_bind, hd, ok_bind]
    exact hl
  · unfold exception
    dsimp only
    rw [Kernel.updateProc_mem, setPagetable_kernel h'.mem.kernel, ok_bind]
    change (showMemory L (k₁.withMem n) reg >>= _) = _
    rw [hs', ok_bind, hd', ok_bind]
    exact hl'
  · rw [hmem]
    exact ha₃

end exception

end WeensyOS
