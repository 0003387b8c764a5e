import WeensyOS.PageInfo

/-!
# The console and the memory viewer

`console_putc` and the `memshow` functions write 16-bit cells into the console page. The texts are
given as the character codes that `printer_vprintf` emits for the call at hand. Nothing here
touches a byte outside the console page, and the viewer's assertions hold for every page-table tree
whose leaf entries name existing frames.
-/

namespace WeensyOS
open ByteMemory

@[simp] abbrev consoleCells : ℕ := 25 * 80

def cpos (row col : ℕ) : ℕ := row * 80 + col

def setCell (m : Memory) (i v : ℕ) : Memory := storeLE m (consoleAddr + 2 * i) v 2

/-- The newline loop of `console_putc`, with `n` columns left in the row. -/
def blankCells (color : ℕ) : ℕ → Memory × ℕ → Memory × ℕ
  | 0, s => s
  | n + 1, (m, cursor) => blankCells color n (setCell m cursor (0x20 ||| color), cursor + 1)

def consolePutc (color : ℕ) (s : Memory × ℕ) (c : ℕ) : Memory × ℕ :=
  let cursor := if s.2 ≥ consoleCells then 0 else s.2
  if c = 0x0A then blankCells color (80 - cursor % 80) (s.1, cursor)
  else (setCell s.1 cursor (c ||| color), cursor + 1)

def consolePrintf (m : Memory) (pos : ℤ) (color : ℕ) (out : List ℕ) : Memory × ℕ :=
  let start := if pos < 0 ∨ pos ≥ consoleCells then 0 else pos.toNat
  out.foldl (consolePutc color) (m, start)

def text (s : String) : List ℕ := s.toList.map Char.toNat

/-- `fill_numbuf`: the digits of `val`, most significant first. -/
def fillNumbuf (base : ℕ) (upper : Bool) : ℕ → ℕ → List ℕ → List ℕ
  | 0, _, acc => acc
  | n + 1, val, acc =>
    let d := val % base
    let c := if d < 10 then 0x30 + d else (if upper then 0x37 else 0x57) + d
    if val / base ≠ 0 then fillNumbuf base upper n (val / base) (c :: acc) else c :: acc

def formatD (v : ℕ) : List ℕ := fillNumbuf 10 true 23 v []

def formatP (v : ℕ) : List ℕ := text "0x" ++ fillNumbuf 16 false 23 v []

/-- `%06X` -/
def format06X (v : ℕ) : List ℕ :=
  let digits := fillNumbuf 16 true 23 v []
  List.replicate (6 - digits.length) 0x30 ++ digits

def consoleClear (m : Memory) : Memory :=
  storeLE ((List.range consoleCells).foldl (fun m i => setCell m i (0x20 ||| 0x0700)) m)
    (consoleAddr + 0xFFC) 0 4

def memstateColors : List ℕ :=
  [0x0D4B, 0x0752, 0x072E, 0x0C31, 0x0A32, 0x0933, 0x0E34, 0x0F35, 0x0C36, 0x0A37, 0x0938, 0x0E39,
    0x0F41, 0x0C42, 0x0A43, 0x0944, 0x0E45, 0x0F46, 0x53]

@[simp] abbrev sharedColor : ℕ := 0x53

/-- The color of a page by its owner; a free page shows as free whatever its last owner. -/
def ownerColor (p : PageInfo) : ℕ :=
  let owner := if p.refcount = 0 then poFree else p.owner
  memstateColors.getD (owner - poKernel).toNat 0

/-- The address printed in front of every 64 pages. -/
def rowLabel (m : Memory) (pn row addr : ℕ) : Memory :=
  if pn % 64 = 0 then
    (consolePrintf m (cpos row 3) 0x0F00 (text "0x" ++ format06X addr ++ text " ")).1
  else m

def memshowPhysicalPage (info : PageInfos) (m : Memory) (pn : ℕ) : Memory :=
  let color := if (info pn).refcount > 1 ∧ (pn : ℤ) ≠ pageNumber consoleAddr then
      sharedColor ||| 0x0F00
    else ownerColor (info pn)
  setCell (rowLabel m pn (1 + pn / 64) (pn <<< 12)) (cpos (1 + pn / 64) (12 + pn % 64)) color

def memshowPhysical (m : Memory) (info : PageInfos) : Memory :=
  (List.range nPages).foldl (memshowPhysicalPage info)
    (consolePrintf m (cpos 0 32) 0x0F00 (text "PHYSICAL MEMORY")).1

/-- The color of a mapped page in the virtual memory viewer. -/
def mappedColor (p : PageInfo) (va perm : ℕ) : ℕ :=
  let color := ownerColor p
  let color := if perm &&& pteU ≠ 0 then
      ((color &&& 0x0F00) <<< 4) ||| ((color &&& 0xF000) >>> 4) ||| (color &&& 0x00FF)
    else color
  if p.refcount > 1 ∧ va ≠ consoleAddr then
    let color := sharedColor ||| (color &&& 0xF000)
    if perm &&& pteU = 0 then color ||| 0x0F00 else color
  else color

/-- The cell, and at the start of a row the address, drawn for one virtual page. -/
def drawVirtualPage (info : PageInfos) (m : Memory) (pn : ℕ) (vam : VaMapping) : Memory :=
  let va := pn * pageSize
  let color := if vam.pn < 0 then 0x20 else mappedColor (info vam.pn.toNat) va vam.perm
  setCell (rowLabel m pn (11 + pn / 64) va) (cpos (11 + pn / 64) (12 + pn % 64)) color

def memshowVirtualPage (info : PageInfos) (pagetable : ℕ) (m : Memory) (pn : ℕ) :
    Except Panic Memory :=
  let vam := virtualMemoryLookup m pagetable (pn * pageSize)
  if vam.pn < 0 ∨ vam.pa < memsizePhysical then .ok (drawVirtualPage info m pn vam)
  else .error .assertion

def memshowVirtual (m : Memory) (info : PageInfos) (pagetable : ℕ) (name : List ℕ) :
    Except Panic Memory := do
  assert (pagetable = pteAddr pagetable)
  (List.range (memsizeVirtual / pageSize)).foldlM (memshowVirtualPage info pagetable)
    (consolePrintf m (cpos 10 26) 0x0F00 (text "VIRTUAL ADDRESS SPACE FOR " ++ name)).1

@[simp] abbrev consolePage : ℕ := 0xB8

theorem agreeOff_setCell (m : Memory) {i : ℕ} (v : ℕ) (hi : i < 2000) :
    AgreeOff 4096 (· = consolePage) m (setCell m i v) :=
  agreeOff_storeLE 4096 m 0xB8 (2 * i) v 2 (by omega)

theorem blankCells_spec (color n : ℕ) (m : Memory) (cursor : ℕ) (h : cursor + n ≤ 2000) :
    AgreeOff 4096 (· = consolePage) m (blankCells color n (m, cursor)).1 ∧
      (blankCells color n (m, cursor)).2 = cursor + n := by
  induction n generalizing m cursor with
  | zero => exact ⟨AgreeOff.refl _ _ _, rfl⟩
  | succ n ih =>
      obtain ⟨hagree, hcur⟩ := ih (setCell m cursor (0x20 ||| color)) (cursor + 1) (by omega)
      exact ⟨(agreeOff_setCell m _ (by omega)).trans hagree, by rw [blankCells, hcur]; omega⟩

/-- Each character keeps the cursor inside the screen and writes only there. A newline fills the
row it starts in, so it ends on a row boundary, and the screen ends on one too. -/
theorem consolePutc_spec (color c : ℕ) (s : Memory × ℕ) :
    AgreeOff 4096 (· = consolePage) s.1 (consolePutc color s c).1 ∧
      (consolePutc color s c).2 ≤ 2000 := by
  unfold consolePutc
  simp only [consoleCells]
  by_cases hwrap : s.2 ≥ 25 * 80
  · rw [if_pos hwrap]
    split_ifs
    · obtain ⟨hagree, hcur⟩ := blankCells_spec color (80 - 0 % 80) s.1 0 (by norm_num)
      exact ⟨hagree, by rw [hcur]; norm_num⟩
    · exact ⟨agreeOff_setCell (i := 0) s.1 _ (by norm_num), by norm_num⟩
  · rw [if_neg hwrap]
    split_ifs
    · obtain ⟨hagree, hcur⟩ := blankCells_spec color (80 - s.2 % 80) s.1 s.2 (by omega)
      exact ⟨hagree, by rw [hcur]; omega⟩
    · exact ⟨agreeOff_setCell s.1 _ (by omega), by simp only; omega⟩

theorem agreeOff_consolePrintf (m : Memory) (pos : ℤ) (color : ℕ) (out : List ℕ) :
    AgreeOff 4096 (· = consolePage) m (consolePrintf m pos color out).1 := by
  unfold consolePrintf
  generalize (if pos < 0 ∨ pos ≥ (consoleCells : ℤ) then 0 else pos.toNat) = start
  induction out generalizing m start with
  | nil => exact AgreeOff.refl _ _ _
  | cons c out ih =>
      have hstep := (consolePutc_spec color c (m, start)).1
      exact hstep.trans (ih (consolePutc color (m, start) c).1 (consolePutc color (m, start) c).2)

theorem agreeOff_foldl {α : Type} (f : Memory → α → Memory) (P : ℕ → Prop) (l : List α)
    (h : ∀ m, ∀ x ∈ l, AgreeOff 4096 P m (f m x)) (m : Memory) :
    AgreeOff 4096 P m (l.foldl f m) := by
  induction l generalizing m with
  | nil => exact AgreeOff.refl _ _ _
  | cons x l ih =>
      exact (h m x (by simp)).trans (ih (fun m y hy => h m y (by simp [hy])) (f m x))

theorem agreeOff_consoleClear (m : Memory) :
    AgreeOff 4096 (· = consolePage) m (consoleClear m) := by
  have hcells := agreeOff_foldl (fun m i => setCell m i (0x20 ||| 0x0700)) (· = consolePage)
    (List.range consoleCells)
    (fun m i hi => agreeOff_setCell m _ (by simpa using List.mem_range.mp hi)) m
  exact hcells.trans (agreeOff_storeLE 4096 _ 0xB8 0xFFC 0 4 (by norm_num))

theorem agreeOff_rowLabel (m : Memory) (pn row addr : ℕ) :
    AgreeOff 4096 (· = consolePage) m (rowLabel m pn row addr) := by
  unfold rowLabel
  split_ifs
  · exact agreeOff_consolePrintf m _ _ _
  · exact AgreeOff.refl _ _ _

theorem agreeOff_memshowPhysical (m : Memory) (info : PageInfos) :
    AgreeOff 4096 (· = consolePage) m (memshowPhysical m info) := by
  refine (agreeOff_consolePrintf m _ _ _).trans (agreeOff_foldl _ _ _ (fun m pn hpn => ?_) _)
  have hlt : pn < 512 := List.mem_range.mp hpn
  exact (agreeOff_rowLabel m _ _ _).trans (agreeOff_setCell _ _ (by unfold cpos; omega))

/-- A monadic loop that can always take its next round, keeping `P`, runs to its end. -/
theorem foldlM_exists_ok {α σ : Type} (f : σ → α → Except Panic σ) (P : σ → Prop) (l : List α)
    (h : ∀ s, P s → ∀ x ∈ l, ∃ s', f s x = .ok s' ∧ P s') (s : σ) (hs : P s) :
    ∃ s', l.foldlM f s = .ok s' ∧ P s' := by
  induction l generalizing s with
  | nil => exact ⟨s, rfl, hs⟩
  | cons x l ih =>
      obtain ⟨t, ht, hpt⟩ := h s hs x (by simp)
      obtain ⟨s', hs', hp⟩ := ih (fun s hs y hy => h s hs y (by simp [hy])) t hpt
      exact ⟨s', by rw [List.foldlM_cons, ht, ok_bind, hs'], hp⟩

/-- The frame number that a lookup reports is negative exactly when the page is unmapped. -/
theorem VaMapping.ofEntry_ok {pe va : ℕ} (h : pe &&& pteP ≠ 0 → pe < 0x200000) :
    (VaMapping.ofEntry pe va).pn < 0 ∨ (VaMapping.ofEntry pe va).pa < memsizePhysical := by
  unfold VaMapping.ofEntry
  split_ifs with hp
  · right
    have hlt := h hp
    change pteAddr pe + pageOffset va < 0x200000
    rw [pteAddr_eq (by omega), pageOffset_eq]
    omega
  · exact Or.inl (by simp [VaMapping.unmapped])

theorem agreeOff_drawVirtualPage (info : PageInfos) (m : Memory) {pn : ℕ} (vam : VaMapping)
    (hlt : pn < 768) : AgreeOff 4096 (· = consolePage) m (drawVirtualPage info m pn vam) :=
  (agreeOff_rowLabel m _ _ _).trans (agreeOff_setCell _ _ (by unfold cpos; omega))

theorem memshowVirtual_ok {m : Memory} {T : Fin 5 → ℕ} {leaf : ℕ → ℕ} (h : Tree m T leaf)
    (hne : ∀ j, T j ≠ consolePage) (hleaf : ∀ i < 768, leaf i &&& pteP ≠ 0 → leaf i < 0x200000)
    (info : PageInfos) (name : List ℕ) :
    ∃ m', memshowVirtual m info (T 0 * 4096) name = .ok m' ∧
      AgreeOff 4096 (· = consolePage) m m' := by
  have halign : T 0 * 4096 = pteAddr (T 0 * 4096) := by
    have := h.lt 0
    rw [pteAddr_eq (by omega)]
    omega
  unfold memshowVirtual
  rw [assert_true halign, ok_bind]
  apply foldlM_exists_ok _ (AgreeOff 4096 (· = consolePage) m)
  · intro s hs pn hpn
    have hlt : pn < 768 := by simpa using List.mem_range.mp hpn
    have htree := h.frame hs hne
    have hlook : virtualMemoryLookup s (T 0 * 4096) (pn * pageSize) =
        VaMapping.ofEntry (leaf pn) (pn * pageSize) := by
      rw [htree.lookup_eq, if_pos (by unfold inTree; simp only [pageSize]; omega),
        show pn * pageSize / 4096 % 1024 = pn by simp only [pageSize]; omega]
    refine ⟨drawVirtualPage info s pn (VaMapping.ofEntry (leaf pn) (pn * pageSize)), ?_,
      hs.trans (agreeOff_drawVirtualPage info s _ hlt)⟩
    unfold memshowVirtualPage
    rw [hlook]
    exact if_pos (VaMapping.ofEntry_ok (hleaf pn hlt))
  · exact agreeOff_consolePrintf m _ _ _

end WeensyOS
