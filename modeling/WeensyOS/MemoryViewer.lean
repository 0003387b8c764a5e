import WeensyOS.SoftReboot
import WeensyOS.ReferenceCounts

/-!
# What the memory viewer shows

With the viewer on, every trap from user code draws the map of physical memory and the map of one
process. Texts stay in the columns left of the maps and in the rows above them, so each cell of a
map is what was last drawn for its page.
-/

namespace WeensyOS
open ByteMemory World
open Keyboard (char)

/-- Cell `i` of the screen. -/
def screen (m : Memory) (i : ℕ) : ℕ := loadLE m (consoleAddr + 2 * i) 2

/-- The cells of page `pn` in the two maps. -/
def physicalCell (pn : ℕ) : ℕ := cpos (1 + pn / 64) (12 + pn % 64)

def virtualCell (pn : ℕ) : ℕ := cpos (11 + pn / 64) (12 + pn % 64)

def physicalColor (info : PageInfos) (pn : ℕ) : ℕ :=
  if (info pn).refcount > 1 ∧ (pn : ℤ) ≠ pageNumber consoleAddr then sharedColor ||| 0x0F00
  else ownerColor (info pn)

section cells
variable {m : Memory} {i j : ℕ}

theorem screen_setCell (v : ℕ) : screen (setCell m i v) i = v % 65536 :=
  loadLE_storeLE_same m _ v 2

theorem screen_setCell_of_ne (v : ℕ) (h : j ≠ i) : screen (setCell m i v) j = screen m j :=
  loadLE_storeLE_disjoint m _ _ v 2 2 (by omega)

/-- A text without newlines fills as many cells as it has characters. -/
theorem screen_foldl_consolePutc {color cursor : ℕ} {out : List ℕ}
    (hend : cursor + out.length ≤ 2000) (hout : 0x0A ∉ out)
    (hj : j < cursor ∨ cursor + out.length ≤ j) :
    screen (out.foldl (consolePutc color) (m, cursor)).1 j = screen m j := by
  induction out generalizing m cursor with
  | nil => rfl
  | cons c out ih =>
      rw [List.length_cons] at hend hj
      have hput : consolePutc color (m, cursor) c =
          (setCell m cursor (c ||| color), cursor + 1) := by
        have hc : c ≠ 0x0A := fun hc => hout (hc ▸ List.mem_cons_self)
        have hcursor : ¬ cursor ≥ consoleCells := by
          simp only [consoleCells]
          omega
        unfold consolePutc
        dsimp only
        rw [if_neg hcursor, if_neg hc]
      rw [List.foldl_cons, hput,
        ih (by omega) (fun hc => hout (List.mem_cons_of_mem _ hc)) (by omega)]
      exact screen_setCell_of_ne _ (by omega)

theorem screen_consolePrintf {pos color : ℕ} {out : List ℕ} (hpos : pos < 2000)
    (hend : pos + out.length ≤ 2000) (hout : 0x0A ∉ out) (hj : j < pos ∨ pos + out.length ≤ j) :
    screen (consolePrintf m pos color out).1 j = screen m j := by
  have hstart : ¬ ((pos : ℤ) < 0 ∨ (pos : ℤ) ≥ consoleCells) := by
    simp only [consoleCells]
    omega
  unfold consolePrintf
  rw [if_neg hstart, Int.toNat_natCast]
  exact screen_foldl_consolePutc hend hout hj

/-- The address of a row takes nine columns. -/
theorem rowAddress_text : ∀ r < 12,
    (text "0x" ++ format06X (r * 64 * 4096) ++ text " ").length = 9 ∧
      0x0A ∉ text "0x" ++ format06X (r * 64 * 4096) ++ text " " := by
  decide +kernel

/-- The address stays left of the maps. -/
theorem screen_rowLabel {pn row col : ℕ} (hpn : pn < 768) (hrow : row < 25) (hcol : 12 ≤ col)
    (hcol' : col < 80) (row' : ℕ) :
    screen (rowLabel m pn row (pn * 4096)) (cpos row' col) = screen m (cpos row' col) := by
  unfold rowLabel
  split_ifs with hstart
  · have hpn' : pn = pn / 64 * 64 := by omega
    obtain ⟨hlength, hnewline⟩ := rowAddress_text (pn / 64) (by omega)
    rw [← hpn'] at hlength hnewline
    refine screen_consolePrintf ?_ ?_ hnewline ?_
    · unfold cpos
      omega
    · rw [hlength]
      unfold cpos
      omega
    · rw [hlength]
      unfold cpos
      rcases Nat.lt_or_ge row' row with h | h <;> omega
  · rfl

end cells

/-! Drawing a map. -/

/-- A loop that fills places one after the other, each round another one. -/
theorem foldl_range_places {σ : Type} {f : σ → ℕ → σ} {r : σ → ℕ → ℕ} {v : ℕ → ℕ} {n : ℕ}
    (hset : ∀ s, ∀ x < n, r (f s x) x = v x)
    (hkeep : ∀ s, ∀ x < n, ∀ y < x, r (f s x) y = r s y) (s : σ) :
    ∀ x < n, r ((List.range n).foldl f s) x = v x := by
  induction n with
  | zero => exact fun x hx => absurd hx x.not_lt_zero
  | succ n ih =>
      intro x hx
      rw [List.range_succ, List.foldl_append, List.foldl_cons, List.foldl_nil]
      rcases Nat.lt_succ_iff_lt_or_eq.mp hx with hlt | rfl
      · rw [hkeep _ n (by omega) x hlt]
        exact ih (fun s y hy => hset s y (by omega)) (fun s y hy => hkeep s y (by omega)) x hlt
      · exact hset _ x hx

theorem foldlM_eq_foldl {α σ : Type} {f : σ → α → Except Panic σ} {g : σ → α → σ} {P : σ → Prop}
    {l : List α} (h : ∀ x ∈ l, ∀ s, P s → f s x = .ok (g s x) ∧ P (g s x)) {s : σ} (hs : P s) :
    l.foldlM f s = .ok (l.foldl g s) := by
  induction l generalizing s with
  | nil => rfl
  | cons x l ih =>
      obtain ⟨hx, hP⟩ := h x List.mem_cons_self s hs
      rw [List.foldlM_cons, hx, ok_bind, List.foldl_cons]
      exact ih (fun y hy => h y (List.mem_cons_of_mem _ hy)) hP

theorem memshowPhysicalPage_eq (info : PageInfos) (m : Memory) (pn : ℕ) :
    memshowPhysicalPage info m pn = setCell (rowLabel m pn (1 + pn / 64) (pn * 4096))
      (physicalCell pn) (physicalColor info pn) := by
  rw [← Nat.shiftLeft_eq pn 12]
  rfl

theorem screen_memshowPhysical (m : Memory) (info : PageInfos) {pn : ℕ} (hpn : pn < 512) :
    screen (memshowPhysical m info) (physicalCell pn) = physicalColor info pn % 65536 := by
  have hset : ∀ s : Memory, ∀ x < 512, screen (memshowPhysicalPage info s x) (physicalCell x) =
      physicalColor info x % 65536 := by
    intro s x _
    rw [memshowPhysicalPage_eq]
    exact screen_setCell _
  have hkeep : ∀ s : Memory, ∀ x < 512, ∀ y < x,
      screen (memshowPhysicalPage info s x) (physicalCell y) = screen s (physicalCell y) := by
    intro s x hx y hy
    have hne : physicalCell y ≠ physicalCell x := by
      unfold physicalCell cpos
      omega
    rw [memshowPhysicalPage_eq, screen_setCell_of_ne _ hne]
    exact screen_rowLabel (by omega) (by omega) (by omega) (by omega) _
  exact foldl_range_places (f := memshowPhysicalPage info)
    (r := fun m pn => screen m (physicalCell pn)) hset hkeep _ pn hpn

/-- The color of page `pn` in the map of a process, mapped as `vam`. -/
def virtualColor (info : PageInfos) (vam : VaMapping) (pn : ℕ) : ℕ :=
  if vam.pn < 0 then 0x20 else mappedColor (info vam.pn.toNat) (pn * pageSize) vam.perm

theorem screen_drawVirtualPage_of_ne (info : PageInfos) (m : Memory) {pn row col : ℕ}
    (hpn : pn < 768) (vam : VaMapping) (hcol : 12 ≤ col) (hcol' : col < 80)
    (hne : row ≠ 11 + pn / 64 ∨ col ≠ 12 + pn % 64) :
    screen (drawVirtualPage info m pn vam) (cpos row col) = screen m (cpos row col) := by
  have hcell : cpos row col ≠ cpos (11 + pn / 64) (12 + pn % 64) := by
    unfold cpos
    omega
  unfold drawVirtualPage
  dsimp only
  rw [screen_setCell_of_ne _ hcell]
  exact screen_rowLabel hpn (by omega) hcol hcol' row

section drawing
variable (info : PageInfos) (vam : ℕ → VaMapping) (m : Memory)

/-- The loop of `memshow_virtual`, with the mappings that it finds. -/
def drawVirtualPages : Memory :=
  (List.range 768).foldl (fun m pn => drawVirtualPage info m pn (vam pn)) m

theorem screen_drawVirtualPages {pn : ℕ} (hpn : pn < 768) :
    screen (drawVirtualPages info vam m) (virtualCell pn) =
      virtualColor info (vam pn) pn % 65536 := by
  have hset : ∀ s : Memory, ∀ x < 768,
      screen (drawVirtualPage info s x (vam x)) (virtualCell x) =
        virtualColor info (vam x) x % 65536 := fun s x _ => screen_setCell _
  have hkeep : ∀ s : Memory, ∀ x < 768, ∀ y < x,
      screen (drawVirtualPage info s x (vam x)) (virtualCell y) = screen s (virtualCell y) :=
    fun s x hx y hy =>
      screen_drawVirtualPage_of_ne info s hx _ (by omega) (by omega) (by omega)
  exact foldl_range_places (r := fun m pn => screen m (virtualCell pn)) hset hkeep m pn hpn

theorem screen_drawVirtualPages_physical {pn : ℕ} (hpn : pn < 512) :
    screen (drawVirtualPages info vam m) (physicalCell pn) = screen m (physicalCell pn) := by
  unfold drawVirtualPages
  refine List.foldlRecOn
    (motive := fun s => screen s (physicalCell pn) = screen m (physicalCell pn)) _ _ rfl ?_
  intro s hs x hx
  have hx : x < 768 := List.mem_range.mp hx
  rw [← hs]
  exact screen_drawVirtualPage_of_ne info s hx _ (by omega) (by omega) (by omega)

end drawing

theorem screen_heading (m : Memory) {name : List ℕ} (hlength : name.length ≤ 3)
    (hname : 0x0A ∉ name) {pn : ℕ} (hpn : pn < 512) :
    screen (consolePrintf m (cpos 10 26) 0x0F00 (text "VIRTUAL ADDRESS SPACE FOR " ++ name)).1
      (physicalCell pn) = screen m (physicalCell pn) := by
  have htext : (text "VIRTUAL ADDRESS SPACE FOR ").length = 26 ∧
      0x0A ∉ text "VIRTUAL ADDRESS SPACE FOR " := by
    decide +kernel
  have hcell : physicalCell pn < cpos 10 26 := by
    unfold physicalCell cpos
    omega
  have hend : cpos 10 26 + (text "VIRTUAL ADDRESS SPACE FOR " ++ name).length ≤ 2000 := by
    rw [List.length_append, htext.1]
    unfold cpos
    omega
  refine screen_consolePrintf (by norm_num [cpos]) hend ?_ (Or.inl hcell)
  rw [List.mem_append]
  exact not_or.mpr ⟨htext.2, hname⟩

/-- The map of a page-table tree. The heading fits above it. -/
theorem memshowVirtual_eq {m : Memory} {T : Fin 5 → ℕ} {leaf : ℕ → ℕ} (h : Tree m T leaf)
    (hne : ∀ j, T j ≠ consolePage) (hleaf : ∀ i < 768, leaf i &&& pteP ≠ 0 → leaf i < 0x200000)
    (info : PageInfos) (name : List ℕ) :
    memshowVirtual m info (T 0 * 4096) name = .ok (drawVirtualPages info
      (fun pn => VaMapping.ofEntry (leaf pn) (pn * 4096))
      (consolePrintf m (cpos 10 26) 0x0F00 (text "VIRTUAL ADDRESS SPACE FOR " ++ name)).1) := by
  have halign : T 0 * 4096 = pteAddr (T 0 * 4096) := by
    have := h.lt 0
    rw [pteAddr_eq (by omega)]
    omega
  rw [memshowVirtual, assert_true halign, ok_bind]
  refine foldlM_eq_foldl (P := fun s => Tree s T leaf) (fun pn hpn s hs => ?_)
    (h.frame (agreeOff_consolePrintf m _ _ _) hne)
  have hlt : pn < 768 := by simpa using List.mem_range.mp hpn
  have hlook := hs.lookup_page (show pn < 1024 by omega)
  refine ⟨?_, hs.frame (agreeOff_drawVirtualPage info s _ hlt) hne⟩
  unfold memshowVirtualPage
  simp only [pageSize]
  rw [hlook]
  exact if_pos (VaMapping.ofEntry_ok (hleaf pn hlt))

/-! Letters and colors. -/

def processLetter (p : ℕ) : ℕ := (if p < 10 then 0x30 else 0x37) + p

/-- Process `p` uses page `pn`, for a table or for data. -/
def Kernel.uses (k : Kernel) (p pn : ℕ) : Prop :=
  k.usesTable p pn ∨ ∃ i, 256 ≤ i ∧ i < 768 ∧ k.maps p i pn

/-- The letter of a page, by what the page tables make of it. -/
inductive Kernel.Letter (L : KernelLayout) (k : Kernel) (pn : ℕ) : ℕ → Prop
  | reserved (h : initialOwner L (pageAddress pn) = poReserved) : Letter L k pn (char 'R')
  | kernel (h : initialOwner L (pageAddress pn) = poKernel) : Letter L k pn (char 'K')
  | free (h : usable L pn) (hr : k.references pn = 0) : Letter L k pn (char '.')
  | process {p : ℕ} (h : usable L pn) (hr : k.references pn = 1) (hp : k.uses p pn) :
      Letter L k pn (processLetter p)
  | shared (h : usable L pn) (hr : 1 < k.references pn) : Letter L k pn (char 'S')

/-- The colors of owners. -/
def ownerColors : List ℕ := memstateColors.take 18

def reverseVideo (color : ℕ) : ℕ :=
  ((color &&& 0x0F00) <<< 4) ||| ((color &&& 0xF000) >>> 4) ||| (color &&& 0x00FF)

theorem ownerColors_letter : ∀ c ∈ ownerColors, c % 65536 % 256 = c % 256 ∧ c % 65536 < 0x1000 ∧
    reverseVideo c % 65536 % 256 = c % 256 ∧ 0x1000 ≤ reverseVideo c % 65536 := by
  decide +kernel

theorem ownerColors_shared : ∀ c ∈ ownerColors,
    (sharedColor ||| (c &&& 0xF000) ||| 0x0F00) % 65536 % 256 = char 'S' ∧
      (sharedColor ||| (c &&& 0xF000) ||| 0x0F00) % 65536 < 0x1000 ∧
      (sharedColor ||| (reverseVideo c &&& 0xF000)) % 65536 % 256 = char 'S' ∧
      0x1000 ≤ (sharedColor ||| (reverseVideo c &&& 0xF000)) % 65536 := by
  decide +kernel

theorem physicalColor_letter {info : PageInfos} {pn : ℕ} (hc : ownerColor (info pn) ∈ ownerColors) :
    physicalColor info pn % 65536 % 256 =
      if (info pn).refcount > 1 ∧ (pn : ℤ) ≠ pageNumber consoleAddr then char 'S'
      else ownerColor (info pn) % 256 := by
  unfold physicalColor
  split_ifs
  · rfl
  · exact (ownerColors_letter _ hc).1

theorem mappedColor_eq (p : PageInfo) (va perm : ℕ) : mappedColor p va perm =
    if p.refcount > 1 ∧ va ≠ consoleAddr then
      if perm &&& pteU = 0 then sharedColor ||| (ownerColor p &&& 0xF000) ||| 0x0F00
      else sharedColor ||| (reverseVideo (ownerColor p) &&& 0xF000)
    else if perm &&& pteU = 0 then ownerColor p else reverseVideo (ownerColor p) := by
  unfold mappedColor
  by_cases hperm : perm &&& pteU = 0
  · simp only [hperm, ne_eq, not_true_eq_false, if_false, if_true]
  · simp only [hperm, ne_eq, not_false_eq_true, if_false, if_true]
    rfl

/-- The same letter for a mapping, in reverse video just where the process has access. -/
theorem mappedColor_letter {p : PageInfo} {va perm : ℕ} (hc : ownerColor p ∈ ownerColors) :
    mappedColor p va perm % 65536 % 256 =
        (if p.refcount > 1 ∧ va ≠ consoleAddr then char 'S' else ownerColor p % 256) ∧
      (0x1000 ≤ mappedColor p va perm % 65536 ↔ perm &&& pteU ≠ 0) := by
  obtain ⟨h1, h2, h3, h4⟩ := ownerColors_letter _ hc
  obtain ⟨h5, h6, h7, h8⟩ := ownerColors_shared _ hc
  rw [mappedColor_eq]
  by_cases hshared : p.refcount > 1 ∧ va ≠ consoleAddr
  · rw [if_pos hshared, if_pos hshared]
    by_cases hperm : perm &&& pteU = 0
    · rw [if_pos hperm]
      exact ⟨h5, iff_of_false (by omega) (not_not.mpr hperm)⟩
    · rw [if_neg hperm]
      exact ⟨h7, iff_of_true h8 hperm⟩
  · rw [if_neg hshared, if_neg hshared]
    by_cases hperm : perm &&& pteU = 0
    · rw [if_pos hperm]
      exact ⟨h1, iff_of_false (by omega) (not_not.mpr hperm)⟩
    · rw [if_neg hperm]
      exact ⟨h3, iff_of_true h4 hperm⟩

theorem ownerColor_process {p : PageInfo} {q : ℕ} (ho : p.owner = q) (hr : p.refcount ≠ 0)
    (hq : 0 < q) (hq' : q < 16) :
    ownerColor p ∈ ownerColors ∧ ownerColor p % 256 = processLetter q := by
  have hall : ∀ q : Fin 16, 0 < q.val →
      memstateColors.getD ((q.val : ℤ) - poKernel).toNat 0 ∈ ownerColors ∧
        memstateColors.getD ((q.val : ℤ) - poKernel).toNat 0 % 256 = processLetter q := by
    decide +kernel
  unfold ownerColor
  rw [if_neg hr, ho]
  exact hall ⟨q, hq'⟩ hq

section viewing
variable {L : KernelLayout} {M : Machine} {w : World}

/-- The owner of a page in use is one of its users. -/
theorem Represents.owner_uses (h : Represents L M w) (hex : w.Exact L) (hown : w.Owned) {pn : ℕ}
    (hused : 0 < w.refs pn) :
    ∃ p : ℕ, (w.info pn).owner = p ∧ 0 < p ∧ p < 16 ∧ M.kernel.uses p pn := by
  obtain ⟨x, -, hx⟩ := RefLedger.exists_of_count_pos hused
  obtain ⟨r, hr, rfl⟩ := frameAt_eq_some.mp hx
  obtain ⟨p, s, r', ho, hr', hf⟩ := hown x r hr
  have hlive : w.Live p := by
    intro hdead
    rw [h.wf.dead p s hdead] at hr'
    cases hr'
  have hpos : 0 < p := Nat.pos_of_ne_zero fun h0 => hlive (h0 ▸ h.wf.zero)
  refine ⟨p, ho, hpos, h.wf.live_lt hlive, ?_⟩
  have hframe := frameAt_eq_some.mpr ⟨r', hr', hf⟩
  cases s with
  | table j => exact .inl ((h.usesTable_iff p _).mpr ⟨j, hframe⟩)
  | page i =>
      obtain ⟨-, hi, hi'⟩ := mem_places_page.mp (hex.place _ _ hr').1
      exact .inr ⟨i, hi, hi', (h.maps_iff p _ hi hi').mpr hframe⟩

theorem Represents.letter_usable (h : Represents L M w) (hex : w.Exact L) (hown : w.Owned)
    {pn : ℕ} (hu : usable L pn) : ownerColor (w.info pn) ∈ ownerColors ∧ M.kernel.Letter L pn
      (if (w.info pn).refcount > 1 ∧ pn ≠ consolePage then char 'S'
        else ownerColor (w.info pn) % 256) := by
  have hcount := hex.refcount hu
  have hrefs := h.references_eq hex pn
  have hconsole : pn ≠ consolePage := fun heq => not_usable_console (heq ▸ hu)
  by_cases hzero : w.refs pn = 0
  · have hcolor : ownerColor (w.info pn) = 0x072E := by
      unfold ownerColor
      rw [if_pos (by omega)]
      rfl
    rw [if_neg (by omega), hcolor]
    exact ⟨by decide, .free hu (by omega)⟩
  · obtain ⟨p, ho, hpos, hlt, huses⟩ := h.owner_uses hex hown (Nat.pos_of_ne_zero hzero)
    obtain ⟨hmem, hletter⟩ := ownerColor_process ho (by omega) hpos hlt
    refine ⟨hmem, ?_⟩
    by_cases hone : w.refs pn = 1
    · rw [if_neg (by omega), hletter]
      exact .process hu (by omega) huses
    · rw [if_pos ⟨by omega, hconsole⟩]
      exact .shared hu (by omega)

/-- Pages that no process may get keep their entry in `pageinfo`. -/
theorem letter_kernel {k : Kernel} {pn : ℕ} (hpn : pn < 512) (hu : ¬ usable L pn) :
    ownerColor (pageinfoInit L pn) ∈ ownerColors ∧
      k.Letter L pn (ownerColor (pageinfoInit L pn) % 256) := by
  have howner : initialOwner L (pageAddress pn) = poReserved ∨
      initialOwner L (pageAddress pn) = poKernel := by
    have hfree : initialOwner L (pageAddress pn) ≠ poFree := fun heq => hu ⟨hpn, heq⟩
    rw [initialOwner_eq] at hfree ⊢
    split_ifs at hfree ⊢ <;> simp at hfree ⊢
  rcases howner with ho | ho
  · have hinfo : pageinfoInit L pn = ⟨poReserved, 1⟩ := by simp [pageinfoInit, ho]
    rw [hinfo]
    exact ⟨by decide, .reserved ho⟩
  · have hinfo : pageinfoInit L pn = ⟨poKernel, 1⟩ := by simp [pageinfoInit, ho]
    rw [hinfo]
    exact ⟨by decide, .kernel ho⟩

theorem Represents.letter (h : Represents L M w) (hex : w.Exact L) (hown : w.Owned) {pn : ℕ}
    (hpn : pn < 512) : ownerColor (w.info pn) ∈ ownerColors ∧ M.kernel.Letter L pn
      (if (w.info pn).refcount > 1 ∧ pn ≠ consolePage then char 'S'
        else ownerColor (w.info pn) % 256) := by
  by_cases hu : usable L pn
  · exact h.letter_usable hex hown hu
  · have hr : ¬ ((pageinfoInit L pn).refcount > 1 ∧ pn ≠ consolePage) := by
      rw [pageinfoInit_refcount hpn hu]
      omega
    rw [hex.kernel pn hu, if_neg hr]
    exact letter_kernel hpn hu

theorem processName : ∀ p < nProc, ((formatD p ++ text " ").take 3).length ≤ 3 ∧
    0x0A ∉ (formatD p ++ text " ").take 3 := by
  decide +kernel

/-- The loop that skips free slots stops at a process before it has gone around. -/
theorem skipFree_live {state : ℕ → ProcState} {n showing q : ℕ} (hq : showing ≤ q)
    (hq' : q ≤ 2 * nProc) (hn : q ≤ showing + n) (hlive : state (q % nProc) ≠ .free) :
    state (skipFree state n showing % nProc) ≠ .free := by
  induction n generalizing showing with
  | zero =>
      obtain rfl : q = showing := by omega
      exact hlive
  | succ n ih =>
      unfold skipFree
      split_ifs with hskip
      · have hne : showing ≠ q := fun heq => hlive (heq ▸ hskip.2)
        exact ih (by omega) (by omega)
      · exact fun hfree => hskip ⟨by omega, hfree⟩

/-- The process that `memshow_virtual_animate` shows. -/
def Kernel.nextShown (k : Kernel) : ℕ :=
  let advance := k.lastTicks = 0 ∨ (k.ticks + 2 ^ 32 - k.lastTicks) % 2 ^ 32 ≥ 50
  skipFree k.states (2 * nProc + 1) (if advance then k.showing + 1 else k.showing) % nProc

theorem Kernel.nextShown_live {k : Kernel} (hshow : k.showing < nProc) {p : ℕ} (hp : k.Live p)
    (hp' : p < nProc) : k.Live k.nextShown := by
  have hlap : k.states ((nProc + p) % nProc) ≠ .free := by
    rw [Nat.add_mod_left, Nat.mod_eq_of_lt hp']
    exact hp
  simp only [nProc] at hshow hp'
  unfold nextShown
  dsimp only
  split_ifs <;>
    exact skipFree_live (by simp only [nProc]; omega) (by simp only [nProc]; omega)
      (by simp only [nProc]; omega) hlap

theorem memshowVirtualAnimate_eq (k : Kernel) :
    ∃ k₁ : Kernel, k₁.showing = k.nextShown ∧ k₁.dispGlobal = k.dispGlobal ∧
      memshowVirtualAnimate k = if k.Live k.nextShown then
        (memshowVirtual k.mem k.pageinfo (k.processes k.nextShown).pagetable
          ((formatD k.nextShown ++ text " ").take 3)).map k₁.withMem
        else .ok (k₁.withMem k.mem) := by
  let advance := k.lastTicks = 0 ∨ (k.ticks + 2 ^ 32 - k.lastTicks) % 2 ^ 32 ≥ 50
  let k₁ : Kernel :=
    { k with lastTicks := if advance then k.ticks else k.lastTicks, showing := k.nextShown }
  have hmap (r : Except Panic Memory) :
      (r >>= fun m => pure (k₁.withMem m)) = r.map k₁.withMem := by
    cases r <;> rfl
  refine ⟨k₁, rfl, rfl, ?_⟩
  rw [← hmap]
  rfl

/-- The map of a live process. -/
theorem MemSim.memshowVirtual_screen {m : Memory} {pt : ℕ → ℕ} (h : MemSim L m w pt) (hw : w.Wf L)
    {p : ℕ} (hp : w.Live p) (info : PageInfos) {name : List ℕ} (hlength : name.length ≤ 3)
    (hname : 0x0A ∉ name) : ∃ m', memshowVirtual m info (pt p) name = .ok m' ∧
      (∀ pn < 512, screen m' (physicalCell pn) = screen m (physicalCell pn)) ∧
      ∀ i < 768, screen m' (virtualCell i) =
        virtualColor info (VaMapping.ofEntry (w.leaf p i) (i * 4096)) i % 65536 := by
  have hdraw := memshowVirtual_eq (h.tree p hp)
    (fun j hj => not_usable_console (hj ▸ hw.frames_usable hp j)) (World.leaf_present_lt hw p)
    info name
  rw [← h.root p hp] at hdraw
  refine ⟨_, hdraw, fun pn hpn => ?_, fun i hi => screen_drawVirtualPages _ _ _ hi⟩
  rw [← screen_heading m hlength hname hpn]
  exact screen_drawVirtualPages_physical _ _ _ hpn

theorem memshowVirtualAnimate_screen {k : Kernel}
    (hm : MemSim L k.mem w (fun p => (k.processes p).pagetable)) (hs : k.states = w.state)
    (hw : w.Wf L) (hshow : k.showing < nProc) {p : ℕ} (hp : w.Live p) :
    ∃ k', memshowVirtualAnimate k = .ok k' ∧ k'.dispGlobal = k.dispGlobal ∧
      k'.showing < nProc ∧ w.Live k'.showing ∧
      (∀ pn < 512, screen k'.mem (physicalCell pn) = screen k.mem (physicalCell pn)) ∧
      ∀ i < 768, screen k'.mem (virtualCell i) =
        virtualColor k.pageinfo (VaMapping.ofEntry (w.leaf k'.showing i) (i * 4096)) i % 65536 := by
  have hlive (q : ℕ) : k.Live q ↔ w.Live q := by
    unfold World.Live
    rw [← hs]
    exact Iff.rfl
  have hp' : p < nProc := hw.live_lt hp
  have hlive₁ := Kernel.nextShown_live hshow ((hlive p).mpr hp) hp'
  have hlive₂ := (hlive _).mp hlive₁
  have hlt : k.nextShown < nProc := Nat.mod_lt _ (by norm_num)
  obtain ⟨hlength, hname⟩ := processName _ hlt
  obtain ⟨m, hdraw, hphysical, hvirtual⟩ :=
    hm.memshowVirtual_screen hw hlive₂ k.pageinfo hlength hname
  obtain ⟨k₁, hshown, hdisp, hanimate⟩ := memshowVirtualAnimate_eq k
  rw [if_pos hlive₁, hdraw] at hanimate
  rw [← hshown] at hlt hlive₂ hvirtual
  exact ⟨_, hanimate, hdisp, hlt, hlive₂, hphysical, hvirtual⟩

/-- The cells of both maps, by `pageinfo` and the page table of the process that is shown. -/
theorem Sim.showMemory_screen {k : Kernel} (h : Sim L k w) (hw : w.Wf L) (hchk : w.Checked L)
    (hdisp : k.dispGlobal = true) (hshow : k.showing < nProc) {p : ℕ} (hp : w.Live p)
    {reg : Registers} (hreg : showsMemory reg) :
    ∃ k', showMemory L k reg = .ok k' ∧ k'.dispGlobal = true ∧ k'.showing < nProc ∧
      w.Live k'.showing ∧
      (∀ pn < 512, screen k'.mem (physicalCell pn) = physicalColor w.info pn % 65536) ∧
      ∀ i < 768, screen k'.mem (virtualCell i) =
        virtualColor w.info (VaMapping.ofEntry (w.leaf k'.showing i) (i * 4096)) i % 65536 := by
  have hmem := h.mem.console_frame hw (agreeOff_memshowPhysical k.mem k.pageinfo)
  have hphysical (pn : ℕ) (hpn : pn < 512) := screen_memshowPhysical k.mem k.pageinfo hpn
  unfold showMemory
  rw [if_pos hreg, assert_true ((h.check_iff hw).mpr hchk), ok_bind, if_pos hdisp, ← h.info]
  generalize memshowPhysical k.mem k.pageinfo = m at hmem hphysical
  obtain ⟨k', hanimate, hdisp', hlt, hlive, hcells, hvirtual⟩ :=
    memshowVirtualAnimate_screen (k := k.withMem m) hmem h.state hw hshow hp
  exact ⟨k', hanimate, hdisp'.trans hdisp, hlt, hlive,
    fun pn hpn => (hcells pn hpn).trans (hphysical pn hpn), hvirtual⟩

/-- What the map of a process says of a mapping: blank if there is none, else the letter of its
page, in reverse video if the process has access. -/
def Kernel.MapCell (L : KernelLayout) (k : Kernel) (vam : VaMapping) (cell : ℕ) : Prop :=
  (vam.pn < 0 ∧ cell = 0x20) ∨ ∃ pn : ℕ, vam.pn = pn ∧ k.Letter L pn (cell % 256) ∧
    (0x1000 ≤ cell ↔ vam.perm &&& pteU ≠ 0)

theorem Represents.physical_letter (h : Represents L M w) (hex : w.Exact L) (hown : w.Owned)
    {pn : ℕ} (hpn : pn < 512) :
    M.kernel.Letter L pn (physicalColor w.info pn % 65536 % 256) := by
  obtain ⟨hc, hletter⟩ := h.letter hex hown hpn
  have hconsole : (pn : ℤ) ≠ pageNumber consoleAddr ↔ pn ≠ consolePage := by
    have hpage : pageNumber consoleAddr = (consolePage : ℕ) := by decide
    rw [hpage]
    exact Int.ofNat_inj.not
  rw [physicalColor_letter hc]
  simpa only [hconsole] using hletter

/-- A mapping of page `pn`, at the address of the console just for the console page. -/
theorem Represents.virtual_cell (h : Represents L M w) (hex : w.Exact L) (hown : w.Owned)
    {vam : VaMapping} {i pn : ℕ} (hvam : vam.pn = pn) (hpn : pn < 512)
    (hconsole : i * 4096 = consoleAddr ↔ pn = consolePage) :
    M.kernel.MapCell L vam (virtualColor w.info vam i % 65536) := by
  obtain ⟨hc, hletter⟩ := h.letter hex hown hpn
  have hmapped : ¬ vam.pn < 0 := by omega
  have hinfo : vam.pn.toNat = pn := by omega
  obtain ⟨hcolor, hvideo⟩ := @mappedColor_letter _ (i * pageSize) vam.perm hc
  refine .inr ⟨pn, hvam, ?_, ?_⟩
  · rw [virtualColor, if_neg hmapped, hinfo, hcolor]
    simpa only [pageSize, ne_eq, hconsole] using hletter
  · rw [virtualColor, if_neg hmapped, hinfo, hvideo]

theorem Represents.virtual_letter (h : Represents L M w) (hex : w.Exact L) (hown : w.Owned)
    (p : ℕ) {i : ℕ} (hi : i < 768) : M.kernel.MapCell L (VaMapping.ofEntry (w.leaf p i) (i * 4096))
      (virtualColor w.info (VaMapping.ofEntry (w.leaf p i) (i * 4096)) i % 65536) := by
  by_cases hlow : i < 256
  · have hleaf : VaMapping.ofEntry (w.leaf p i) (i * 4096) = ⟨i, i * 4096, kernelPerm i⟩ := by
      have hid := @VaMapping.ofEntry_identity (i * 4096) (kernelPerm i) (by omega)
        (by have := kernelPerm_lt i; omega) (kernelPerm_present i)
      rw [Nat.mul_div_cancel _ (by norm_num)] at hid
      rw [w.leaf_kernel p i hlow, kernelLeaf, hid]
    rw [hleaf]
    refine h.virtual_cell hex hown rfl (by omega) ?_
    simp only [consoleAddr, consolePage]
    omega
  · rw [World.leaf, if_neg hlow, VaMapping.ofEntry_ref fun r hr => h.wf.frame_lt hr]
    cases hr : w.held (p, .page i) with
    | none => exact .inl ⟨by decide, rfl⟩
    | some r =>
        obtain ⟨-, hu⟩ := hex.place _ _ hr
        refine h.virtual_cell hex hown rfl hu.lt ?_
        have hne : r.frame ≠ consolePage := fun heq => not_usable_console (heq ▸ hu)
        refine iff_of_false ?_ hne
        simp only [consoleAddr]
        omega

end viewing

/-! The viewer stays on. -/

def Kernel.Viewing (k : Kernel) : Prop := k.dispGlobal = true ∧ k.showing < nProc

theorem Kernel.Viewing.withMem {k : Kernel} (h : k.Viewing) (m : Memory) : (k.withMem m).Viewing :=
  h

section reach
variable {L : KernelLayout} {images : ℕ → ElfImage} {command : Option String} {M : Machine}

theorem memshowVirtualAnimate_viewing {k k' : Kernel} (hk : k.Viewing)
    (h : memshowVirtualAnimate k = .ok k') : k'.Viewing := by
  obtain ⟨k₁, hshown, hdisp, heq⟩ := memshowVirtualAnimate_eq k
  have hlt : k₁.showing < nProc := hshown ▸ Nat.mod_lt _ (by norm_num)
  have hk₁ (m : Memory) : (k₁.withMem m).Viewing := ⟨hdisp.trans hk.1, hlt⟩
  rw [heq] at h
  split_ifs at h
  · cases hr : memshowVirtual k.mem k.pageinfo (k.processes k.nextShown).pagetable
        ((formatD k.nextShown ++ text " ").take 3) with
    | error e =>
        rw [hr] at h
        cases h
    | ok m =>
        rw [hr] at h
        exact Except.ok.inj h ▸ hk₁ m
  · exact Except.ok.inj h ▸ hk₁ k.mem

theorem showMemory_viewing {k k' : Kernel} {reg : Registers} (hk : k.Viewing)
    (h : showMemory L k reg = .ok k') : k'.Viewing := by
  unfold showMemory at h
  split_ifs at h with hc hd
  · rw [bind_eq_ok] at h
    obtain ⟨_, -, h⟩ := h
    exact memshowVirtualAnimate_viewing (k := k.withMem _) (hk.withMem _) h
  · exact absurd hk.1 hd
  · exact Except.ok.inj h ▸ hk

theorem sysFork_viewing {k k' : Kernel} {next : Next} (hk : k.Viewing)
    (h : sysFork k = .ok (k', next)) : k'.Viewing := by
  have hstatics := sysFork_withStatics k k
  change sysFork k = _ at hstatics
  rw [h] at hstatics
  obtain ⟨hk', -⟩ := Prod.mk.inj (Except.ok.inj hstatics)
  rw [hk']
  exact hk

/-- Only `sys_mem_tog` turns the viewer off. -/
theorem dispatch_viewing {k k' : Kernel} {reg : Registers} {cr2 : ℕ} {next : Next}
    (hk : k.Viewing) (hreg : reg.regIntno.toNat ≠ 56)
    (h : dispatch k reg cr2 = .ok (k', next)) : k'.Viewing := by
  unfold dispatch at h
  split at h
  · cases h
  · obtain ⟨rfl, -⟩ := Prod.mk.inj (Except.ok.inj h)
    exact hk
  · obtain ⟨rfl, -⟩ := Prod.mk.inj (Except.ok.inj h)
    exact hk
  · rw [bind_eq_ok] at h
    obtain ⟨_, -, h⟩ := h
    obtain ⟨rfl, -⟩ := Prod.mk.inj (Except.ok.inj h)
    exact hk
  · exact sysFork_viewing hk h
  · obtain ⟨rfl, -⟩ := Prod.mk.inj (Except.ok.inj h)
    unfold sysExit Kernel.updateProc Kernel.Viewing
    exact hk
  · rw [bind_eq_ok] at h
    obtain ⟨k₁, hmap, h⟩ := h
    obtain ⟨rfl, -⟩ := Prod.mk.inj (Except.ok.inj h)
    unfold syscallMapping at hmap
    dsimp only at hmap
    split_ifs at hmap <;> obtain rfl := Except.ok.inj hmap <;> exact hk
  · rename_i hn
    exact absurd hn hreg
  · obtain ⟨rfl, -⟩ := Prod.mk.inj (Except.ok.inj h)
    exact hk
  · split_ifs at h
    obtain ⟨rfl, -⟩ := Prod.mk.inj (Except.ok.inj h)
    exact hk
  · cases h

theorem exception_viewing {k k' : Kernel} {reg : Registers} {cr2 : ℕ} {o : Outcome}
    (hk : k.Viewing) (hreg : reg.regIntno.toNat ≠ 56)
    (h : exception L k reg cr2 = .ok (k', o)) : k'.Viewing := by
  unfold exception at h
  rw [bind_eq_ok] at h
  obtain ⟨_, -, h⟩ := h
  rw [bind_eq_ok] at h
  obtain ⟨k₁, hshow, h⟩ := h
  rw [bind_eq_ok] at h
  obtain ⟨⟨k₂, next⟩, hd, hl⟩ := h
  obtain ⟨⟨p, rfl⟩, -⟩ := leave_inv hl
  have hk₁ : k₁.Viewing := showMemory_viewing (k := k.updateProc _ _) hk hshow
  have hk₂ := dispatch_viewing hk₁ hreg hd
  exact hk₂

theorem processSetup_viewing {k k' : Kernel} {pid program : ℕ} (hk : k.Viewing)
    (h : processSetup L images k pid program = .ok k') : k'.Viewing := by
  unfold processSetup at h
  rw [bind_eq_ok] at h
  obtain ⟨_, -, h⟩ := h
  rw [bind_eq_ok] at h
  obtain ⟨_, -, h⟩ := h
  rw [bind_eq_ok] at h
  obtain ⟨_, -, h⟩ := h
  rw [bind_eq_ok] at h
  obtain ⟨_, -, h⟩ := h
  rw [bind_eq_ok] at h
  obtain ⟨_, -, h⟩ := h
  rw [bind_eq_ok] at h
  obtain ⟨_, -, h⟩ := h
  obtain rfl := Except.ok.inj h
  exact hk

theorem processSetups_viewing {l : List (ℕ × ℕ)} {k k' : Kernel} (hk : k.Viewing)
    (h : l.foldlM (fun k s => processSetup L images k s.1 s.2) k = .ok k') : k'.Viewing := by
  induction l generalizing k with
  | nil => exact Except.ok.inj h ▸ hk
  | cons s l ih =>
      rw [List.foldlM_cons, bind_eq_ok] at h
      obtain ⟨k₁, h₁, h⟩ := h
      exact ih (processSetup_viewing hk h₁) h

theorem kernelMain_viewing {m : Memory} {k : Kernel} (h : kernelMain L images m command = .ok k) :
    k.Viewing := by
  unfold kernelMain at h
  rw [bind_eq_ok] at h
  obtain ⟨m₁, -, h⟩ := h
  rw [bind_eq_ok] at h
  obtain ⟨m₂, -, h⟩ := h
  rw [bind_eq_ok] at h
  obtain ⟨m₃, -, h⟩ := h
  rw [bind_eq_ok] at h
  obtain ⟨k₁, hsetup, h⟩ := h
  obtain ⟨-, rfl⟩ := run_inv h
  have hk₁ : k₁.Viewing := by
    refine processSetups_viewing ?_ hsetup
    exact ⟨rfl, by norm_num⟩
  exact hk₁

theorem ordinary_ne_memTog (cpu : Cpu) {t : Trap} (ht : t.ordinary = true) :
    (Registers.ofWords (trapFrame cpu t)).regIntno.toNat ≠ 56 := by
  rw [intno_ofWords]
  cases t with
  | syscall n =>
      fin_cases n
      any_goals cases ht
      all_goals decide
  | timer => decide
  | pagefault err cr2 => simp [Trap.intno]
  | gpf err => cases ht

theorem reach_viewing (h : Machine.Reach L images command Orderly M) : M.kernel.Viewing := by
  induction h with
  | start hM =>
      obtain ⟨m, k, hk, rfl⟩ := hM
      exact kernelMain_viewing hk
  | @next M M' e _ he hs ih =>
      cases e with
      | store va b =>
          obtain ⟨t, -, -, -, -, rfl⟩ := Machine.step_store hs
          exact ih
      | trap cpu t =>
          obtain ⟨-, k, o, hexc, rfl⟩ := Machine.step_trap hs
          exact exception_viewing ih (ordinary_ne_memTog cpu he.1.1) hexc

end reach

end WeensyOS
