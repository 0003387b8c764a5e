import WeensyOS.Boot
import WeensyOS.WorldInvariants

/-!
# Loading programs into the ledger

`kernel()` as the abstract memory manager sees it. Until the first process runs nothing is shared:
every page in use has one holder, which owns it. That invariant also survives images whose segments
overlap; when they do not, no page is lost either.
-/

namespace WeensyOS

/-- The pages that the allocation loop of `program_load_segment` visits. -/
def ElfProgram.pages (ph : ElfProgram) : ℕ := (ph.pVa % pageSize + ph.pMemsz + 4095) / pageSize

def ElfProgram.covers (ph : ElfProgram) (i : ℕ) : Prop :=
  ph.pVa / pageSize ≤ i ∧ i < ph.pVa / pageSize + ph.pages

/-- The segment loads only inside `[PROC_START_ADDR, MEMSIZE_VIRTUAL - PAGESIZE)`. -/
structure ElfProgram.Inside (ph : ElfProgram) : Prop where
  start : procStartAddr ≤ ph.pVa
  mem : ph.pVa + ph.pMemsz ≤ memsizeVirtual - pageSize
  file : ph.pVa + ph.pFilesz ≤ memsizeVirtual - pageSize

theorem ElfProgram.Inside.pages_le {ph : ElfProgram} (h : ph.Inside) :
    256 ≤ ph.pVa / 4096 ∧ ph.pVa / 4096 + ph.pages ≤ 767 := by
  have h1 := h.start
  have h2 := h.mem
  simp only [procStartAddr, memsizeVirtual, pageSize] at h1 h2
  simp only [ElfProgram.pages, pageSize]
  omega

/-- The segments that `program_load` loads. -/
def loadable (l : List ElfProgram) : List ElfProgram :=
  l.filter (fun ph => ph.pType = elfPtypeLoad)

theorem loadable_cons (ph : ElfProgram) (l : List ElfProgram) :
    loadable (ph :: l) = if ph.pType = elfPtypeLoad then ph :: loadable l else loadable l := by
  simp [loadable, List.filter_cons]

namespace ElfImage

def segments (image : ElfImage) : List ElfProgram := loadable image.programs

/-- The physical pages that a process needs for its tables, its segments and its stack. -/
def demand (image : ElfImage) : ℕ := 6 + (image.segments.map ElfProgram.pages).sum

end ElfImage

/-- The images of the processes that `command` starts fit in memory and load where they may. -/
structure ImagesFit (L : KernelLayout) (images : ℕ → ElfImage) (command : Option String) :
    Prop where
  room : ((setups command).map (fun s => (images s.2).demand)).sum ≤
    (freePages (pageinfoInit L)).card
  inside : ∀ s ∈ setups command, ∀ ph ∈ (images s.2).segments, ph.Inside

/-- No two segments of one image touch a common page. -/
def ImagesDisjoint (images : ℕ → ElfImage) (command : Option String) : Prop :=
  ∀ s ∈ setups command, (images s.2).segments.Pairwise (fun a b => ∀ i, a.covers i → ¬ b.covers i)

namespace World

def loadPage (p i : ℕ) (w : World) : World :=
  match lowestFree w.info with
  | some pn => w.give p (.page i) pn
  | none => w

def loadPages (p : ℕ) : ℕ → ℕ → World → World
  | 0, _, w => w
  | n + 1, i, w => loadPages p n (i + 1) (loadPage p i w)

def protectPage (p i : ℕ) (w : World) : World :=
  w.hold p (.page i) ((w.held (p, .page i)).map (fun r => ⟨r.frame, false⟩))

def protectPages (p : ℕ) : ℕ → ℕ → World → World
  | 0, _, w => w
  | n + 1, i, w => protectPages p n (i + 1) (protectPage p i w)

def loadSegment (p : ℕ) (w : World) (ph : ElfProgram) : World :=
  let w := loadPages p ph.pages (ph.pVa / pageSize) w
  if ph.pFlags &&& elfPflagWrite = 0 then protectPages p ph.pages (ph.pVa / pageSize) w else w

def loadImage (p : ℕ) (image : ElfImage) (w : World) : World :=
  image.segments.foldl (loadSegment p) w

/-- `process_setup`. -/
def setup (p : ℕ) (image : ElfImage) (w : World) : Option World :=
  (duplicate p (w.setState p .runnable)).map
    (fun w => (loadImage p image w).pageAlloc p (memsizeVirtual - pageSize))

def initial (L : KernelLayout) : World :=
  { info := pageinfoInit L, state := fun _ => .free, held := fun _ => none, current := 0 }

/-- `kernel(command)`. -/
def boot (L : KernelLayout) (images : ℕ → ElfImage) (command : Option String) : Option World :=
  ((setups command).foldlM (fun w s => setup s.1 (images s.2) w) (initial L)).map
    (fun w => { w with current := 1 })

variable {L : KernelLayout} {w w' : World}

/-- Every page in use has one holder, its owner. -/
structure Booting (L : KernelLayout) (w : World) : Prop where
  wf : Wf L w
  counted : ∀ p s r, w.held (p, s) = some r → w.info r.frame = ⟨p, 1⟩
  distinct : ∀ x y r r', w.held x = some r → w.held y = some r' → r.frame = r'.frame → x = y
  low : ∀ p i r, w.held (p, .page i) = some r → i < 768

/-- No page in use has been lost. -/
def Complete (L : KernelLayout) (w : World) : Prop :=
  ∀ pn, usable L pn → (w.info pn).refcount ≠ 0 → ∃ x r, w.held x = some r ∧ r.frame = pn

theorem booting_initial (L : KernelLayout) : Booting L (initial L) := by
  have hempty (x : ℕ × Slot) (r : Ref) : (initial L).held x ≠ some r := by simp [initial]
  have hfree (p : ℕ) : (initial L).state p = .free := rfl
  refine ⟨⟨rfl, fun _ _ => rfl, by simp [initial], fun _ _ _ => rfl,
    fun p hp => absurd (hfree p) hp, fun p j r h => absurd h (hempty _ r),
    fun p j q j' r r' h => absurd h (hempty _ r), fun p i r h => absurd h (hempty _ r),
    fun p i r h => absurd h (hempty _ r), fun p i q i' pn h => absurd h (hempty _ _),
    fun _ _ => rfl⟩, fun p s r h => absurd h (hempty _ r), fun x y r r' h => absurd h (hempty _ r),
    fun p i r h => absurd h (hempty _ r)⟩

theorem complete_initial (L : KernelLayout) : Complete L (initial L) := by
  intro pn hu hr
  simp [initial, pageinfoInit_usable hu] at hr

namespace Booting

variable {p i pn : ℕ}

theorem frame_ne_free (h : Booting L w) {x : ℕ × Slot} {r : Ref} (hx : w.held x = some r)
    (hpn : (w.info pn).refcount = 0) : r.frame ≠ pn := by
  rintro rfl
  rw [h.counted x.1 x.2 r hx] at hpn
  cases hpn

theorem tablesCounted (h : Booting L w) : TablesCounted w := by
  intro p hp j
  rw [h.counted p _ _ (h.wf.tables p hp j)]
  norm_num

/-- Every held page is usable: nothing is mapped to page 0. -/
theorem frame_usable (h : Booting L w) {x : ℕ × Slot} {r : Ref} (hx : w.held x = some r) :
    usable L r.frame := by
  by_contra hu
  have hinfo := h.counted x.1 x.2 r hx
  have hlt : r.frame < 512 := by
    rcases x with ⟨p, j | i⟩
    · exact (h.wf.table_usable p j r hx).lt
    · exact h.wf.frame_lt hx
  have hown := pageinfoInit_owner hlt hu
  rw [← h.wf.kernel _ hu, hinfo] at hown
  simp only at hown
  omega

theorem give (h : Booting L w) (hp : w.Live p) (hi : 256 ≤ i) (hi' : i < 768)
    (hpn : lowestFree w.info = some pn) : Booting L (w.give p (.page i) pn) := by
  have hfree := (lowestFree_eq_some hpn).2.2
  have hheld {x : ℕ × Slot} {r : Ref} (hx : (w.give p (.page i) pn).held x = some r) :
      (x = (p, .page i) ∧ r = ⟨pn, true⟩) ∨ x ≠ (p, .page i) ∧ w.held x = some r := by
    by_cases hxp : x = (p, .page i)
    · subst x
      rw [give_held, Function.update_self] at hx
      exact Or.inl ⟨rfl, (Option.some.inj hx).symm⟩
    · rw [give_held, Function.update_of_ne hxp] at hx
      exact Or.inr ⟨hxp, hx⟩
  refine ⟨h.wf.give_page hp hi (by omega) (h.wf.lowestFree_usable hpn), fun q s r hx => ?_,
    fun x y r r' hx hy heq => ?_, fun q x r hx => ?_⟩
  · rw [give_info]
    rcases hheld hx with ⟨hqs, rfl⟩ | ⟨-, hx⟩
    · obtain ⟨rfl, -⟩ := Prod.mk.inj hqs
      exact Function.update_self ..
    · rw [Function.update_of_ne (h.frame_ne_free hx hfree)]
      exact h.counted q s r hx
  · rcases hheld hx with ⟨rfl, rfl⟩ | ⟨-, hx⟩ <;> rcases hheld hy with ⟨rfl, rfl⟩ | ⟨-, hy⟩
    · rfl
    · exact absurd heq.symm (h.frame_ne_free hy hfree)
    · exact absurd heq (h.frame_ne_free hx hfree)
    · exact h.distinct x y r r' hx hy heq
  · rcases hheld hx with ⟨hqx, -⟩ | ⟨-, hx⟩
    · rw [Slot.page.inj (Prod.mk.inj hqx).2]
      exact hi'
    · exact h.low q x r hx

theorem loadPage (h : Booting L w) (hp : w.Live p) (hi : 256 ≤ i) (hi' : i < 768) :
    Booting L (loadPage p i w) := by
  unfold World.loadPage
  split
  · exact h.give hp hi hi' ‹_›
  · exact h

theorem protectPage (h : Booting L w) (hp : w.Live p) (hi : 256 ≤ i) (hi' : i < 768) :
    Booting L (protectPage p i w) := by
  have hheld {x : ℕ × Slot} {r : Ref} (hx : (World.protectPage p i w).held x = some r) :
      ∃ r', w.held x = some r' ∧ r'.frame = r.frame := by
    unfold World.protectPage at hx
    by_cases hxp : x = (p, .page i)
    · subst x
      rw [hold_held, Function.update_self, Option.map_eq_some_iff] at hx
      obtain ⟨r', hr', rfl⟩ := hx
      exact ⟨r', hr', rfl⟩
    · rw [hold_held, Function.update_of_ne hxp] at hx
      exact ⟨r, hx, rfl⟩
  refine ⟨h.wf.hold_page hp hi (by omega) (fun r hr => ?_) fun pn hr q i' hq => ?_,
    fun q s r hx => ?_, fun x y r r' hx hy heq => ?_, fun q x r hx => ?_⟩
  · obtain ⟨r', hr', rfl⟩ := Option.map_eq_some_iff.mp hr
    exact Or.inl (show usable L r'.frame from h.frame_usable hr')
  · obtain ⟨r', hr', heq⟩ := Option.map_eq_some_iff.mp hr
    have hxy := h.distinct _ _ _ _ hq hr' (Ref.mk.inj heq).1.symm
    exact Slot.page.inj (Prod.mk.inj hxy).2
  · obtain ⟨r', hr', heq⟩ := hheld hx
    rw [← heq]
    exact h.counted q s r' hr'
  · obtain ⟨r₁, hr₁, heq₁⟩ := hheld hx
    obtain ⟨r₂, hr₂, heq₂⟩ := hheld hy
    exact h.distinct x y r₁ r₂ hr₁ hr₂ (by rw [heq₁, heq₂, heq])
  · obtain ⟨r', hr', -⟩ := hheld hx
    exact h.low q x r' hr'

theorem duplicate (h : Booting L w) (hc : 1 ≤ p) (hc' : p < 16)
    (hdup : World.duplicate p (w.setState p .runnable) = some w') : Booting L w' := by
  have htook := duplicate_spec hdup
  have hheld {x : ℕ × Slot} {r : Ref} (hx : w'.held x = some r) :
      (∃ j, x = (p, .table j) ∧ r = ⟨w'.frames p j, true⟩) ∨ w.held x = some r := by
    by_cases hxp : ∃ j, x = (p, .table j)
    · obtain ⟨j, rfl⟩ := hxp
      rw [duplicate_held_table hdup] at hx
      exact Or.inl ⟨j, rfl, (Option.some.inj hx).symm⟩
    · rw [htook.other x fun j _ hj => hxp ⟨j, hj⟩] at hx
      exact Or.inr hx
  have hold {x : ℕ × Slot} {r : Ref} (hx : w.held x = some r) (j : Fin 5) :
      r.frame ≠ w'.frames p j := h.frame_ne_free hx (duplicate_fresh hdup j).2.2
  refine ⟨h.wf.duplicate hc hc' h.tablesCounted hdup, fun q s r hx => ?_,
    fun x y r r' hx hy heq => ?_, fun q x r hx => h.low q x r ?_⟩
  · rw [htook.info]
    rcases hheld hx with ⟨j, hqs, rfl⟩ | hx
    · rw [if_pos ⟨j, mem_tables j, rfl⟩, (Prod.mk.inj hqs).1]
    · rw [if_neg fun ⟨j, _, hj⟩ => hold hx j hj]
      exact h.counted q s r hx
  · rcases hheld hx with ⟨j, rfl, rfl⟩ | hx <;> rcases hheld hy with ⟨j', rfl, rfl⟩ | hy
    · rw [htook.inj j (mem_tables j) j' (mem_tables j') heq]
    · exact absurd heq.symm (hold hy j)
    · exact absurd heq (hold hx j')
    · exact h.distinct x y r r' hx hy heq
  · rwa [duplicate_held_page hdup] at hx

end Booting

/-- What loading or protecting `n` pages from `i` on leaves alone. -/
structure OnlyPages (p n i : ℕ) (w w' : World) : Prop where
  state : w'.state = w.state
  current : w'.current = w.current
  other : ∀ y, (∀ x, i ≤ x → x < i + n → y ≠ (p, .page x)) → w'.held y = w.held y

namespace OnlyPages

variable {p n i : ℕ} {w'' : World}

theorem refl (p n i : ℕ) (w : World) : OnlyPages p n i w w := ⟨rfl, rfl, fun _ _ => rfl⟩

theorem trans (h : OnlyPages p n i w w') (h' : OnlyPages p n i w' w'') : OnlyPages p n i w w'' :=
  ⟨h'.state.trans h.state, h'.current.trans h.current,
    fun y hy => (h'.other y hy).trans (h.other y hy)⟩

theorem cons (h : OnlyPages p 1 i w w') (h' : OnlyPages p n (i + 1) w' w'') :
    OnlyPages p (n + 1) i w w'' :=
  ⟨h'.state.trans h.state, h'.current.trans h.current, fun y hy =>
    (h'.other y fun x hx hx' => hy x (by omega) (by omega)).trans
      (h.other y fun x hx hx' => hy x (by omega) (by omega))⟩

theorem live (h : OnlyPages p n i w w') (q : ℕ) : w'.Live q ↔ w.Live q := by
  rw [Live, Live, h.state]

end OnlyPages

theorem loadPage_only (p i : ℕ) (w : World) : OnlyPages p 1 i w (loadPage p i w) := by
  unfold loadPage
  split
  · exact ⟨rfl, rfl, fun y hy => Function.update_of_ne (hy i le_rfl (by omega)) _ _⟩
  · exact .refl _ _ _ _

theorem loadPages_only (p n i : ℕ) (w : World) : OnlyPages p n i w (loadPages p n i w) := by
  induction n generalizing i w with
  | zero => exact .refl _ _ _ _
  | succ n ih => exact (loadPage_only p i w).cons (ih (i + 1) _)

theorem protectPage_only (p i : ℕ) (w : World) : OnlyPages p 1 i w (protectPage p i w) :=
  ⟨rfl, rfl, fun y hy => Function.update_of_ne (hy i le_rfl (by omega)) _ _⟩

theorem protectPages_only (p n i : ℕ) (w : World) :
    OnlyPages p n i w (protectPages p n i w) := by
  induction n generalizing i w with
  | zero => exact .refl _ _ _ _
  | succ n ih => exact (protectPage_only p i w).cons (ih (i + 1) _)

theorem loadSegment_only (p : ℕ) (w : World) (ph : ElfProgram) :
    OnlyPages p ph.pages (ph.pVa / 4096) w (loadSegment p w ph) := by
  unfold loadSegment
  simp only [pageSize]
  split_ifs
  · exact (loadPages_only _ _ _ w).trans (protectPages_only _ _ _ _)
  · exact loadPages_only _ _ _ w

theorem protectPages_held {p n i x : ℕ} (hx : i ≤ x) (hx' : x < i + n) :
    (protectPages p n i w).held (p, .page x) =
      (w.held (p, .page x)).map (fun r => ⟨r.frame, false⟩) := by
  induction n generalizing i w with
  | zero => omega
  | succ n ih =>
      rw [protectPages]
      by_cases hxi : x = i
      · subst x
        rw [(protectPages_only p n (i + 1) _).other _ fun y hy _ heq => ?_]
        · simp [protectPage]
        · have := Slot.page.inj (Prod.mk.inj heq).2
          omega
      · rw [ih (by omega) (by omega), protectPage, hold_held, Function.update_of_ne (by simp [hxi])]

theorem protectPages_info (p n i : ℕ) (w : World) : (protectPages p n i w).info = w.info := by
  induction n generalizing i w with
  | zero => rfl
  | succ n ih => exact ih (i + 1) _

/-- With enough free pages, every page of the range is now held writable. -/
theorem loadPages_held {p n i : ℕ} (h : n ≤ (freePages w.info).card) :
    (freePages (loadPages p n i w).info).card + n = (freePages w.info).card ∧
      ∀ x, i ≤ x → x < i + n → ∃ pn, (loadPages p n i w).held (p, .page x) = some ⟨pn, true⟩ := by
  induction n generalizing i w with
  | zero => exact ⟨rfl, fun x hx hx' => by omega⟩
  | succ n ih =>
      obtain ⟨pn, hpn⟩ := exists_lowestFree (show 0 < (freePages w.info).card by omega)
      have hcard := card_freePages_assign p hpn
      have hpage : loadPage p i w = w.give p (.page i) pn := by rw [loadPage, hpn]
      rw [loadPages, hpage]
      obtain ⟨hc, hh⟩ := ih (w := w.give p (.page i) pn) (i := i + 1) (by rw [give_info]; omega)
      rw [give_info] at hc
      refine ⟨by omega, fun x hx hx' => ?_⟩
      by_cases hxi : x = i
      · subst x
        refine ⟨pn, ?_⟩
        rw [(loadPages_only p n (i + 1) _).other _ fun y hy _ heq => ?_]
        · simp
        · have := Slot.page.inj (Prod.mk.inj heq).2
          omega
      · exact hh x (by omega) (by omega)

theorem loadSegment_card (p : ℕ) {ph : ElfProgram} (h : ph.pages ≤ (freePages w.info).card) :
    (freePages (loadSegment p w ph).info).card + ph.pages = (freePages w.info).card := by
  have hc := (loadPages_held (p := p) (i := ph.pVa / pageSize) h).1
  unfold loadSegment
  dsimp only
  split_ifs
  · rw [protectPages_info]
    exact hc
  · exact hc

theorem loadImage_card {p : ℕ} (l : List ElfProgram)
    (h : (l.map ElfProgram.pages).sum ≤ (freePages w.info).card) :
    (freePages (l.foldl (loadSegment p) w).info).card + (l.map ElfProgram.pages).sum =
      (freePages w.info).card := by
  induction l generalizing w with
  | nil => rfl
  | cons ph l ih =>
      rw [List.map_cons, List.sum_cons] at h ⊢
      have hc := loadSegment_card p (show ph.pages ≤ (freePages w.info).card by omega)
      have hl := ih (w := loadSegment p w ph) (by omega)
      rw [List.foldl_cons]
      omega

namespace Booting

variable {p n i : ℕ}

theorem loadPages (h : Booting L w) (hp : w.Live p) (hi : 256 ≤ i) (hn : i + n ≤ 768) :
    Booting L (loadPages p n i w) := by
  induction n generalizing i w with
  | zero => exact h
  | succ n ih =>
      exact ih (h.loadPage hp hi (by omega)) (((loadPage_only p i w).live p).mpr hp) (by omega)
        (by omega)

theorem protectPages (h : Booting L w) (hp : w.Live p) (hi : 256 ≤ i) (hn : i + n ≤ 768) :
    Booting L (protectPages p n i w) := by
  induction n generalizing i w with
  | zero => exact h
  | succ n ih =>
      exact ih (h.protectPage hp hi (by omega)) (((protectPage_only p i w).live p).mpr hp)
        (by omega)
        (by omega)

theorem loadSegment (h : Booting L w) (hp : w.Live p) {ph : ElfProgram} (hph : ph.Inside) :
    Booting L (loadSegment p w ph) := by
  obtain ⟨h1, h2⟩ := hph.pages_le
  have hload := h.loadPages (n := ph.pages) hp h1 (by omega)
  unfold World.loadSegment
  simp only [pageSize]
  split_ifs
  · exact hload.protectPages (((loadPages_only _ _ _ w).live p).mpr hp) h1 (by omega)
  · exact hload

theorem loadImage (h : Booting L w) (hp : w.Live p) {l : List ElfProgram}
    (hl : ∀ ph ∈ l, ph.Inside) : Booting L (l.foldl (World.loadSegment p) w) := by
  induction l generalizing w with
  | nil => exact h
  | cons ph l ih =>
      exact ih (h.loadSegment hp (hl ph (by simp)))
        (((loadSegment_only p w ph).live p).mpr hp) fun ph' hph' => hl ph' (by simp [hph'])

/-- The stack page. -/
theorem stack (h : Booting L w) (hp : w.Live p) :
    Booting L (w.pageAlloc p (memsizeVirtual - pageSize)) := by
  unfold World.pageAlloc
  cases hpn : lowestFree w.info with
  | none => exact h
  | some pn =>
      dsimp only
      rw [if_pos ⟨by norm_num, by unfold inTree; norm_num⟩]
      exact h.give hp (by norm_num) (by norm_num) hpn

end Booting

theorem stack_eq {p pn : ℕ} (h : lowestFree w.info = some pn) :
    w.pageAlloc p (memsizeVirtual - pageSize) = w.give p (.page 767) pn := by
  rw [World.pageAlloc, h]
  exact if_pos ⟨by norm_num, by unfold inTree; norm_num⟩

theorem loadImage_only (p : ℕ) (l : List ElfProgram) (w : World) :
    (l.foldl (loadSegment p) w).state = w.state ∧
      (l.foldl (loadSegment p) w).current = w.current ∧
      ∀ y, (∀ ph ∈ l, ∀ i, ph.covers i → y ≠ (p, .page i)) →
        (l.foldl (loadSegment p) w).held y = w.held y := by
  induction l generalizing w with
  | nil => exact ⟨rfl, rfl, fun _ _ => rfl⟩
  | cons ph l ih =>
      have hph := loadSegment_only p w ph
      obtain ⟨hs, hc, hh⟩ := ih (loadSegment p w ph)
      refine ⟨hs.trans hph.state, hc.trans hph.current, fun y hy => ?_⟩
      rw [List.foldl_cons, hh y fun ph' hph' => hy ph' (by simp [hph'])]
      exact hph.other y fun x hx hx' => hy ph (by simp) x ⟨hx, hx'⟩

/-- Setting up a process when there is room for it. -/
theorem setup_some {p : ℕ} (image : ElfImage) (h : Booting L w) (hp : 1 ≤ p) (hp' : p < 16)
    (hroom : image.demand ≤ (freePages w.info).card) (hin : ∀ ph ∈ image.segments, ph.Inside) :
    ∃ w', setup p image w = some w' ∧ Booting L w' ∧
      w'.state = Function.update w.state p .runnable ∧ w'.current = w.current ∧
      (freePages w'.info).card + image.demand = (freePages w.info).card := by
  unfold ElfImage.demand at hroom ⊢
  obtain ⟨w₁, hdup, hc₁⟩ := duplicate_some (w := w.setState p .runnable) p
    (by rw [setState_info]; omega)
  rw [setState_info] at hc₁
  have hb₁ := h.duplicate hp hp' hdup
  have hl₁ : w₁.Live p := (duplicate_live hdup p).mpr (Or.inr rfl)
  have hc₂ := loadImage_card (p := p) (w := w₁) image.segments (by omega)
  obtain ⟨hs₂, hcur₂, -⟩ := loadImage_only p image.segments w₁
  have hb₂ := hb₁.loadImage hl₁ hin
  obtain ⟨pn, hpn⟩ := exists_lowestFree
    (show 0 < (freePages (image.segments.foldl (loadSegment p) w₁).info).card by omega)
  have hc₃ := card_freePages_assign p hpn
  refine ⟨(loadImage p image w₁).pageAlloc p (memsizeVirtual - pageSize), ?_, ?_, ?_, ?_, ?_⟩
  · rw [setup, hdup]
    rfl
  · exact hb₂.stack (by rw [Live, hs₂]; exact hl₁)
  · rw [(pageAlloc_state _ _ _).1, loadImage, hs₂, (duplicate_spec hdup).state, setState_state]
  · rw [(pageAlloc_state _ _ _).2, loadImage, hcur₂, (duplicate_spec hdup).current,
      setState_current]
  · rw [loadImage, stack_eq hpn, give_info]
    omega

theorem setup_held_of_ne {p q : ℕ} {image : ElfImage} (hsetup : setup p image w = some w')
    (hq : q ≠ p) (s : Slot) : w'.held (q, s) = w.held (q, s) := by
  obtain ⟨w₁, hdup, rfl⟩ := Option.map_eq_some_iff.mp hsetup
  have hload := (loadImage_only p image.segments w₁).2.2 (q, s)
    fun _ _ _ _ heq => hq (Prod.mk.inj heq).1
  rw [← duplicate_held_of_ne hdup hq, ← hload]
  unfold World.pageAlloc loadImage
  split
  · rfl
  · rw [if_pos ⟨by norm_num, by unfold inTree; norm_num⟩, give_held,
      Function.update_of_ne (by simp [hq])]

theorem setups_some {images : ℕ → ElfImage} {l : List (ℕ × ℕ)} (h : Booting L w)
    (hl : ∀ s ∈ l, 1 ≤ s.1 ∧ s.1 < 16)
    (hroom : (l.map (fun s => (images s.2).demand)).sum ≤ (freePages w.info).card)
    (hin : ∀ s ∈ l, ∀ ph ∈ (images s.2).segments, ph.Inside) :
    ∃ w', l.foldlM (fun w s => setup s.1 (images s.2) w) w = some w' ∧ Booting L w' ∧
      ∀ p, w'.state p = if p ∈ l.map Prod.fst then .runnable else w.state p := by
  induction l generalizing w with
  | nil => exact ⟨w, rfl, h, fun p => by simp⟩
  | cons s l ih =>
      rw [List.map_cons, List.sum_cons] at hroom
      obtain ⟨w₁, h₁, hb₁, hs₁, -, hc₁⟩ := setup_some (images s.2) h (hl s (by simp)).1
        (hl s (by simp)).2 (by omega) (hin s (by simp))
      obtain ⟨w', h', hb', hs'⟩ := ih hb₁ (fun s' hs' => hl s' (by simp [hs'])) (by omega)
        fun s' hs' => hin s' (by simp [hs'])
      refine ⟨w', ?_, hb', fun p => ?_⟩
      · rw [List.foldlM_cons, h₁]
        exact h'
      · rw [hs', hs₁, List.map_cons, Function.update_apply]
        by_cases hp : p = s.1
        · simp [hp]
        · rw [if_neg hp]
          exact if_congr (by rw [List.mem_cons, or_iff_right hp]) rfl rfl

/-- The processes that `command` starts. -/
def started (command : Option String) : List ℕ := (setups command).map Prod.fst

theorem boot_some {images : ℕ → ElfImage} {command : Option String}
    (hfit : ImagesFit L images command) :
    ∃ w, boot L images command = some w ∧ Booting L w ∧ w.current = 1 ∧
      ∀ p, w.state p = if p ∈ started command then .runnable else .free := by
  obtain ⟨w, hw, hb, hs⟩ := setups_some (booting_initial L) (setups_pid command) hfit.room
    hfit.inside
  refine ⟨{ w with current := 1 }, by rw [boot, hw]; rfl, ?_, rfl, hs⟩
  exact ⟨hb.wf.of_info rfl rfl (by norm_num) fun _ _ => rfl, hb.counted, hb.distinct, hb.low⟩

/-! With segments on disjoint pages no page is lost while loading. -/

namespace Complete

variable {p n i pn : ℕ}

/-- A page is handed to an empty place. -/
theorem give (h : Complete L w) {s : Slot} (hempty : w.held (p, s) = none) :
    Complete L (w.give p s pn) := by
  intro x hu hx
  by_cases hxp : x = pn
  · exact ⟨(p, s), ⟨pn, true⟩, by simp, hxp.symm⟩
  · rw [give_info, Function.update_of_ne hxp] at hx
    obtain ⟨y, r, hy, hr⟩ := h x hu hx
    refine ⟨y, r, ?_, hr⟩
    rw [give_held, Function.update_of_ne, hy]
    rintro rfl
    rw [hempty] at hy
    cases hy

theorem loadPages (h : Complete L w)
    (hempty : ∀ x, i ≤ x → x < i + n → w.held (p, .page x) = none) :
    Complete L (loadPages p n i w) := by
  induction n generalizing i w with
  | zero => exact h
  | succ n ih =>
      refine ih ?_ fun x hx hx' => ?_
      · unfold loadPage
        split
        · exact h.give (hempty i le_rfl (by omega))
        · exact h
      · rw [(loadPage_only p i w).other _ fun y hy hy' heq => ?_]
        · exact hempty x (by omega) (by omega)
        · have := Slot.page.inj (Prod.mk.inj heq).2
          omega

theorem protectPage (h : Complete L w) : Complete L (protectPage p i w) := by
  intro x hu hx
  obtain ⟨y, r, hy, hr⟩ := h x hu hx
  by_cases hyp : y = (p, .page i)
  · subst y
    refine ⟨(p, .page i), ⟨r.frame, false⟩, ?_, hr⟩
    rw [World.protectPage, hold_held, Function.update_self, hy]
    rfl
  · refine ⟨y, r, ?_, hr⟩
    rw [World.protectPage, hold_held, Function.update_of_ne hyp, hy]

theorem protectPages (h : Complete L w) : Complete L (protectPages p n i w) := by
  induction n generalizing i w with
  | zero => exact h
  | succ n ih => exact ih h.protectPage

theorem loadSegment {ph : ElfProgram} (h : Complete L w)
    (hempty : ∀ x, ph.covers x → w.held (p, .page x) = none) : Complete L (loadSegment p w ph) := by
  have hload := h.loadPages (p := p) (n := ph.pages) (i := ph.pVa / pageSize)
    fun x hx hx' => hempty x ⟨hx, hx'⟩
  unfold World.loadSegment
  dsimp only
  split_ifs
  · exact hload.protectPages
  · exact hload

theorem loadImage {l : List ElfProgram} (h : Complete L w)
    (hdisj : l.Pairwise (fun a b => ∀ i, a.covers i → ¬ b.covers i))
    (hempty : ∀ ph ∈ l, ∀ x, ph.covers x → w.held (p, .page x) = none) :
    Complete L (l.foldl (World.loadSegment p) w) := by
  induction l generalizing w with
  | nil => exact h
  | cons ph l ih =>
      obtain ⟨hph, hrest⟩ := List.pairwise_cons.mp hdisj
      refine ih (h.loadSegment (hempty ph (by simp))) hrest fun ph' hph' x hx => ?_
      rw [(loadSegment_only p w ph).other _ fun y hy hy' heq => ?_]
      · exact hempty ph' (by simp [hph']) x hx
      · obtain rfl := Slot.page.inj (Prod.mk.inj heq).2
        exact hph ph' hph' x ⟨hy, hy'⟩ hx

theorem duplicate (h : Complete L w) (hempty : ∀ s, w.held (p, s) = none)
    (hdup : World.duplicate p (w.setState p .runnable) = some w') : Complete L w' := by
  intro x hu hx
  rw [(duplicate_spec hdup).info] at hx
  split_ifs at hx with hj
  · obtain ⟨j, -, rfl⟩ := hj
    exact ⟨(p, .table j), _, duplicate_held_table hdup j, rfl⟩
  · obtain ⟨y, r, hy, hr⟩ := h x hu hx
    refine ⟨y, r, ?_, hr⟩
    rw [(duplicate_spec hdup).other y fun j _ heq => ?_]
    · exact hy
    · rw [heq, hempty] at hy
      cases hy

theorem setup {image : ElfImage} (h : Complete L w) (hempty : ∀ s, w.held (p, s) = none)
    (hin : ∀ ph ∈ image.segments, ph.Inside)
    (hdisj : image.segments.Pairwise (fun a b => ∀ i, a.covers i → ¬ b.covers i))
    (hsetup : World.setup p image w = some w') : Complete L w' := by
  obtain ⟨w₁, hdup, rfl⟩ := Option.map_eq_some_iff.mp hsetup
  have hempty₁ (x : ℕ) : w₁.held (p, .page x) = none := by
    rw [duplicate_held_page hdup]
    exact hempty _
  have h₂ := (h.duplicate hempty hdup).loadImage (p := p) hdisj fun _ _ x _ => hempty₁ x
  obtain ⟨-, -, hheld⟩ := loadImage_only p image.segments w₁
  unfold World.pageAlloc World.loadImage
  split
  · exact h₂
  · rw [if_pos ⟨by norm_num, by unfold inTree; norm_num⟩]
    refine h₂.give ?_
    rw [hheld _ fun ph hph i hi heq => ?_]
    · exact hempty₁ _
    · have h767 := Slot.page.inj (Prod.mk.inj heq).2
      have h1 := (hin ph hph).pages_le
      have h2 := hi.2
      simp only [memsizeVirtual, pageSize] at h767 h2
      omega

theorem setups {images : ℕ → ElfImage} {l : List (ℕ × ℕ)} (h : Complete L w)
    (hnd : (l.map Prod.fst).Nodup) (hempty : ∀ s ∈ l, ∀ t, w.held (s.1, t) = none)
    (hin : ∀ s ∈ l, ∀ ph ∈ (images s.2).segments, ph.Inside)
    (hdisj : ∀ s ∈ l, (images s.2).segments.Pairwise (fun a b => ∀ i, a.covers i → ¬ b.covers i))
    (hl : l.foldlM (fun w s => World.setup s.1 (images s.2) w) w = some w') : Complete L w' := by
  induction l generalizing w with
  | nil =>
      obtain rfl := Option.some.inj hl
      exact h
  | cons s l ih =>
      rw [List.map_cons, List.nodup_cons] at hnd
      rw [List.foldlM_cons, Option.bind_eq_bind, Option.bind_eq_some_iff] at hl
      obtain ⟨w₁, h₁, hl⟩ := hl
      refine ih (h.setup (hempty s (by simp)) (hin s (by simp)) (hdisj s (by simp)) h₁) hnd.2
        (fun s' hs' t => ?_) (fun s' hs' => hin s' (by simp [hs']))
        (fun s' hs' => hdisj s' (by simp [hs'])) hl
      have hne : s'.1 ≠ s.1 := fun heq => hnd.1 (heq ▸ List.mem_map_of_mem hs')
      rw [setup_held_of_ne h₁ hne]
      exact hempty s' (by simp [hs']) t

end Complete

theorem setups_nodup (command : Option String) : (started command).Nodup := by
  unfold started setups
  split_ifs <;> decide

theorem boot_complete {images : ℕ → ElfImage} {command : Option String}
    (hfit : ImagesFit L images command) (hdisj : ImagesDisjoint images command)
    (hboot : boot L images command = some w) : Complete L w := by
  obtain ⟨w₁, hl, rfl⟩ := Option.map_eq_some_iff.mp hboot
  have hc : Complete L w₁ := (complete_initial L).setups (setups_nodup command) (fun _ _ _ => rfl)
    hfit.inside hdisj hl
  exact hc

/-- The kernel's own check passes right after the start. -/
theorem Booting.checked (hb : Booting L w) (hc : Complete L w) : Checked L w := by
  refine ⟨fun p hp j => hb.counted p _ _ (hb.wf.tables p hp j), fun pn hlt hr ho => ?_⟩
  by_cases hu : usable L pn
  · obtain ⟨⟨p, s⟩, r, hx, rfl⟩ := hc pn hu (by omega)
    rw [hb.counted p s r hx]
    intro hd
    rw [hb.wf.dead p s (by simpa using hd)] at hx
    cases hx
  · have hneg := pageinfoInit_owner hlt hu
    rw [← hb.wf.kernel pn hu] at hneg
    omega

end World

end WeensyOS
