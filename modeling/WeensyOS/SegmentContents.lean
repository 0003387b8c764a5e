import WeensyOS.BootRefinement
import WeensyOS.Loading

/-!
# Contents of loaded segments

`program_load_segment` rounds `p_va` down to a page and copies the source to that address, up to the
unrounded end of the file part. The segment arrives as its comment says exactly when nothing is
rounded away: otherwise its bytes are shifted, and the copy reads past the file part.
-/

namespace WeensyOS
open ByteMemory

/-- The segment loads, the file part is followed by zeros at `p_va`, and nothing of the source
behind the file part is read. -/
structure SegmentHonoured (L : KernelLayout) (pt : ℕ) (pid : ℤ) (ph : ElfProgram)
    (src : ℕ → UInt8) (s : Memory × PageInfos) : Prop where
  loads : ∃ s', programLoadSegment L pt pid ph src s = .ok (s', true) ∧
    (∀ i < ph.pFilesz, virtualByte s'.1 pt (ph.pVa + i) = some (src i)) ∧
    ∀ i, ph.pFilesz ≤ i → i < ph.pMemsz → virtualByte s'.1 pt (ph.pVa + i) = some 0
  reads : ∀ src', (∀ i < ph.pFilesz, src' i = src i) →
    programLoadSegment L pt pid ph src' s = programLoadSegment L pt pid ph src s

theorem kernelFill_congr {cr3 : ℕ} {src src' : ℕ → UInt8} {n i va : ℕ} {m : Memory}
    (h : ∀ j, i ≤ j → j < i + n → src' j = src j) :
    kernelFill cr3 src' n i va m = kernelFill cr3 src n i va m := by
  induction n generalizing i va m with
  | zero => rfl
  | succ n ih =>
      rw [kernelFill, kernelFill, h i le_rfl (by omega)]
      apply bind_congr
      intro m'
      apply ih
      intro j hj hj'
      exact h j (by omega) (by omega)

/-- The loader depends on the source through the bytes it copies. -/
theorem programLoadSegment_congr {L : KernelLayout} {pt : ℕ} {pid : ℤ} {ph : ElfProgram}
    {src src' : ℕ → UInt8} {s : Memory × PageInfos}
    (h : ∀ i < ((ph.pVa + ph.pFilesz) % 2 ^ 64 + 2 ^ 64 - ph.pVa / pageSize * pageSize) % 2 ^ 64,
      src' i = src i) :
    programLoadSegment L pt pid ph src' s = programLoadSegment L pt pid ph src s := by
  unfold programLoadSegment
  apply bind_congr
  intro r
  dsimp only
  rw [kernelFill_congr fun j _ hj => h j (by omega)]

section segment
variable {L : KernelLayout} {T : Fin 5 → ℕ} {leaf : ℕ → ℕ} {s : Memory × PageInfos} {pid : ℤ}
  {ph : ElfProgram}

/-- What a process reads from a page that was loaded. -/
theorem Loaded.read {owner : ℤ} {S : Finset ℕ} {f perm : ℕ → ℕ} {s' : Memory × PageInfos}
    (hl : Loaded T owner S f perm leaf s s') (hS : S ⊆ Finset.Ico 256 768) {x : ℕ}
    (hx : x / 4096 ∈ S) (hp : perm (x / 4096) &&& pteP ≠ 0) (hlt : perm (x / 4096) < 4096) :
    virtualByte s'.1 (T 0 * 4096) x = some (s'.1 (placedAt f x)) := by
  have h768 := (Finset.mem_Ico.mp (hS hx)).2
  have hf := (hl.received.page hx).2.1
  have hpresent : (f (x / 4096) * 4096 + perm (x / 4096)) &&& pteP ≠ 0 := by
    rwa [frame_and_flag hlt (by norm_num)]
  rw [virtualByte, hl.tree.physical_low (by omega), placed_mem hx, Translation.ofEntry,
    if_pos hpresent, pteAddr_frame (by omega) hlt, pageOffset_eq]
  rfl

theorem ElfProgram.perm_spec (ph : ElfProgram) : ph.perm &&& pteP ≠ 0 ∧ ph.perm < 4096 := by
  unfold perm
  split_ifs
  · exact ⟨by decide, by norm_num⟩
  · exact ⟨by decide, by norm_num⟩

variable (h : Loading L T leaf s) (hfit : ph.Fits) (hroom : ph.pages ≤ (freePages s.2).card)

include h hfit hroom

/-- Every byte of the segment, as the process reads it. -/
theorem Loading.segment_byte (pid : ℤ) (src : ℕ → UInt8) :
    ∃ s', programLoadSegment L (T 0 * 4096) pid ph src s = .ok (s', true) ∧
      ∀ x, ph.pVa / 4096 * 4096 ≤ x → x < ph.pVa + ph.pMemsz →
        virtualByte s'.1 (T 0 * 4096) x = some (segmentByte ph src x) := by
  obtain ⟨s', f, hload, hl, hbytes⟩ := h.load_segment hfit hroom pid src
  refine ⟨s', hload, fun x hx hx' => ?_⟩
  rw [hl.read hfit.range (ElfProgram.mem_range hx hx') ph.perm_spec.1 ph.perm_spec.2,
    hbytes x hx hx']

theorem segmentHonoured_of_aligned (hal : ph.pVa % pageSize = 0) (src : ℕ → UInt8) :
    SegmentHonoured L (T 0 * 4096) pid ph src s := by
  have hfile := hfit.file
  have hend := hfit.end_lt
  have hround : ph.pVa / 4096 * 4096 = ph.pVa := by
    simp only [pageSize] at hal
    omega
  constructor
  · obtain ⟨s', hload, hbytes⟩ := h.segment_byte hfit hroom pid src
    refine ⟨s', hload, fun i hi => ?_, fun i hi hi' => ?_⟩
    · rw [hbytes (ph.pVa + i) (by omega) (by omega), segmentByte, if_pos (by omega)]
      simp only [pageSize]
      rw [hround, Nat.add_sub_cancel_left]
    · rw [hbytes (ph.pVa + i) (by omega) (by omega), segmentByte, if_neg (by omega)]
  · intro src' hsrc
    apply programLoadSegment_congr
    intro i hi
    apply hsrc
    simp only [pageSize] at hi
    omega

/-- Behind the file part, the copy still reads as many bytes as rounding has added in front. -/
theorem aligned_of_segmentHonoured {src : ℕ → UInt8}
    (hs : SegmentHonoured L (T 0 * 4096) pid ph src s) : ph.pVa % pageSize = 0 := by
  by_contra hal
  simp only [pageSize] at hal
  have hfile := hfit.file
  obtain ⟨b, hb⟩ : ∃ b, b ≠ src ph.pFilesz := by
    by_cases hz : src ph.pFilesz = 0
    · exact ⟨1, by rw [hz]; decide⟩
    · exact ⟨0, Ne.symm hz⟩
  obtain ⟨s₁, hload₁, hbytes₁⟩ := h.segment_byte hfit hroom pid src
  obtain ⟨s₂, hload₂, hbytes₂⟩ := h.segment_byte hfit hroom pid
    (Function.update src ph.pFilesz b)
  have hsame := hs.reads (Function.update src ph.pFilesz b) fun i hi =>
    Function.update_of_ne hi.ne _ _
  rw [hload₁, hload₂] at hsame
  obtain ⟨rfl, -⟩ := Prod.mk.inj (Except.ok.inj hsame)
  have hbyte (g : ℕ → UInt8) :
      segmentByte ph g (ph.pVa / 4096 * 4096 + ph.pFilesz) = g ph.pFilesz := by
    rw [segmentByte, if_pos (by omega)]
    simp only [pageSize]
    rw [Nat.add_sub_cancel_left]
  have heq := hbytes₁ (ph.pVa / 4096 * 4096 + ph.pFilesz) (by omega) (by omega)
  rw [hbytes₂ _ (by omega) (by omega), hbyte, hbyte, Function.update_self] at heq
  exact hb (Option.some.inj heq)

end segment

/-- The first process of a kernel that has just started, with its page table and no segment yet. -/
theorem loading_sample : ∃ T s, Loading sampleLayout T kernelOnly s ∧ 3 ≤ (freePages s.2).card := by
  obtain ⟨k, hsim, -⟩ := kernelMain_eq sampleLayout (sampleImages 0) (fun _ => 0) none
  have hinfo : k.pageinfo = pageinfoInit sampleLayout := hsim.info
  have hcard := (card_freePages_init sampleLayout).1
  obtain ⟨T, m, info, -, hfresh, hload⟩ := duplicatePagetable_loading (c := 1)
    (by norm_num) hsim.mem.kernel
    (show ∀ j, (k.pageinfo (sampleLayout.tables j)).refcount ≠ 0 from fun j => by
      rw [hinfo, pageinfoInit_tables]; norm_num) (by rw [hinfo]; omega)
  have hroom := hfresh.room
  rw [hinfo] at hroom
  exact ⟨T, (m, info), hload, by dsimp only; omega⟩

/-- Five bytes of text at the given address. -/
def textSegment (va : ℕ) : ElfProgram where
  pType := 1
  pFlags := 5
  pOffset := 0x1000
  pVa := va
  pFilesz := 5
  pMemsz := 5

theorem textSegment_fits {va : ℕ} (h : 0x100000 ≤ va) (h' : va < 0x100ff0) :
    (textSegment va).Fits ∧ (textSegment va).pages = 1 := by
  have hpages : (textSegment va).pages = (va % 4096 + 5 + 4095) / 4096 := rfl
  refine ⟨⟨show va < 2 ^ 64 by omega, le_rfl, fun x hx => ?_⟩, by omega⟩
  obtain ⟨hlo, hhi⟩ : va / 4096 ≤ x ∧ x < va / 4096 + (textSegment va).pages := Finset.mem_Ico.mp hx
  exact Finset.mem_Ico.mpr ⟨by omega, by omega⟩

end WeensyOS
