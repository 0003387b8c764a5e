import WeensyOS.ReferenceCounts
import WeensyOS.Ownership

/-!
# Reference counts that wrap around

When `page_alloc` replaces a mapping, the page that was there keeps its count, so counts can exceed
the number of references, and they are kept in a signed byte. As long as no count of -1 is raised to
0, the count modulo 256 still bounds the number of references and no page in use looks free. Rounds
of fork, remap and exit raise the count of a shared page by one each, without a bound.
-/

namespace WeensyOS
open ByteMemory World

variable {L : KernelLayout} {images : ℕ → ElfImage} {command : Option String} {M : Machine}
  {w : World}

/-- Every page that a process uses has a nonzero count. -/
def Kernel.UseCounted (k : Kernel) : Prop :=
  ∀ pn, k.Referenced pn → (k.pageinfo pn).refcount ≠ 0

/-- No fork counts up from -1. -/
def NoWrap (M : Machine) : Event → Prop
  | .store _ _ => True
  | .trap _ t => t = .fork → (findFreeSlot M.kernel.states (nProc - 1) 1).isSome →
      ∀ i, 256 ≤ i → i < 768 → ∀ pn : ℕ, M.kernel.maps M.kernel.current i pn →
        (M.kernel.pageinfo pn).refcount ≠ -1

/-- The counts tally modulo 256. -/
abbrev World.Wrapped (L : KernelLayout) (w : World) : Prop := Tallied (fun _ => Tally.wrapping) L w

theorem Ranged.regular {cpu : Cpu} {t : Trap} (hr : Ranged M (.trap cpu t))
    (hn : NoWrap M (.trap cpu t)) (h : Represents L M w) (hrun : w.Live w.current)
    (ht : w.Wrapped L) : w.Regular (fun _ => Tally.wrapping) t cpu.rdi.toNat := by
  obtain ⟨-, halloc, hfork⟩ := hr
  refine ⟨halloc, fun _ _ _ _ => Tally.wrapping_lossy, fun ht => h.room hrun (hfork ht),
    fun hf hslot x pn hx => ?_⟩
  obtain ⟨-, hlo, hhi⟩ := mem_places_page.mp (ht.place _ _ hx).1
  change (w.info pn).refcount ≠ -1
  rw [← h.sim.info]
  apply hn hf (by rwa [h.sim.state]) x hlo hhi pn
  rw [h.maps_iff _ _ hlo hhi, h.sim.current]
  exact frameAt_eq_some.mpr ⟨_, hx, rfl⟩

/-- As long as no fork counts up from -1, no page in use is considered free. -/
theorem reach_useCounted (hfit : ImagesFit L images command) (hdisj : ImagesDisjoint images command)
    (h : Machine.Reach L images command (fun M e => Ranged M e ∧ NoWrap M e) M) :
    M.kernel.UseCounted := by
  have htracks : Tracks L (World.Wrapped L) M := by
    refine reach_represents hfit (fun w hboot hb => ?_) (fun M w e hw hinv he => ?_)
      (fun M w cpu t hw hres _ hinv he => ?_) h
    · exact Tallied.of_booting _ hb (boot_complete hfit hdisj hboot)
    · cases e with
      | store va b => exact absurd he.1 id
      | trap cpu t => exact ⟨he.1.ordinary, fun ht => (he.1.2.1 ht).high⟩
    · exact hinv.trap hw.wf (hw.live hres) (he.1.regular he.2 hw (hw.live hres) hinv)
  obtain ⟨w, hw, hinv⟩ := htracks
  intro pn hpn
  obtain ⟨x, r, hx, rfl⟩ := (hw.referenced_iff (fun x r hx => (hinv.place x r hx).1) pn).mp hpn
  rw [hw.sim.info]
  exact hinv.counted hx

theorem reach_useCounted_sample : ∃ M, Machine.Reach sampleLayout (sampleImages 3) none
    (fun M e => Ranged M e ∧ NoWrap M e) M ∧ M.kernel.UseCounted := by
  obtain ⟨M, hM⟩ := sample_boots sampleLayout 3 none (by decide)
  exact ⟨M, .start hM, reach_useCounted (sample_fits _ _ _ (by decide)) (sample_disjoint _ _)
    (.start hM)⟩

/-! A process with two read-only pages `f` and `g`, and its child, in the course of a round. The
counts of the two pages may drift; all others stay exact. -/

namespace World

variable {f g pn : ℕ}

def driftTally (f g pn : ℕ) : Tally := if pn = f ∨ pn = g then Tally.wrapping else Tally.exact

structure Drift (L : KernelLayout) (f g : ℕ) (w : World) : Prop where
  tallied : Tallied (driftTally f g) L w
  code : w.held (1, .page 256) = some ⟨f, false⟩
  code' : w.held (1, .page 257) = some ⟨g, false⟩
  owner : (w.info f).owner = 1
  owner' : (w.info g).owner = 1
  shared : ∀ x pn, w.held x = some ⟨pn, false⟩ → pn = f ∨ pn = g
  few : ∀ p s r, w.held (p, s) = some r → (p = 1 ∨ p = 2) ∧
    ((∃ j, s = .table j) ∨ s = .page 256 ∨ s = .page 257 ∨ s = .page 767)

namespace Drift

theorem of_same {w' : World} (h : Drift L f g w) (hh : w'.held = w.held) (hi : w'.info = w.info) :
    Drift L f g w' := by
  obtain ⟨h1, h2, h3, h4, h5, h6, h7⟩ := h
  rw [← hh] at h2 h3 h6 h7
  rw [← hi] at h4 h5
  exact ⟨h1.of_same hh hi, h2, h3, h4, h5, h6, h7⟩

/-- Pages that count as used are held. -/
theorem held (h : Drift L f g w) (hu : usable L pn) (hr : (w.info pn).refcount ≠ 0) :
    ∃ x r, w.held x = some r ∧ r.frame = pn := by
  by_cases hf : pn = f
  · exact ⟨_, _, h.code, hf.symm⟩
  by_cases hg : pn = g
  · exact ⟨_, _, h.code', hg.symm⟩
  have hrel := h.tallied.count pn hu
  rw [driftTally, if_neg (by simp [hf, hg])] at hrel
  obtain ⟨x, -, hx⟩ := RefLedger.exists_of_count_pos (show 0 < w.refs pn by
    have := hrel.1
    omega)
  exact ⟨x, frameAt_eq_some.mp hx⟩

theorem owned (h : Drift L f g w) : w.Owned := by
  rintro x ⟨pn, b⟩ hx
  cases b with
  | true => exact ⟨x.1, x.2, _, by rw [h.tallied.exclusive x.1 x.2 pn hx], hx, rfl⟩
  | false =>
      rcases h.shared x pn hx with rfl | rfl
      · exact ⟨1, _, _, h.owner, h.code, rfl⟩
      · exact ⟨1, _, _, h.owner', h.code', rfl⟩

theorem checked (h : Drift L f g w) (hw : w.Wf L) : w.Checked L :=
  h.owned.checked h.tallied hw fun _ hu hr => h.held hu hr.ne'

/-- Two processes with few pages leave most of memory free. -/
theorem room (h : Drift L f g w) : 240 ≤ (freePages w.info).card := by
  let places : Finset (ℕ × Slot) := {1, 2} ×ˢ
    (Finset.univ.image Slot.table ∪ {.page 256, .page 257, .page 767})
  have hcard : places.card = 16 := by decide
  have hsub : Finset.Ico 256 512 ⊆
      freePages w.info ∪ places.image (fun x => (w.frameAt x).getD 0) := by
    intro pn hpn
    rw [Finset.mem_Ico] at hpn
    rw [Finset.mem_union]
    by_cases hr : (w.info pn).refcount = 0
    · left
      simp only [freePages, Finset.mem_filter, Finset.mem_Ico]
      omega
    · right
      have hend := L.end_le
      obtain ⟨x, r, hx, hf⟩ := h.held ((usable_iff L pn).mpr (by omega)) hr
      refine Finset.mem_image.mpr ⟨x, ?_, by rw [frameAt_eq_some.mpr ⟨r, hx, hf⟩]; rfl⟩
      obtain ⟨hp, hs⟩ := h.few x.1 x.2 r hx
      rw [Finset.mem_product, Finset.mem_union]
      refine ⟨by simpa using hp, ?_⟩
      rcases hs with ⟨j, hj⟩ | hs
      · exact Or.inl (Finset.mem_image.mpr ⟨j, Finset.mem_univ j, hj.symm⟩)
      · exact Or.inr (by simpa using hs)
  have hle := (Finset.card_le_card hsub).trans (Finset.card_union_le _ _)
  have himage := Finset.card_image_le (s := places) (f := fun x => (w.frameAt x).getD 0)
  rw [Nat.card_Ico] at hle
  omega

theorem not_free (h : Drift L f g w) (hpn : (w.info pn).refcount = 0) : pn ≠ f ∧ pn ≠ g :=
  ⟨(h.tallied.frame_ne_free h.code hpn).symm, (h.tallied.frame_ne_free h.code' hpn).symm⟩

theorem ne (h : Drift L f g w) (hw : w.Wf L) : f ≠ g := by
  rintro rfl
  have := hw.home 1 256 1 257 f h.code h.code'
  omega

/-- The process writes its stack only. -/
theorem writable_le (h : Drift L f g w) : writableFrom w 1 userPages 256 ≤ 1 := by
  have hpn : 256 + userPages = 768 := by norm_num
  rw [← card_writable, hpn]
  apply Finset.card_le_one_iff_subset_singleton.mpr
  refine ⟨767, fun x hx => ?_⟩
  rw [Finset.mem_filter, writableAt] at hx
  rw [Finset.mem_singleton]
  cases hr : w.held (1, .page x) with
  | none =>
      rw [hr] at hx
      cases hx.2
  | some r =>
      rcases (h.few 1 _ r hr).2 with ⟨j, hj⟩ | hx' | hx' | hx'
      · cases hj
      · rw [hx', h.code] at hx
        cases hx.2
      · rw [hx', h.code'] at hx
        cases hx.2
      · exact Slot.page.inj hx'

theorem fork (h : Drift L f g w) (hw : w.Wf L) (hcur : w.current = 1)
    (hst : ∀ p, w.state p = if p = 1 then .runnable else .free)
    (hf : (w.info f).refcount ≠ -1) (hg : (w.info g).refcount ≠ -1) :
    Drift L f g w.fork.1 ∧ Forked w 2 w.fork.1 ∧ w.fork.2 = .break ∧
      (w.fork.1.info f).refcount = toInt8 ((w.info f).refcount + 1) ∧
      (w.fork.1.info g).refcount = toInt8 ((w.info g).refcount + 1) := by
  have hrun : w.Live w.current := by
    rw [Live, hst, hcur]
    decide
  have hslot : findFreeSlot w.state (nProc - 1) 1 = some 2 := by simp [findFreeSlot, hst]
  have hroom := h.room
  have hwritable := h.writable_le
  obtain ⟨hforked, hnext⟩ := fork_forked hw hrun hslot (by omega)
  have hsafe (x pn : ℕ) (hx : w.held (w.current, .page x) = some ⟨pn, false⟩) :
      (driftTally f g pn).safe (w.info pn).refcount := by
    rcases h.shared _ pn hx with rfl | rfl
    · rw [driftTally, if_pos (Or.inl rfl)]
      exact hf
    · rw [driftTally, if_pos (Or.inr rfl)]
      exact hg
  obtain ⟨ht, hrec⟩ := h.tallied.fork_into hw hrun hslot hsafe (by rw [hcur]; omega)
  have hw' := Wf.fork hw (h.checked hw) hrun
  have hcode := h.code
  have hcode' := h.code'
  rw [← hcur] at hcode hcode'
  have hf' := hrec.shared 256 f le_rfl (by norm_num) hcode
  have hg' := hrec.shared 257 g (by norm_num) (by norm_num) hcode'
  have hparent (s : Slot) : w.fork.1.held (1, s) = w.held (1, s) := hforked.other 1 s (by norm_num)
  -- What the child holds, its parent holds at the same address.
  have hchild {s : Slot} {r : Ref} (hr : w.fork.1.held (2, s) = some r) :
      (∃ j, s = .table j ∧ r.writable = true) ∨
        ∃ r', w.held (1, s) = some r' ∧ (r.writable = false → r = r') := by
    rcases s with j | i
    · have hlive : w.fork.1.Live 2 := by
        rw [Live, hforked.state, Function.update_self]
        decide
      rw [hw'.tables 2 hlive j] at hr
      exact Or.inl ⟨j, rfl, by rw [← Option.some.inj hr]⟩
    · obtain ⟨-, hlo, hhi⟩ := mem_places_page.mp (ht.place _ _ hr).1
      right
      rcases hp : w.held (1, .page i) with _ | ⟨x, _ | _⟩
      · rw [hforked.unmapped i hlo hhi (by rwa [hcur])] at hr
        cases hr
      · rw [hforked.shared i x hlo hhi (by rwa [hcur])] at hr
        exact ⟨_, rfl, fun _ => (Option.some.inj hr).symm⟩
      · obtain ⟨x', hx'⟩ := hforked.copied i x hlo hhi (by rwa [hcur])
        rw [hx'] at hr
        obtain rfl := Option.some.inj hr
        exact ⟨_, rfl, fun hc => by cases hc⟩
  refine ⟨⟨ht, (hparent _).trans h.code, (hparent _).trans h.code', by rw [hf']; exact h.owner,
    by rw [hg']; exact h.owner', fun x pn hx => ?_, fun p s r hr => ?_⟩, hforked, hnext,
    by rw [hf'], by rw [hg']⟩
  · obtain ⟨q, s⟩ := x
    by_cases hq : q = 2
    · subst q
      rcases hchild hx with ⟨j, -, hc⟩ | ⟨r', hr', heq⟩
      · cases hc
      · rw [← heq rfl] at hr'
        exact h.shared _ pn hr'
    · rw [hforked.other q s hq] at hx
      exact h.shared _ pn hx
  · by_cases hp : p = 2
    · subst p
      refine ⟨Or.inr rfl, ?_⟩
      rcases hchild hr with ⟨j, hj, -⟩ | ⟨r', hr', -⟩
      · exact Or.inl ⟨j, hj⟩
      · exact (h.few 1 s r' hr').2
    · rw [hforked.other p s hp] at hr
      exact h.few p s r hr

/-- The child gets a page of its own in place of one that it shares. -/
theorem give {i : ℕ} (h : Drift L f g w) (hi : i = 256 ∨ i = 257)
    (hheld : ∀ pn, w.held (2, .page i) = some ⟨pn, true⟩ → False)
    (hpn : lowestFree w.info = some pn) :
    Drift L f g (w.give 2 (.page i) pn) ∧ (w.give 2 (.page i) pn).info f = w.info f ∧
      (w.give 2 (.page i) pn).info g = w.info g := by
  obtain ⟨hnf, hng⟩ := h.not_free (lowestFree_eq_some hpn).2.2
  have hf : (w.give 2 (.page i) pn).info f = w.info f := Function.update_of_ne hnf.symm ..
  have hg : (w.give 2 (.page i) pn).info g = w.info g := Function.update_of_ne hng.symm ..
  have hother {x : ℕ × Slot} (hx : x ≠ (2, .page i)) :
      (w.give 2 (.page i) pn).held x = w.held x := Function.update_of_ne hx ..
  have hlossy (r : Ref) (hr : w.held (2, .page (i * 4096 / 4096)) = some r)
      (_ : (lowestFree w.info).isSome) : (driftTally f g r.frame).Lossy := by
    rw [Nat.mul_div_cancel _ (by norm_num)] at hr
    obtain ⟨x, _ | _⟩ := r
    · rw [driftTally, if_pos (h.shared _ x hr)]
      exact Tally.wrapping_lossy
    · exact absurd hr (hheld x)
  have ht := h.tallied.pageAlloc (p := 2) (by norm_num)
    (show 0x100000 ≤ i * 4096 by omega) (by omega) hlossy
  rw [pageAlloc_give (by omega) (by omega) hpn, Nat.mul_div_cancel _ (by norm_num)] at ht
  refine ⟨⟨ht, (hother (by simp)).trans h.code, (hother (by simp)).trans h.code',
    by rw [hf]; exact h.owner, by rw [hg]; exact h.owner', fun x q hx => ?_, fun p s r hr => ?_⟩,
    hf, hg⟩
  · by_cases hxi : x = (2, .page i)
    · subst x
      simp at hx
    · rw [hother hxi] at hx
      exact h.shared x q hx
  · by_cases hxi : (p, s) = (2, .page i)
    · obtain ⟨rfl, rfl⟩ := Prod.mk.inj hxi
      refine ⟨Or.inr rfl, Or.inr ?_⟩
      rcases hi with rfl | rfl
      · exact Or.inl rfl
      · exact Or.inr (Or.inl rfl)
    · rw [hother hxi] at hr
      exact h.few p s r hr

/-- The child, which shares nothing any more, exits. -/
theorem exit (h : Drift L f g w) (hw : w.Wf L) (hcur : w.current = 2) (hrun : w.Live w.current)
    (hown : ∀ i, i = 256 ∨ i = 257 → ∃ pn, w.held (2, .page i) = some ⟨pn, true⟩) :
    Drift L f g w.exit ∧ w.exit.info f = w.info f ∧ w.exit.info g = w.info g := by
  have hunheld {pn i : ℕ} (hi : i = 256 ∨ i = 257) (hpn : w.held (1, .page i) = some ⟨pn, false⟩)
      (s : Slot) (r : Ref) (hr : w.held (w.current, s) = some r) : r.frame ≠ pn := by
    rintro rfl
    rw [hcur] at hr
    obtain ⟨x, _ | _⟩ := r
    · rcases s with j | i'
      · rw [hw.tables 2 (hcur ▸ hrun) j] at hr
        cases hr
      · obtain rfl := hw.home 2 i' 1 i x hr hpn
        obtain ⟨y, hy⟩ := hown i' hi
        rw [hr] at hy
        cases hy
    · have := (Prod.mk.inj (h.tallied.unique hr hpn rfl)).1
      omega
  have hf := exit_info_of_unheld hw hrun (hunheld (Or.inl rfl) h.code)
  have hg := exit_info_of_unheld hw hrun (hunheld (Or.inr rfl) h.code')
  have ht := h.tallied.exit hw hrun
  have hold {x : ℕ × Slot} {r : Ref} (hr : w.exit.held x = some r) : w.held x = some r := by
    rw [exit_held hw hrun] at hr
    split_ifs at hr
    exact hr
  have hparent (s : Slot) : w.exit.held (1, s) = w.held (1, s) := by
    rw [exit_held hw hrun, hcur, if_neg (by norm_num)]
  exact ⟨⟨ht, (hparent _).trans h.code, (hparent _).trans h.code', by rw [hf]; exact h.owner,
    by rw [hg]; exact h.owner', fun x pn hx => h.shared x pn (hold hx),
    fun p s r hr => h.few p s r (hold hr)⟩, hf, hg⟩

end Drift

/-- The page loop changes the counts of no pages but those that it maps into the child. -/
theorem forkSlots_info (p c n i : ℕ) (w : World) (pn : ℕ) :
    (forkSlots p c n i w).info pn = w.info pn ∨ ∃ x b, i ≤ x ∧ x < i + n ∧
      (forkSlots p c n i w).held (c, .page x) = some ⟨pn, b⟩ := by
  induction n generalizing i w with
  | zero => exact Or.inl rfl
  | succ n ih =>
      rw [forkSlots]
      rcases ih (i + 1) (forkSlot p c i w) with hsame | ⟨x, b, hx, hx', hheld⟩
      · have hkept : (forkSlots p c n (i + 1) (forkSlot p c i w)).held (c, .page i) =
            (forkSlot p c i w).held (c, .page i) := by
          apply forkSlots_held_of_ne
          intro y hy _ heq
          have := Slot.page.inj (Prod.mk.inj heq).2
          omega
        rw [hsame]
        by_cases hchild : ∃ b, (forkSlot p c i w).held (c, .page i) = some ⟨pn, b⟩
        · obtain ⟨b, hb⟩ := hchild
          exact Or.inr ⟨i, b, le_rfl, by omega, hkept.trans hb⟩
        · left
          revert hchild
          unfold forkSlot
          split
          · exact fun _ => rfl
          · split
            · rename_i q _
              intro hchild
              apply Function.update_of_ne
              rintro rfl
              exact hchild ⟨true, by simp⟩
            · exact fun _ => rfl
          · rename_i q _
            intro hchild
            have hne : pn ≠ q := by
              rintro rfl
              exact hchild ⟨false, by simp⟩
            dsimp only
            unfold incRefcount
            split_ifs
            · exact Function.update_of_ne (by omega) ..
            · rfl
      · exact Or.inr ⟨x, b, by omega, by omega, hheld⟩

/-- When both counts are -1, a fork raises them to 0. Its only copy, of the stack, can go to one of
the two pages; the other one stays free and in use. -/
theorem Drift.fork_wraps (h : Drift L f g w) (hw : w.Wf L) (hcur : w.current = 1)
    (hst : ∀ p, w.state p = if p = 1 then .runnable else .free)
    (hf : (w.info f).refcount = -1) (hg : (w.info g).refcount = -1) :
    (w.fork.1.info f).refcount = 0 ∨ (w.fork.1.info g).refcount = 0 := by
  have hrun : w.Live w.current := by
    rw [Live, hst, hcur]
    decide
  have hslot : findFreeSlot w.state (nProc - 1) 1 = some 2 := by simp [findFreeSlot, hst]
  have hroom := h.room
  obtain ⟨hforked, -⟩ := fork_forked hw hrun hslot (by omega)
  obtain ⟨w', hdup, -⟩ := duplicate_some (w := w.setState 2 .runnable) 2
    (by rw [setState_info]; omega)
  have hfg := h.ne hw
  have hpage (x : ℕ) : w'.held (1, .page x) = w.held (1, .page x) := duplicate_held_page hdup 1 x
  have hfu := (h.tallied.place _ _ h.code).2
  have hgu := (h.tallied.place _ _ h.code').2
  have hf' : w'.info f = w.info f := duplicate_info hdup (by rw [hf]; norm_num)
  have hg' : w'.info g = w.info g := duplicate_info hdup (by rw [hg]; norm_num)
  obtain ⟨n, hn, hn'⟩ : ∃ n, userPages = n + 2 ∧ n = 510 := ⟨510, by norm_num, rfl⟩
  have hfork := Tallied.fork_eq hslot hdup
  rw [hcur, hn, forkSlots, forkSlots] at hfork
  set w₂ := forkSlot 1 2 257 (forkSlot 1 2 256 w')
  have hw₂ : w₂.info = Function.update (Function.update w'.info f ⟨(w.info f).owner, 0⟩) g
      ⟨(w.info g).owner, 0⟩ := by
    have h₁ : (forkSlot 1 2 256 w').info = Function.update w'.info f ⟨(w.info f).owner, 0⟩ := by
      rw [forkSlot, hpage, h.code]
      dsimp only
      rw [incRefcount_usable _ hfu, hf', hf]
      rfl
    have h₂ : (forkSlot 1 2 256 w').held (1, .page 257) = some ⟨g, false⟩ := by
      rw [forkSlot_held_of_ne (by simp), hpage, h.code']
    change (forkSlot 1 2 257 (forkSlot 1 2 256 w')).info = _
    rw [forkSlot, h₂]
    dsimp only
    rw [incRefcount_usable _ hgu, h₁, Function.update_of_ne hfg.symm, hg', hg]
    rfl
  rw [hfork] at hforked ⊢
  -- A page that the rest of the loop gives away is given for the stack.
  have hstack {pn x : ℕ} {b : Bool} (hx : 258 ≤ x) (hx' : x < 258 + n)
      (hheld : (forkSlots 1 2 n 258 w₂).held (2, .page x) = some ⟨pn, b⟩) : x = 767 := by
    cases hp : w.held (1, .page x) with
    | none =>
        rw [hforked.unmapped x (by omega) (by omega) (by rwa [hcur])] at hheld
        cases hheld
    | some r =>
        rcases (h.few 1 _ r hp).2 with ⟨j, hj⟩ | hj | hj | hj
        · cases hj
        · have := Slot.page.inj hj
          omega
        · have := Slot.page.inj hj
          omega
        · exact Slot.page.inj hj
  rcases forkSlots_info 1 2 n 258 w₂ f with hsame | ⟨x, b, hx, hx', hheld⟩
  · left
    rw [hsame, hw₂, Function.update_of_ne hfg, Function.update_self]
  · rcases forkSlots_info 1 2 n 258 w₂ g with hsame | ⟨y, b', hy, hy', hheld'⟩
    · right
      rw [hsame, hw₂, Function.update_self]
    · rw [hstack hx hx' hheld] at hheld
      rw [hstack hy hy' hheld', hheld] at hheld'
      exact absurd (Ref.mk.inj (Option.some.inj hheld')).1 hfg

end World

/-- A machine in the course of the rounds. Both shared pages have count `r`. -/
structure Drifting (f g : ℕ) (r : ℤ) (live : List ℕ) (current : ℕ) (M : Machine) (w : World) :
    Prop where
  reach : Machine.Reach sampleLayout (sampleImages 0) (some "fork") Ranged M
  represents : Represents sampleLayout M w
  resumed : M.outcome.resumed = true
  drift : Drift sampleLayout f g w
  current : w.current = current
  state : ∀ p, w.state p = if p ∈ live then .runnable else .free
  count : (w.info f).refcount = r
  count' : (w.info g).refcount = r

namespace Drifting

variable {f g current : ℕ} {r : ℤ} {live : List ℕ} {w' : World} {o : Outcome}

theorem step (h : Drifting f g r live current M w) (addr : BitVec 64) (t : Trap)
    (hok : Ranged M (.trap (sampleCpu addr) t)) (huser : t.user)
    (htrap : w.trap t addr.toNat = (w', o)) (ho : o.resumed = true) :
    ∃ M', Machine.Reach sampleLayout (sampleImages 0) (some "fork") Ranged M' ∧
      Represents sampleLayout M' w' ∧ M'.outcome.resumed = true := by
  have halloc (ht : t = .pageAlloc) : w.AllocOk (sampleCpu addr).rdi.toNat :=
    ⟨fun _ _ => (hok.2.1 ht).1, fun hlow hfree hin =>
      (hok.2.1 ht).high hlow hfree hin (hok.2.1 ht).1⟩
  obtain ⟨M', hs, hrep, hout⟩ := step_exists (sampleCpu addr) t h.represents h.resumed
    (h.drift.checked h.represents.wf) hok.ordinary huser halloc
  rw [show (sampleCpu addr).rdi = addr from rfl, htrap] at hrep hout
  exact ⟨M', h.reach.next hok hs, hrep, by rwa [hout]⟩

theorem forkRoom (h : Drifting f g r live 1 M w) : M.kernel.ForkRoom := by
  intro _
  have hrep := h.represents
  have hroom := h.drift.room
  have hwritable := h.drift.writable_le
  rw [hrep.writablePages_eq (hrep.live h.resumed), hrep.sim.info, h.current]
  omega

/-- The process forks. -/
theorem fork (h : Drifting f g r [1] 1 M w) (hr : r ≠ -1) :
    ∃ M' w', Drifting f g (toInt8 (r + 1)) [1, 2] 1 M' w' ∧ ∀ i, i = 256 ∨ i = 257 →
      ∀ pn, w'.held (2, .page i) = some ⟨pn, true⟩ → False := by
  obtain ⟨hd, hforked, hnext, hf, hg⟩ := h.drift.fork h.represents.wf h.current
    (by simpa using h.state) (by rwa [h.count]) (by rwa [h.count'])
  have hst (p : ℕ) : w.fork.1.state p = if p ∈ [1, 2] then .runnable else .free := by
    rw [hforked.state, Function.update_apply, h.state]
    by_cases hp : p = 2 <;> simp [hp]
  have hcur : w.fork.1.current = 1 := hforked.current.trans h.current
  have htrap : w.trap .fork 0 = (w.fork.1, .run) := by
    change w.fork.1.leave w.fork.2 = _
    rw [hnext, World.leave, if_pos (by rw [hst, hcur]; rfl)]
  obtain ⟨M', hreach, hrep, hres⟩ := h.step 0 .fork ⟨by simp, (fun ht => by cases ht),
    fun _ => h.forkRoom⟩ trivial htrap rfl
  refine ⟨M', _, ⟨hreach, hrep, hres, hd, hcur, hst, by rw [hf, h.count], by rw [hg, h.count']⟩,
    fun i hi pn hpn => ?_⟩
  have hparent : ∃ q, w.held (w.current, .page i) = some ⟨q, false⟩ := by
    rw [h.current]
    rcases hi with rfl | rfl
    · exact ⟨f, h.drift.code⟩
    · exact ⟨g, h.drift.code'⟩
  obtain ⟨q, hq⟩ := hparent
  rw [hforked.shared i q (by omega) (by omega) hq] at hpn
  cases hpn

/-- The child takes over. -/
theorem yield (h : Drifting f g r [1, 2] 1 M w) :
    ∃ M', Drifting f g r [1, 2] 2 M' { w with current := 2 } := by
  have hsched : scheduleLoop w.state nProc w.current = some 2 := by
    simp [scheduleLoop, h.current, h.state]
  have htrap : w.trap .yield 0 = ({ w with current := 2 }, .schedule) := by
    change w.schedule = _
    rw [World.schedule, hsched]
  obtain ⟨M', hreach, hrep, hres⟩ := h.step 0 .yield ⟨by simp, (fun ht => by cases ht),
    fun ht => by cases ht⟩ trivial htrap rfl
  exact ⟨M', hreach, hrep, hres, h.drift.of_same rfl rfl, rfl, h.state, h.count, h.count'⟩

/-- The child replaces a shared page. -/
theorem alloc {i : ℕ} (h : Drifting f g r [1, 2] 2 M w) (hi : i = 256 ∨ i = 257)
    (hheld : ∀ pn, w.held (2, .page i) = some ⟨pn, true⟩ → False) :
    ∃ M' pn, Drifting f g r [1, 2] 2 M' (w.give 2 (.page i) pn) := by
  have hroom := h.drift.room
  obtain ⟨pn, hpn⟩ := exists_lowestFree (show 0 < (freePages w.info).card by omega)
  obtain ⟨hd, hf, hg⟩ := h.drift.give hi hheld hpn
  have haddr : (BitVec.ofNat 64 (i * 4096)).toNat = i * 4096 := by
    rw [BitVec.toNat_ofNat]
    omega
  have hst : (w.give 2 (.page i) pn).state (w.give 2 (.page i) pn).current = .runnable := by
    rw [give_state, give_current, h.current, h.state]
    rfl
  have htrap : w.trap .pageAlloc (BitVec.ofNat 64 (i * 4096)).toNat =
      (w.give 2 (.page i) pn, .run) := by
    change (w.pageAlloc w.current _).leave .break = _
    rw [haddr, h.current, pageAlloc_give (by omega) (by omega) hpn,
      Nat.mul_div_cancel _ (by norm_num), World.leave, if_pos hst]
  have hrange : inUserRange (BitVec.ofNat 64 (i * 4096)).toNat := by
    simp only [haddr, inUserRange, pageSize, procStartAddr, memsizeVirtual]
    omega
  obtain ⟨M', hreach, hrep, hres⟩ := h.step (BitVec.ofNat 64 (i * 4096)) .pageAlloc
    ⟨by simp, fun _ => hrange, fun ht => by cases ht⟩ trivial htrap rfl
  exact ⟨M', pn, hreach, hrep, hres, hd, h.current, h.state, by rw [hf, h.count],
    by rw [hg, h.count']⟩

/-- The child exits, which leaves the counts as they are. -/
theorem exit (h : Drifting f g r [1, 2] 2 M w)
    (hown : ∀ i, i = 256 ∨ i = 257 → ∃ pn, w.held (2, .page i) = some ⟨pn, true⟩) :
    ∃ M' w', Drifting f g r [1] 1 M' w' := by
  have hwf := h.represents.wf
  have hrun := h.represents.live h.resumed
  obtain ⟨hd, hf, hg⟩ := h.drift.exit hwf h.current hrun hown
  have hcur := (exit_current hwf hrun).trans h.current
  have hst (p : ℕ) : w.exit.state p = if p ∈ [1] then .runnable else .free := by
    rw [exit_state hwf hrun, Function.update_apply, h.state, h.current]
    by_cases hp : p = 2 <;> simp [hp]
  have hsched : scheduleLoop w.exit.state nProc w.exit.current = some 1 := by
    simp [scheduleLoop, hcur, hst]
  have htrap : w.trap .exit 0 = ({ w.exit with current := 1 }, .schedule) := by
    rw [trap_exit, World.leave, if_neg (by rw [hcur, hst]; decide), World.schedule, hsched]
  obtain ⟨M', hreach, hrep, hres⟩ := h.step 0 .exit ⟨by simp, (fun ht => by cases ht),
    fun ht => by cases ht⟩ trivial htrap rfl
  generalize w.exit = w₂ at *
  exact ⟨M', _, hreach, hrep, hres, hd.of_same rfl rfl, rfl, hst, by rw [← h.count, ← hf],
    by rw [← h.count', ← hg]⟩

/-- Fork, two allocations and exit of the child: both counts are one higher than before. -/
theorem round (h : Drifting f g r [1] 1 M w) (hr : r ≠ -1) :
    ∃ M' w', Drifting f g (toInt8 (r + 1)) [1] 1 M' w' := by
  obtain ⟨M₁, w₁, h₁, hshared⟩ := h.fork hr
  obtain ⟨M₂, h₂⟩ := h₁.yield
  obtain ⟨M₃, x, h₃⟩ := h₂.alloc (Or.inl rfl) (hshared 256 (Or.inl rfl))
  have hlater (pn : ℕ) (hpn : (({ w₁ with current := 2 } : World).give 2 (.page 256) x).held
      (2, .page 257) = some ⟨pn, true⟩) : False := by
    rw [give_held, Function.update_of_ne (by simp)] at hpn
    exact hshared 257 (Or.inr rfl) pn hpn
  obtain ⟨M₄, y, h₄⟩ := h₃.alloc (Or.inr rfl) hlater
  refine h₄.exit fun i hi => ?_
  rcases hi with rfl | rfl
  · exact ⟨x, by rw [give_held, Function.update_of_ne (by simp), give_held, Function.update_self]⟩
  · exact ⟨y, by rw [give_held, Function.update_self]⟩

theorem of_sample (hM : Machine.Boots sampleLayout (sampleImages 0) (some "fork") M)
    (hw : SampleWorld sampleLayout 0 w) (hrep : Represents sampleLayout M w)
    (hres : M.outcome.resumed = true) (hf : w.held (1, .page 256) = some ⟨f, false⟩)
    (hg : w.held (1, .page 257) = some ⟨g, false⟩) : Drifting f g 1 [1] 1 M w := by
  have hb := hw.booting
  have hlive {p : ℕ} {s : Slot} {r : Ref} (hr : w.held (p, s) = some r) : p = 1 := by
    by_contra hp
    rw [hb.wf.dead p s (by rw [hw.state, if_neg hp])] at hr
    cases hr
  have hfew {s : Slot} {r : Ref} (hr : w.held (1, s) = some r) :
      (∃ j, s = .table j) ∨ s = .page 256 ∨ s = .page 257 ∨ s = .page 767 := by
    rcases s with j | i
    · exact Or.inl ⟨j, rfl⟩
    · have hlo := (hb.wf.page_range 1 i r hr).1
      by_contra! hne
      simp only [ne_eq, Slot.page.injEq] at hne
      rw [hw.rest i (by omega) hne.2.2.2] at hr
      cases hr
  have hshared (x : ℕ × Slot) (pn : ℕ) (hx : w.held x = some ⟨pn, false⟩) : pn = f ∨ pn = g := by
    obtain ⟨p, s⟩ := x
    obtain rfl := hlive hx
    rcases hfew hx with ⟨j, rfl⟩ | rfl | rfl | rfl
    · rw [hb.wf.tables 1 (by rw [Live, hw.state]; decide) j] at hx
      cases hx
    · rw [hf] at hx
      exact Or.inl (Ref.mk.inj (Option.some.inj hx)).1.symm
    · rw [hg] at hx
      exact Or.inr (Ref.mk.inj (Option.some.inj hx)).1.symm
    · obtain ⟨x, hstack⟩ := hw.stack
      rw [hstack] at hx
      cases hx
  have hfi := hb.counted _ _ _ hf
  have hgi := hb.counted _ _ _ hg
  have hdrift : Drift sampleLayout f g w :=
    ⟨Tallied.of_booting _ hb hw.complete, hf, hg, by rw [hfi]; rfl, by rw [hgi]; rfl, hshared,
      fun p s r hr => by obtain rfl := hlive hr; exact ⟨Or.inl rfl, hfew hr⟩⟩
  exact ⟨.start hM, hrep, hres, hdrift, hw.current, by simpa using hw.state, by rw [hfi],
    by rw [hgi]⟩

theorem rounds (h : Drifting f g 1 [1] 1 M w) {n : ℕ} (hn : n ≤ 254) :
    ∃ M' w', Drifting f g (toInt8 (1 + n)) [1] 1 M' w' := by
  induction n with
  | zero => exact ⟨M, w, h⟩
  | succ n ih =>
      obtain ⟨M', w', h'⟩ := ih (by omega)
      obtain ⟨M'', w'', h''⟩ := h'.round (by unfold toInt8; omega)
      refine ⟨M'', w'', ?_⟩
      have heq : toInt8 (toInt8 (1 + n) + 1) = toInt8 (1 + (n + 1 : ℕ)) := by
        unfold toInt8
        omega
      rwa [heq] at h''

end Drifting

/-- After 254 rounds both counts are -1, and the next fork makes a page in use look free. -/
theorem not_useCounted : ¬ ∀ M, Machine.Reach sampleLayout (sampleImages 0) (some "fork") Ranged M →
    M.kernel.UseCounted := by
  intro hall
  obtain ⟨M₀, hM₀⟩ := sample_boots sampleLayout 0 (some "fork") (by decide)
  obtain ⟨w₀, hw₀, hrep₀, hres₀⟩ := sample_world sampleLayout (by norm_num) hM₀
  obtain ⟨f, hf⟩ := hw₀.code 256 le_rfl (by norm_num)
  obtain ⟨g, hg⟩ := hw₀.code 257 (by norm_num) (by norm_num)
  obtain ⟨M, w, h⟩ := (Drifting.of_sample hM₀ hw₀ hrep₀ hres₀ hf hg).rounds (n := 254) le_rfl
  have hst : ∀ p, w.state p = if p = 1 then .runnable else .free := by simpa using h.state
  have hroom := h.drift.room
  have hslot : findFreeSlot w.state (nProc - 1) 1 = some 2 := by simp [findFreeSlot, hst]
  obtain ⟨hforked, hnext⟩ := fork_forked h.represents.wf (h.represents.live h.resumed) hslot
    (by omega)
  have hwraps := h.drift.fork_wraps h.represents.wf h.current hst (h.count.trans rfl)
    (h.count'.trans rfl)
  have hrun : w.fork.1.state w.fork.1.current = .runnable := by
    rw [hforked.state, hforked.current, h.current, Function.update_of_ne (by norm_num), hst]
    rfl
  have htrap : w.trap .fork 0 = (w.fork.1, .run) := by
    change w.fork.1.leave w.fork.2 = _
    rw [hnext, World.leave, if_pos hrun]
  obtain ⟨M', hreach, hrep, -⟩ := h.step 0 .fork ⟨by simp, (fun ht => by cases ht),
    fun _ => h.forkRoom⟩ trivial htrap rfl
  have hmapped {i pn : ℕ} (hlo : 256 ≤ i) (hhi : i < 768)
      (hheld : w.held (1, .page i) = some ⟨pn, false⟩) : (w.fork.1.info pn).refcount ≠ 0 := by
    rw [← hrep.sim.info]
    refine hall M' hreach pn ⟨1, Or.inr ⟨i, hlo, hhi, ?_⟩⟩
    rw [hrep.maps_iff 1 pn hlo hhi]
    exact frameAt_eq_some.mpr ⟨_, (hforked.other 1 _ (by norm_num)).trans hheld, rfl⟩
  rcases hwraps with hzero | hzero
  · exact hmapped le_rfl (by norm_num) h.drift.code hzero
  · exact hmapped (by norm_num) (by norm_num) h.drift.code' hzero

end WeensyOS
