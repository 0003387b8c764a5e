import WeensyOS.Duplicate
import WeensyOS.ProcessTable

/-!
# Well-formedness of the ledger

Every operation of the abstract memory manager keeps `Wf`. The allocations of a fork need one fact
about reference counts, that no table of a live process is counted as free; `Checked` provides it at
the start, and sharing a read-only page cannot take it away, because a page is shared at one address
only and so counted up at most once.
-/

namespace WeensyOS.World

variable {L : KernelLayout} {w w' : World}

/-- A page that is not counted as used is not reserved either. -/
theorem Wf.usable_of_free (h : Wf L w) {pn : ℕ} (hlt : pn < 512)
    (hfree : (w.info pn).refcount = 0) : usable L pn := by
  by_contra hu
  rw [h.kernel pn hu, pageinfoInit_refcount hlt hu] at hfree
  cases hfree

theorem Wf.lowestFree_usable (h : Wf L w) {pn : ℕ} (hpn : lowestFree w.info = some pn) :
    usable L pn := by
  obtain ⟨-, h2, h3⟩ := lowestFree_eq_some hpn
  exact h.usable_of_free h2 h3

/-- Counts of usable pages do not matter. -/
theorem Wf.of_info (h : Wf L w) (hs : w'.state = w.state) (hh : w'.held = w.held)
    (hc : w'.current < 16) (hi : ∀ pn, ¬ usable L pn → w'.info pn = w.info pn) : Wf L w' := by
  have hf (p : ℕ) : w'.frames p = w.frames p := by
    funext j
    rw [frames, frames, hh]
  constructor
  · rw [hs]; exact h.zero
  · rw [hs]; exact h.above
  · exact hc
  · rw [hs, hh]; exact h.dead
  · intro p hp
    rw [hf, hh]
    exact h.tables p (by rwa [Live, hs] at hp)
  · rw [hh]; exact h.table_usable
  · rw [hh]; exact h.table_inj
  · rw [hh]; exact h.page_range
  · rw [hh]; exact h.page_frame
  · rw [hh]; exact h.home
  · exact fun pn hu => (hi pn hu).trans (h.kernel pn hu)

theorem Wf.setInfo (h : Wf L w) {pn : ℕ} (hpn : usable L pn) (i : PageInfo) :
    Wf L (w.setInfo pn i) :=
  h.of_info rfl rfl h.current fun x hx => by
    rw [setInfo_info, Function.update_of_ne (by rintro rfl; exact hx hpn)]

/-- Changing what a live process holds at one virtual page. A read-only page must be held nowhere
at another virtual page. -/
theorem Wf.hold_page (h : Wf L w) {p i : ℕ} {r : Option Ref} (hp : w.Live p) (hi : 256 ≤ i)
    (hi' : i < 1024)
    (hr : ∀ r', r = some r' → usable L r'.frame ∨ r'.frame = 0 ∧ r'.writable = true)
    (hhome : ∀ pn, r = some ⟨pn, false⟩ →
      ∀ q i', w.held (q, .page i') = some ⟨pn, false⟩ → i' = i) :
    Wf L (w.hold p (.page i) r) := by
  have htab (q : ℕ) (j : Fin 5) :
      (w.hold p (.page i) r).held (q, .table j) = w.held (q, .table j) := by simp [hold]
  have hpage {q x : ℕ} {r' : Ref} (hq : (w.hold p (.page i) r).held (q, .page x) = some r') :
      (q = p ∧ x = i ∧ r = some r') ∨ w.held (q, .page x) = some r' := by
    by_cases hx : (q, Slot.page x) = (p, Slot.page i)
    · rw [hx] at hq
      simp only [Prod.mk.injEq, Slot.page.injEq] at hx
      exact Or.inl ⟨hx.1, hx.2, by simpa [hold] using hq⟩
    · exact Or.inr (by simpa [hold, hx] using hq)
  constructor
  · exact h.zero
  · exact h.above
  · exact h.current
  · intro q s hq
    have hne : (q, s) ≠ (p, Slot.page i) := by
      rintro heq
      obtain ⟨rfl, -⟩ := Prod.mk.inj heq
      exact hp hq
    simpa [hold, hne] using h.dead q s hq
  · intro q hq j
    rw [htab, frames_hold_page]
    exact h.tables q hq j
  · intro q j r' hr'
    exact h.table_usable q j r' (by rwa [htab] at hr')
  · intro q j q' j' r₁ r₂ h₁ h₂
    rw [htab] at h₁ h₂
    exact h.table_inj q j q' j' r₁ r₂ h₁ h₂
  · intro q x r' hq
    rcases hpage hq with ⟨-, rfl, -⟩ | hq
    · exact ⟨hi, hi'⟩
    · exact h.page_range q x r' hq
  · intro q x r' hq
    rcases hpage hq with ⟨-, -, hrr⟩ | hq
    · exact hr r' hrr
    · exact h.page_frame q x r' hq
  · intro q x q' x' pn h₁ h₂
    rcases hpage h₁ with ⟨-, hx, hr₁⟩ | g₁ <;> rcases hpage h₂ with ⟨-, hx', hr₂⟩ | g₂
    · rw [hx, hx']
    · rw [hx, hhome pn hr₁ q' x' g₂]
    · rw [hx', hhome pn hr₂ q x g₁]
    · exact h.home q x q' x' pn g₁ g₂
  · exact h.kernel

theorem Wf.give_page (h : Wf L w) {p i pn : ℕ} (hp : w.Live p) (hi : 256 ≤ i) (hi' : i < 1024)
    (hpn : usable L pn) : Wf L (w.give p (.page i) pn) := by
  refine (h.hold_page hp hi hi' (fun r' hr => ?_) fun pn' hr => ?_).setInfo hpn _
  · obtain rfl := Option.some.inj hr
    exact Or.inl hpn
  · cases hr

/-- No table of a live process is counted as free. -/
def TablesCounted (w : World) : Prop := ∀ p, w.Live p → ∀ j, (w.info (w.frames p j)).refcount ≠ 0

theorem Checked.tablesCounted (h : Checked L w) : TablesCounted w := by
  intro p hp j
  rw [h.tables p hp j]
  norm_num

section duplicate
variable {c : ℕ} (h : Wf L w) (hc : 1 ≤ c) (hc' : c < 16)
  (hcount : TablesCounted w) (hdup : duplicate c (w.setState c .runnable) = some w')
include hdup

theorem duplicate_held_page (p i : ℕ) : w'.held (p, .page i) = w.held (p, .page i) :=
  (duplicate_spec hdup).other (p, .page i) (by simp)

theorem duplicate_held_of_ne {p : ℕ} (hp : p ≠ c) (s : Slot) : w'.held (p, s) = w.held (p, s) :=
  (duplicate_spec hdup).other (p, s) (fun _ _ heq => hp (Prod.mk.inj heq).1)

theorem duplicate_held_table (j : Fin 5) :
    w'.held (c, .table j) = some ⟨w'.frames c j, true⟩ :=
  (duplicate_spec hdup).held j (mem_tables j)

theorem duplicate_fresh (j : Fin 5) : 1 ≤ w'.frames c j ∧ w'.frames c j < 512 ∧
    (w.info (w'.frames c j)).refcount = 0 :=
  (duplicate_spec hdup).fresh j (mem_tables j)

/-- Pages in use are not taken. -/
theorem duplicate_info {pn : ℕ} (hpn : (w.info pn).refcount ≠ 0) : w'.info pn = w.info pn := by
  rw [(duplicate_spec hdup).info, if_neg]
  · rfl
  · rintro ⟨j, -, rfl⟩
    exact hpn (duplicate_fresh hdup j).2.2

theorem duplicate_frames_of_ne {p : ℕ} (hp : p ≠ c) : w'.frames p = w.frames p := by
  funext j
  rw [frames, frames, duplicate_held_of_ne hdup hp]

theorem duplicate_live (p : ℕ) : w'.Live p ↔ w.Live p ∨ p = c := by
  rw [Live, (duplicate_spec hdup).state, setState_state, Live]
  by_cases hp : p = c
  · simp [hp]
  · simp [hp]

include h hc hc' hcount

theorem Wf.duplicate : Wf L w' := by
  have husable (j : Fin 5) : usable L (w'.frames c j) :=
    h.usable_of_free (duplicate_fresh hdup j).2.1 (duplicate_fresh hdup j).2.2
  have hlive {p : ℕ} (hp : p ≠ c) (hl : w'.Live p) : w.Live p := by
    rcases (duplicate_live hdup p).mp hl with hl | rfl
    · exact hl
    · exact absurd rfl hp
  have hstate {p : ℕ} (hp : p ≠ c) : w'.state p = w.state p := by
    rw [(duplicate_spec hdup).state, setState_state, Function.update_of_ne hp]
  have hnew {p : ℕ} {j j' : Fin 5} {r : Ref} (hp : p ≠ c)
      (hr : w.held (p, .table j) = some r) : r.frame ≠ w'.frames c j' := by
    intro heq
    have hpl : w.Live p := fun hd => by rw [h.dead p _ hd] at hr; cases hr
    have hrf : w.frames p j = r.frame := by rw [frames, hr]
    exact hcount p hpl j (by rw [hrf, heq]; exact (duplicate_fresh hdup j').2.2)
  constructor
  · rw [hstate (by omega)]; exact h.zero
  · intro p hp
    rw [hstate (by omega)]; exact h.above p hp
  · rw [(duplicate_spec hdup).current]; exact h.current
  · intro p s hp
    by_cases hpc : p = c
    · subst p
      exact absurd hp ((duplicate_live hdup c).mpr (Or.inr rfl))
    · rw [duplicate_held_of_ne hdup hpc]
      rw [hstate hpc] at hp
      exact h.dead p s hp
  · intro p hp j
    by_cases hpc : p = c
    · subst p
      exact duplicate_held_table hdup j
    · rw [duplicate_held_of_ne hdup hpc, duplicate_frames_of_ne hdup hpc]
      exact h.tables p (hlive hpc hp) j
  · intro p j r hr
    by_cases hpc : p = c
    · subst p
      rw [duplicate_held_table hdup] at hr
      obtain rfl := Option.some.inj hr
      exact husable j
    · rw [duplicate_held_of_ne hdup hpc] at hr
      exact h.table_usable p j r hr
  · intro p j q j' r r' hr hr' heq
    by_cases hpc : p = c <;> by_cases hqc : q = c
    · subst p q
      rw [duplicate_held_table hdup] at hr hr'
      obtain rfl := Option.some.inj hr
      obtain rfl := Option.some.inj hr'
      exact ⟨rfl, (duplicate_spec hdup).inj j (mem_tables j) j' (mem_tables j') heq⟩
    · subst p
      rw [duplicate_held_table hdup] at hr
      obtain rfl := Option.some.inj hr
      rw [duplicate_held_of_ne hdup hqc] at hr'
      exact absurd heq.symm (hnew hqc hr')
    · subst q
      rw [duplicate_held_table hdup] at hr'
      obtain rfl := Option.some.inj hr'
      rw [duplicate_held_of_ne hdup hpc] at hr
      exact absurd heq (hnew hpc hr)
    · rw [duplicate_held_of_ne hdup hpc] at hr
      rw [duplicate_held_of_ne hdup hqc] at hr'
      exact h.table_inj p j q j' r r' hr hr' heq
  · intro p i r hr
    rw [duplicate_held_page hdup] at hr
    exact h.page_range p i r hr
  · intro p i r hr
    rw [duplicate_held_page hdup] at hr
    exact h.page_frame p i r hr
  · intro p i q i' pn h₁ h₂
    rw [duplicate_held_page hdup] at h₁ h₂
    exact h.home p i q i' pn h₁ h₂
  · intro pn hu
    rw [(duplicate_spec hdup).info, if_neg]
    · exact h.kernel pn hu
    · rintro ⟨j, -, rfl⟩
      exact hu (husable j)

end duplicate

/-- The page loop of a fork of `p` into `c`, about to treat virtual page `i`. A table page that is
also mapped read-only has been counted up at most once, at its one address. -/
structure Forking (L : KernelLayout) (p c i : ℕ) (w : World) : Prop where
  wf : Wf L w
  parent : w.Live p
  child : w.Live c
  ne : p ≠ c
  empty : ∀ x, i ≤ x → w.held (c, .page x) = none
  tables : ∀ q, w.Live q → ∀ j, (w.info (w.frames q j)).refcount = 1 ∨
    (w.info (w.frames q j)).refcount = 2 ∧
      ∃ x < i, w.held (p, .page x) = some ⟨w.frames q j, false⟩

namespace Forking

variable {p c i : ℕ}

theorem tablesCounted (h : Forking L p c i w) : TablesCounted w := by
  intro q hq j
  rcases h.tables q hq j with ht | ⟨ht, -⟩ <;> rw [ht] <;> norm_num

theorem frames_ne_free (h : Forking L p c i w) {pn : ℕ} (hpn : (w.info pn).refcount = 0) {q : ℕ}
    (hq : w.Live q) (j : Fin 5) : w.frames q j ≠ pn :=
  fun heq => h.tablesCounted q hq j (heq ▸ hpn)

/-- The child receives a reference at page `i`, and table counts stay as they are. -/
theorem next_of_counts (h : Forking L p c i w) (hw : Wf L w') (hs : w'.state = w.state)
    (hh : ∃ r, w'.held = Function.update w.held (c, .page i) r)
    (hi : ∀ q, w.Live q → ∀ j, (w'.info (w.frames q j)).refcount =
      (w.info (w.frames q j)).refcount ∨ (w'.info (w.frames q j)).refcount = 2 ∧
        w.held (p, .page i) = some ⟨w.frames q j, false⟩) :
    Forking L p c (i + 1) w' := by
  obtain ⟨r, hr⟩ := hh
  have hf (q : ℕ) : w'.frames q = w.frames q := by
    funext j
    rw [frames, frames, hr, Function.update_of_ne (by simp)]
  have hlive (q : ℕ) : w'.Live q ↔ w.Live q := by rw [Live, Live, hs]
  have hp (x : ℕ) : w'.held (p, .page x) = w.held (p, .page x) := by
    rw [hr, Function.update_of_ne (by simp [h.ne])]
  refine ⟨hw, (hlive p).mpr h.parent, (hlive c).mpr h.child, h.ne, fun x hx => ?_, fun q hq j => ?_⟩
  · rw [hr, Function.update_of_ne (by simp; omega)]
    exact h.empty x (by omega)
  · rw [hf]
    have hq' := (hlive q).mp hq
    rcases hi q hq' j with heq | ⟨h2, hheld⟩
    · rw [heq]
      apply (h.tables q hq' j).imp_right
      rintro ⟨h2, x, hx, hheld⟩
      exact ⟨h2, x, by omega, by rw [hp, hheld]⟩
    · exact Or.inr ⟨h2, i, by omega, by rw [hp, hheld]⟩

theorem next (h : Forking L p c i w) (hi : 256 ≤ i) (hi' : i < 1024) :
    Forking L p c (i + 1) (forkSlot p c i w) := by
  unfold forkSlot
  split
  · refine h.next_of_counts h.wf rfl ⟨none, ?_⟩ fun q _ j => Or.inl rfl
    rw [← h.empty i le_rfl, Function.update_eq_self]
  · split
    · rename_i pn hpn
      have hfree := (lowestFree_eq_some hpn).2.2
      refine h.next_of_counts
        (h.wf.give_page h.child hi hi' (h.wf.lowestFree_usable hpn)) rfl ⟨_, rfl⟩
        fun q hq j => Or.inl ?_
      rw [give_info, Function.update_of_ne (h.frames_ne_free hfree hq j)]
    · refine h.next_of_counts (h.wf.hold_page h.child hi hi' (fun r' hr => ?_) fun pn hr => ?_) rfl
        ⟨_, rfl⟩ fun q _ j => Or.inl rfl
      · obtain rfl := Option.some.inj hr
        exact Or.inr ⟨rfl, rfl⟩
      · cases hr
  · rename_i pn hheld
    have hu : usable L pn := by
      rcases h.wf.page_frame p i _ hheld with hu | ⟨-, hw⟩
      · exact hu
      · cases hw
    have hinfo : incRefcount w.info pn =
        Function.update w.info pn
          { w.info pn with refcount := toInt8 ((w.info pn).refcount + 1) } := by
      have hlt := hu.lt
      rw [incRefcount, if_pos (by simp only [nPages]; omega), Int.toNat_natCast]
    have hwf : Wf L ((w.hold c (.page i) (some ⟨pn, false⟩)).setInfo pn
        { w.info pn with refcount := toInt8 ((w.info pn).refcount + 1) }) := by
      refine (h.wf.hold_page h.child hi hi' (fun r' hr => ?_) fun pn' hr q i' hq => ?_).setInfo hu _
      · obtain rfl := Option.some.inj hr
        exact Or.inl hu
      · obtain ⟨rfl, -⟩ := Ref.mk.inj (Option.some.inj hr)
        exact h.wf.home q i' p i pn hq hheld
    rw [hinfo]
    refine h.next_of_counts hwf rfl ⟨_, rfl⟩ fun q hq j => ?_
    by_cases hj : w.frames q j = pn
    · right
      refine ⟨?_, by rw [hheld, hj]⟩
      rcases h.tables q hq j with h1 | ⟨-, x, hx, hxh⟩
      · rw [hj] at h1 ⊢
        simp [h1, toInt8]
      · rw [hj] at hxh
        have := h.wf.home p x p i pn hxh hheld
        omega
    · left
      simp [hj]

theorem forkSlots {n : ℕ} (h : Forking L p c i w) (hi : 256 ≤ i) (hn : i + n ≤ 1024) :
    Forking L p c (i + n) (World.forkSlots p c n i w) := by
  induction n generalizing i w with
  | zero => exact h
  | succ n ih =>
      rw [World.forkSlots, show i + (n + 1) = i + 1 + n by omega]
      exact ih (h.next hi (by omega)) (by omega) (by omega)

/-- Where the loop starts. -/
theorem of_duplicate (h : Wf L w) (hchk : Checked L w) (hp : w.Live p) (hfree : w.state c = .free)
    (hc : 1 ≤ c) (hc' : c < 16) (hdup : World.duplicate c (w.setState c .runnable) = some w') :
    Forking L p c 256 w' := by
  have hne : p ≠ c := by
    rintro rfl
    exact hp hfree
  refine ⟨h.duplicate hc hc' hchk.tablesCounted hdup, (duplicate_live hdup p).mpr (Or.inl hp),
    (duplicate_live hdup c).mpr (Or.inr rfl), hne, fun x _ => ?_, fun q hq j => Or.inl ?_⟩
  · rw [duplicate_held_page hdup]
    exact h.dead c _ hfree
  · rw [(duplicate_spec hdup).info]
    split_ifs with hj
    · rfl
    · have hqc : q ≠ c := by
        rintro rfl
        exact hj ⟨j, mem_tables j, rfl⟩
      rw [duplicate_frames_of_ne hdup hqc]
      have hql : w.Live q := ((duplicate_live hdup q).mp hq).resolve_right hqc
      exact congrArg PageInfo.refcount (hchk.tables q hql j)

end Forking

/-- Process `p` has let go of some of what it held in `w`; nothing else is different but the counts
of pages that it held. -/
structure Shrunk (p : ℕ) (w w' : World) : Prop where
  state : w'.state = w.state
  current : w'.current = w.current
  other : ∀ q s, q ≠ p → w'.held (q, s) = w.held (q, s)
  own : ∀ s r, w'.held (p, s) = some r → w.held (p, s) = some r
  info : ∀ pn, (∀ s r, w.held (p, s) = some r → 0 < r.frame → r.frame ≠ pn) →
    w'.info pn = w.info pn

namespace Shrunk

variable {p : ℕ} {w₁ : World}

theorem refl (p : ℕ) (w : World) : Shrunk p w w :=
  ⟨rfl, rfl, fun _ _ _ => rfl, fun _ _ h => h, fun _ _ => rfl⟩

/-- Emptying a place of `p`, and changing the count of what was there. -/
theorem clear (h : Shrunk p w w₁) {s : Slot} {r : Ref} (hr : w₁.held (p, s) = some r)
    {info : PageInfos} (hi : ∀ pn, (0 < r.frame → r.frame ≠ pn) → info pn = w₁.info pn) :
    Shrunk p w { w₁.hold p s none with info := info } := by
  refine ⟨h.state, h.current, fun q t hq => ?_, fun t r' hr' => ?_, fun pn hpn => ?_⟩
  · rw [← h.other q t hq]
    exact Function.update_of_ne (by simp [hq]) _ _
  · by_cases ht : t = s
    · subst t
      simp at hr'
    · exact h.own t r' (by simpa [ht] using hr')
  · rw [← h.info pn hpn]
    exact hi pn (hpn s r (h.own s r hr))

theorem releaseTables (hw : Wf L w) (hp : w.Live p) {js : List (Fin 5)} (hnd : js.Nodup)
    (h : Shrunk p w w₁) (hjs : ∀ j ∈ js, w₁.held (p, .table j) = w.held (p, .table j)) :
    Shrunk p w (js.foldl (releaseTable p) w₁) := by
  induction js generalizing w₁ with
  | nil => exact h
  | cons j js ih =>
      obtain ⟨hj, hnd'⟩ := List.nodup_cons.mp hnd
      have hheld := (hjs j (by simp)).trans (hw.tables p hp j)
      have hframe : w₁.frames p j = w.frames p j := by rw [frames, hheld]
      have hpos := (hw.frames_usable hp j).pos
      refine ih hnd' (h.clear hheld fun pn hpn => ?_) fun j' hj' => ?_
      · rw [hframe, hold_info, Function.update_of_ne (hpn hpos).symm]
      · rw [← hjs j' (by simp [hj'])]
        have hne : j' ≠ j := by
          rintro rfl
          exact hj hj'
        simp [releaseTable, hne]

theorem releaseRef_info {tables : List ℕ} {r : Ref} (info : PageInfos) {pn : ℕ}
    (hpn : 0 < r.frame → r.frame ≠ pn) : releaseRef p tables r info pn = info pn := by
  unfold releaseRef
  split_ifs with hw hc hc
  · rw [Function.update_of_ne (hpn hc.1).symm]
  · rfl
  · rw [Function.update_of_ne (hpn hc.1).symm]
  · rfl

theorem releaseSlot (h : Shrunk p w w₁) (tables : List ℕ) (i : ℕ) :
    Shrunk p w (releaseSlot p tables i w₁) := by
  unfold World.releaseSlot
  split
  · exact h
  · rename_i r hr
    exact h.clear hr fun pn hpn => releaseRef_info _ hpn

theorem releaseSlots (h : Shrunk p w w₁) (tables : List ℕ) (n i : ℕ) :
    Shrunk p w (releaseSlots p tables n i w₁) := by
  induction n generalizing i w₁ with
  | zero => exact h
  | succ n ih => exact ih (h.releaseSlot tables i) (i + 1)

end Shrunk

/-- Everything that `exit` does before the process is gone. -/
theorem exit_eq (hw : Wf L w) (hp : w.Live w.current) :
    ∃ w₂, Shrunk w.current w w₂ ∧ w.exit = w₂.drop w.current :=
  ⟨_, (Shrunk.releaseTables hw hp (List.nodup_finRange 5) (Shrunk.refl _ w)
    fun _ _ => rfl).releaseSlots _ _ _, rfl⟩

section exit
variable (hw : Wf L w) (hp : w.Live w.current)
include hw hp

theorem exit_state : w.exit.state = Function.update w.state w.current .free := by
  obtain ⟨w₂, hs, heq⟩ := exit_eq hw hp
  rw [heq, drop]
  simp only [setState_state, hs.state]

theorem exit_current : w.exit.current = w.current := by
  obtain ⟨w₂, hs, heq⟩ := exit_eq hw hp
  rw [heq, drop]
  simp only [setState_current, hs.current]

theorem exit_held (x : ℕ × Slot) :
    w.exit.held x = if x.1 = w.current then none else w.held x := by
  obtain ⟨w₂, hs, heq⟩ := exit_eq hw hp
  rw [heq, drop]
  split_ifs with hx
  · simp [hx]
  · simp only [hx, if_false]
    exact hs.other x.1 x.2 hx

/-- Exit leaves the counts of pages alone that the process does not hold. -/
theorem exit_info_of_unheld {pn : ℕ} (hpn : ∀ s r, w.held (w.current, s) = some r → r.frame ≠ pn) :
    w.exit.info pn = w.info pn := by
  obtain ⟨w₂, hs, heq⟩ := exit_eq hw hp
  rw [heq]
  exact hs.info pn fun s r hr _ => hpn s r hr

theorem exit_info {pn : ℕ} (hu : ¬ usable L pn) : w.exit.info pn = w.info pn := by
  obtain ⟨w₂, hs, heq⟩ := exit_eq hw hp
  rw [heq]
  refine hs.info pn fun s r hr hpos => ?_
  rintro rfl
  rcases s with j | i
  · exact hu (hw.table_usable _ j r hr)
  · exact hu ((hw.page_frame _ i r hr).resolve_right fun h0 => by omega)

theorem Wf.exit : Wf L w.exit := by
  have hheld {q : ℕ} {s : Slot} {r : Ref} (h : w.exit.held (q, s) = some r) :
      q ≠ w.current ∧ w.held (q, s) = some r := by
    rw [exit_held hw hp] at h
    split_ifs at h with hq
    exact ⟨hq, h⟩
  have hstate {q : ℕ} (hq : q ≠ w.current) : w.exit.state q = w.state q := by
    rw [exit_state hw hp, Function.update_of_ne hq]
  have hcur : w.exit.state w.current = .free := by rw [exit_state hw hp, Function.update_self]
  constructor
  · by_cases h0 : 0 = w.current
    · rw [h0, hcur]
    · rw [hstate h0, hw.zero]
  · intro q hq
    by_cases h0 : q = w.current
    · rw [h0, hcur]
    · rw [hstate h0, hw.above q hq]
  · rw [exit_current hw hp]
    exact hw.current
  · intro q s hq
    rw [exit_held hw hp]
    split_ifs with hc
    · rfl
    · rw [hstate hc] at hq
      exact hw.dead q s hq
  · intro q hq j
    have hne : q ≠ w.current := by
      rintro rfl
      exact hq hcur
    have hsame : w.exit.held (q, .table j) = w.held (q, .table j) := by
      rw [exit_held hw hp, if_neg hne]
    rw [frames, hsame]
    exact hw.tables q (by rwa [Live, hstate hne] at hq) j
  · exact fun q j r h => hw.table_usable q j r (hheld h).2
  · exact fun q j q' j' r r' h h' => hw.table_inj q j q' j' r r' (hheld h).2 (hheld h').2
  · exact fun q i r h => hw.page_range q i r (hheld h).2
  · exact fun q i r h => hw.page_frame q i r (hheld h).2
  · exact fun q i q' i' pn h h' => hw.home q i q' i' pn (hheld h).2 (hheld h').2
  · exact fun pn hu => (exit_info hw hp hu).trans (hw.kernel pn hu)

end exit

theorem live_broken (hp : w.Live w.current) (q : ℕ) :
    (w.setState w.current .broken).Live q ↔ w.Live q := by
  unfold Live at hp ⊢
  rw [setState_state]
  by_cases hq : q = w.current
  · simp [hq, hp]
  · simp [hq]

/-- A page fault ends the process but leaves it everything it holds. -/
theorem Wf.broken (hw : Wf L w) (hp : w.Live w.current) : Wf L (w.setState w.current .broken) := by
  have hfree (q : ℕ) : (w.setState w.current .broken).state q = .free ↔ w.state q = .free :=
    not_iff_not.mp (live_broken hp q)
  exact ⟨(hfree 0).mpr hw.zero, fun q hq => (hfree q).mpr (hw.above q hq), hw.current,
    fun q s hq => hw.dead q s ((hfree q).mp hq), fun q hq => hw.tables q ((live_broken hp q).mp hq),
    hw.table_usable, hw.table_inj, hw.page_range, hw.page_frame, hw.home, hw.kernel⟩

/-- The address of a `page_alloc` that gets as far as mapping a page is page-aligned, and what the
page walk sees of it lies at or above `PROC_START_ADDR`. -/
structure AllocOk (w : World) (addr : ℕ) : Prop where
  aligned : procStartAddr ≤ addr → (lowestFree w.info).isSome → addr % 4096 = 0
  high : procStartAddr ≤ addr → (lowestFree w.info).isSome → inTree addr →
    256 ≤ addr / 4096 % 1024

theorem pageAlloc_state (w : World) (p addr : ℕ) :
    (w.pageAlloc p addr).state = w.state ∧ (w.pageAlloc p addr).current = w.current := by
  unfold World.pageAlloc
  split
  · exact ⟨rfl, rfl⟩
  · split_ifs <;> exact ⟨rfl, rfl⟩

theorem Wf.pageAlloc (hw : Wf L w) {p addr : ℕ} (hp : w.Live p) (haddr : AllocOk w addr) :
    Wf L (w.pageAlloc p addr) := by
  unfold World.pageAlloc
  cases hpn : lowestFree w.info with
  | none => exact hw
  | some pn =>
      dsimp only
      split_ifs with hc
      · exact hw.give_page hp (haddr.high hc.1 (by simp [hpn]) hc.2) (Nat.mod_lt _ (by norm_num))
          (hw.lowestFree_usable hpn)
      · exact hw.setInfo (hw.lowestFree_usable hpn) _

/-- Allocations touch only free pages, so never a reserved one. -/
theorem drain_info (hw : Wf L w) (c : ℤ) {pn : ℕ} (hu : ¬ usable L pn) :
    drain w.info c pn = w.info pn := by
  have hstep (info : PageInfos) (hi : ∀ pn, ¬ usable L pn → info pn = w.info pn) :
      ∀ pn, ¬ usable L pn → (allocPageProcess info c).1 pn = w.info pn := by
    intro x hx
    rw [allocPageProcess_eq]
    cases hl : lowestFree info with
    | none => exact hi x hx
    | some f =>
        obtain ⟨-, h2, h3⟩ := lowestFree_eq_some hl
        dsimp only
        rw [Function.update_of_ne, hi x hx]
        rintro rfl
        rw [hi x hx] at h3
        exact hx (hw.usable_of_free h2 h3)
  exact hstep _ (hstep _ (hstep _ (hstep _ (hstep _ fun _ _ => rfl)))) pn hu

theorem Wf.fork (hw : Wf L w) (hchk : Checked L w) (hp : w.Live w.current) : Wf L w.fork.1 := by
  unfold World.fork
  split
  · exact hw
  · rename_i c hc
    obtain ⟨h1, h2, h3, -⟩ := findFreeSlot_some hc
    split
    · rename_i w' hdup
      have hfork := Forking.of_duplicate hw hchk hp h3 h1 (by simp only [nProc] at h2; omega) hdup
      have hn : 256 + userPages ≤ 1024 := by norm_num
      rw [show procStartAddr / pageSize = 256 from rfl]
      generalize userPages = n at hn ⊢
      exact (hfork.forkSlots le_rfl hn).wf
    · exact hw.of_info rfl rfl hw.current fun pn hu => drain_info hw c hu

end WeensyOS.World
