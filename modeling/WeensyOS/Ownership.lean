import WeensyOS.Discipline

/-!
# Owners of shared pages, and the kernel's own consistency check

A page has one owner field but may be shared by several processes after forks.
`check_virtual_memory` asks that the owner of every page in use is alive, so it passes as long as no
process exits that owns a page which others still share; an exit of that kind is caught by the next
trap.
-/

namespace WeensyOS
open ByteMemory World

namespace World

variable {T : ℕ → Tally} {L : KernelLayout} {w w' : World} {p c i pn : ℕ} {s : Slot}

/-- Pages in use keep their owner, and no page comes into use. -/
def OwnersKept (info info' : PageInfos) : Prop :=
  ∀ pn, (info' pn).refcount ≠ 0 → (info pn).refcount ≠ 0 ∧ (info' pn).owner = (info pn).owner

theorem OwnersKept.refl (info : PageInfos) : OwnersKept info info := fun _ h => ⟨h, rfl⟩

theorem OwnersKept.trans {info info' info'' : PageInfos} (h : OwnersKept info info')
    (h' : OwnersKept info' info'') : OwnersKept info info'' := fun pn hpn =>
  ⟨(h pn (h' pn hpn).1).1, (h' pn hpn).2.trans (h pn (h' pn hpn).1).2⟩

theorem OwnersKept.clear (info : PageInfos) (pn : ℕ) :
    OwnersKept info (Function.update info pn ⟨0, 0⟩) := by
  intro x hx
  by_cases hxp : x = pn
  · rw [hxp, Function.update_self] at hx
    exact absurd rfl hx
  · rw [Function.update_of_ne hxp] at hx ⊢
    exact ⟨hx, rfl⟩

theorem ownersKept_releaseRef (p : ℕ) (tables : List ℕ) (r : Ref) (info : PageInfos) :
    OwnersKept info (releaseRef p tables r info) := by
  unfold releaseRef
  split_ifs with hw hc hc
  · exact .clear _ _
  · exact .refl _
  · intro x hx
    by_cases hxp : x = r.frame
    · subst x
      rw [Function.update_self]
      exact ⟨hc.2, rfl⟩
    · rw [Function.update_of_ne hxp] at hx ⊢
      exact ⟨hx, rfl⟩
  · exact .refl _

theorem ownersKept_releaseSlots (p : ℕ) (tables : List ℕ) (n i : ℕ) (w : World) :
    OwnersKept w.info (releaseSlots p tables n i w).info := by
  induction n generalizing i w with
  | zero => exact .refl _
  | succ n ih =>
      refine OwnersKept.trans ?_ (ih (i + 1) _)
      unfold releaseSlot
      split
      · exact .refl _
      · exact ownersKept_releaseRef _ _ _ _

theorem ownersKept_exit (w : World) : OwnersKept w.info w.exit.info := by
  have htables (js : List (Fin 5)) (w₁ : World) :
      OwnersKept w₁.info (js.foldl (releaseTable w.current) w₁).info := by
    induction js generalizing w₁ with
    | nil => exact .refl _
    | cons j js ih =>
        exact OwnersKept.trans (OwnersKept.clear _ _) (ih (releaseTable w.current w₁ j))
  simp only [World.exit, drop, setState_info, procStartAddr, pageSize, Nat.reduceDiv]
  generalize userPages = n
  exact (htables _ w).trans (ownersKept_releaseSlots _ _ _ _ _)

theorem trap_exit (w : World) (addr : ℕ) : w.trap .exit addr = w.exit.leave .break := rfl

/-- The owner of page `pn` is a process that holds it. -/
def OwnedPage (w : World) (pn : ℕ) : Prop :=
  ∃ p s r, (w.info pn).owner = (p : ℕ) ∧ w.held (p, s) = some r ∧ r.frame = pn

/-- Whatever is held, its owner holds. -/
def Owned (w : World) : Prop := ∀ x r, w.held x = some r → w.OwnedPage r.frame

theorem OwnedPage.mono (h : w.OwnedPage pn) (hheld : ∀ x r, w.held x = some r → w'.held x = some r)
    (ho : (w'.info pn).owner = (w.info pn).owner) : w'.OwnedPage pn := by
  obtain ⟨p, s, r, hp, hr, hf⟩ := h
  exact ⟨p, s, r, ho.trans hp, hheld _ _ hr, hf⟩

/-- Holdings are only added, of pages that are new to the ledger or keep their owner. Page 0 stands
for the copies that a fork could not make. -/
structure Grown (w w' : World) : Prop where
  held : ∀ x r, w.held x = some r → w'.held x = some r
  owner : ∀ x r, w'.held x = some r → r.frame = 0 ∨ w'.OwnedPage r.frame ∨
    ∃ y r₀, w.held y = some r₀ ∧ r₀.frame = r.frame ∧
      (w'.info r.frame).owner = (w.info r.frame).owner

namespace Grown

theorem refl (w : World) : Grown w w :=
  ⟨fun _ _ h => h, fun x r h => Or.inr (Or.inr ⟨x, r, h, rfl, rfl⟩)⟩

theorem trans {w₁ w₂ : World} (h : Grown w w₁) (h' : Grown w₁ w₂) : Grown w w₂ := by
  refine ⟨fun x r hx => h'.held x r (h.held x r hx), fun x r hx => ?_⟩
  rcases h'.owner x r hx with h0 | hown | ⟨y, r₁, hy, hf, ho⟩
  · exact Or.inl h0
  · exact Or.inr (Or.inl hown)
  · rcases h.owner y r₁ hy with h0 | hown | ⟨z, r₀, hz, hf₀, ho₀⟩
    · exact Or.inl (hf ▸ h0)
    · rw [hf] at hown
      exact Or.inr (Or.inl (hown.mono h'.held ho))
    · rw [hf] at hf₀ ho₀
      exact Or.inr (Or.inr ⟨z, r₀, hz, hf₀, ho.trans ho₀⟩)

theorem of_same (hh : w'.held = w.held) (hi : w'.info = w.info) : Grown w w' := by
  refine ⟨fun x r hx => by rwa [hh],
    fun x r hx => Or.inr (Or.inr ⟨x, r, by rwa [hh] at hx, rfl, ?_⟩)⟩
  rw [hi]

theorem give (hempty : w.held (p, s) = none) : Grown w (w.give p s pn) := by
  refine ⟨fun x r hx => ?_, fun x r hx => ?_⟩
  · rw [give_held, Function.update_of_ne, hx]
    rintro rfl
    rw [hempty] at hx
    cases hx
  · right
    by_cases hf : r.frame = pn
    · left
      rw [hf]
      exact ⟨p, s, ⟨pn, true⟩, by simp, by simp, rfl⟩
    · right
      have hxp : x ≠ (p, s) := by
        rintro rfl
        rw [give_held, Function.update_self] at hx
        obtain rfl := Option.some.inj hx
        exact hf rfl
      rw [give_held, Function.update_of_ne hxp] at hx
      exact ⟨x, r, hx, rfl, by rw [give_info, Function.update_of_ne hf]⟩

theorem forkSlot (hempty : w.held (c, .page i) = none) : Grown w (forkSlot p c i w) := by
  have hmono (x : ℕ × Slot) (r : Ref) (hx : w.held x = some r) :
      (World.forkSlot p c i w).held x = some r := by
    rw [forkSlot_held_of_ne, hx]
    rintro rfl
    rw [hempty] at hx
    cases hx
  have hsame {x : ℕ × Slot} {r : Ref} (hx : (World.forkSlot p c i w).held x = some r)
      (hxc : x ≠ (c, .page i)) : w.held x = some r := by rwa [forkSlot_held_of_ne hxc] at hx
  refine ⟨hmono, fun x r hx => ?_⟩
  revert hx hsame
  unfold World.forkSlot
  rcases hr : w.held (p, .page i) with _ | ⟨f, _ | _⟩
  · exact fun _ hx => Or.inr (Or.inr ⟨x, r, hx, rfl, rfl⟩)
  · intro hsame hx
    right; right
    have howner : (incRefcount w.info f r.frame).owner = (w.info r.frame).owner := by
      unfold incRefcount
      split_ifs
      · by_cases hf : r.frame = (f : ℤ).toNat
        · rw [hf, Function.update_self]
        · rw [Function.update_of_ne hf]
      · rfl
    by_cases hxc : x = (c, .page i)
    · subst x
      obtain rfl : r = ⟨f, false⟩ := by simpa using hx.symm
      exact ⟨_, _, hr, rfl, howner⟩
    · exact ⟨x, r, hsame hx hxc, rfl, howner⟩
  · dsimp only
    cases lowestFree w.info with
    | some pn => exact fun _ hx => (give hempty).owner x r hx
    | none =>
        intro hsame hx
        by_cases hxc : x = (c, .page i)
        · subst x
          obtain rfl : r = ⟨0, true⟩ := by simpa using hx.symm
          exact Or.inl rfl
        · exact Or.inr (Or.inr ⟨x, r, hsame hx hxc, rfl, rfl⟩)

theorem forkSlots {n : ℕ} (hempty : ∀ x, i ≤ x → w.held (c, .page x) = none) :
    Grown w (forkSlots p c n i w) := by
  induction n generalizing i w with
  | zero => exact refl w
  | succ n ih =>
      refine (forkSlot (hempty i le_rfl)).trans (ih (i := i + 1) fun x hx => ?_)
      rw [forkSlot_held_of_ne (by simp; omega)]
      exact hempty x (by omega)

theorem takeTables {js : List (Fin 5)} (hnd : js.Nodup)
    (hempty : ∀ j ∈ js, w.held (c, .table j) = none) (htake : js.foldlM (takeTable c) w = some w') :
    Grown w w' := by
  induction js generalizing w with
  | nil =>
      obtain rfl := Option.some.inj htake
      exact refl w
  | cons j js ih =>
      obtain ⟨hj, hnd'⟩ := List.nodup_cons.mp hnd
      rw [List.foldlM_cons, Option.bind_eq_bind, Option.bind_eq_some_iff] at htake
      obtain ⟨w₁, h₁, htake⟩ := htake
      obtain ⟨pn, hpn, rfl⟩ := Option.map_eq_some_iff.mp h₁
      refine (give (hempty j (by simp))).trans (ih hnd' (fun j' hj' => ?_) htake)
      have hne : j' ≠ j := by
        rintro rfl
        exact hj hj'
      rw [give_held, Function.update_of_ne (by simp [hne])]
      exact hempty j' (by simp [hj'])

theorem duplicate (hempty : ∀ s, w.held (c, s) = none)
    (hdup : World.duplicate c (w.setState c .runnable) = some w') : Grown w w' := by
  have hset : Grown w (w.setState c .runnable) := of_same rfl rfl
  exact hset.trans (takeTables (by decide) (fun j _ => hempty (.table j)) hdup)

theorem fork (hw : Wf L w) (hroom : (findFreeSlot w.state (nProc - 1) 1).isSome →
    5 ≤ (freePages w.info).card) : Grown w w.fork.1 := by
  cases hslot : findFreeSlot w.state (nProc - 1) 1 with
  | none =>
      rw [World.fork, hslot]
      exact refl w
  | some c =>
      obtain ⟨-, -, hfree, -⟩ := findFreeSlot_some hslot
      obtain ⟨w', hdup, -⟩ := duplicate_some (w := w.setState c .runnable) c
        (hroom (by rw [hslot]; rfl))
      simp only [World.fork, hslot, hdup]
      generalize userPages = n
      refine (duplicate (hw.dead c · hfree) hdup).trans (forkSlots fun x _ => ?_)
      rw [duplicate_held_page hdup]
      exact hw.dead c _ hfree

end Grown

namespace Owned

theorem grown (h : w.Owned) (hg : Grown w w') (ht : Tallied T L w') : w'.Owned := by
  intro x r hx
  rcases hg.owner x r hx with h0 | hown | ⟨y, r₀, hy, hf, ho⟩
  · exact absurd h0 (ht.place x r hx).2.pos.ne'
  · exact hown
  · have := h y r₀ hy
    rw [hf] at this
    exact this.mono hg.held ho

/-- An exit keeps owners in place unless it leaves behind a page that the process owned. -/
theorem exit (h : w.Owned) (ht : w.Exact L) (hw : w.Wf L) (hrun : w.Live w.current)
    (halone : ∀ pn, usable L pn → (w.info pn).owner = (w.current : ℕ) →
      (w.info pn).refcount ≤ 1) : w.exit.Owned := by
  have ht' := ht.exit hw hrun
  intro x r hx
  have hcounted := ht'.counted hx
  have howner := (ownersKept_exit w r.frame hcounted).2
  rw [exit_held hw hrun] at hx
  split_ifs at hx with hxc
  obtain ⟨p, s, r', ho, hr', hf⟩ := h x r hx
  refine ⟨p, s, r', howner.trans ho, ?_, hf⟩
  rw [exit_held hw hrun, if_neg, hr']
  -- The page would be held by the owner, who leaves, and by the process of `x`, who stays.
  rintro hpc
  change p = w.current at hpc
  subst p
  have hu := (ht.place x r hx).2
  have hone := halone r.frame hu ho
  rw [ht.refcount hu] at hone
  have heq := RefLedger.unique_of_count_le_one (show w.refs r.frame ≤ 1 by omega)
    (ht.place x r hx).1 (frameAt_eq_some.mpr ⟨r, hx, rfl⟩) (ht.place _ _ hr').1
    (frameAt_eq_some.mpr ⟨r', hr', hf⟩)
  exact hxc (congrArg Prod.fst heq)

/-- The kernel's check passes when pages in use are held and owners hold what they own. -/
theorem checked (h : w.Owned) (ht : Tallied T L w) (hw : w.Wf L)
    (hheld : ∀ pn, usable L pn → 0 < (w.info pn).refcount →
      ∃ x r, w.held x = some r ∧ r.frame = pn) :
    w.Checked L := by
  refine ⟨fun p hp j => ht.exclusive _ _ _ (hw.tables p hp j), fun pn hlt hr ho => ?_⟩
  have hu : usable L pn := by
    by_contra hu
    have := pageinfoInit_owner hlt hu
    rw [← hw.kernel pn hu] at this
    omega
  obtain ⟨x, r, hx, rfl⟩ := hheld pn hu hr
  obtain ⟨p, s, r', ho', hr', -⟩ := h x r hx
  rw [ho', Int.toNat_natCast]
  intro hd
  rw [hw.dead p s hd] at hr'
  cases hr'

end Owned

/-- A process that survives a trap keeps what it holds. -/
theorem dispatch_held {t : Trap} {addr : ℕ} {r : Ref} (hw : w.Wf L) (hrun : w.Live w.current)
    (hreg : w.Regular (fun _ => Tally.exact) t addr) (hr : w.held (p, s) = some r)
    (hlive : (w.dispatch t addr).1.Live p) : (w.dispatch t addr).1.held (p, s) = some r := by
  revert hlive
  unfold World.dispatch
  split
  · exact fun _ => hr
  · exact fun _ => hr
  · obtain ⟨-, hlo, hhi⟩ := hreg.range rfl
    intro _
    cases hpn : lowestFree w.info with
    | none =>
        rw [World.pageAlloc, hpn]
        exact hr
    | some pn =>
        rw [pageAlloc_give hlo hhi hpn]
        exact (Grown.give (hreg.empty rfl (by rw [hpn]; rfl))).held _ _ hr
  · intro _
    exact (Grown.fork hw fun hs => by have := hreg.room rfl hs; omega).held _ _ hr
  · intro hlive
    dsimp only at hlive ⊢
    rw [exit_held hw hrun, if_neg, hr]
    rintro rfl
    rw [Live, exit_state hw hrun, Function.update_self] at hlive
    exact hlive rfl
  · exact fun _ => hr
  · exact fun _ => hr

theorem Tallied.held_of_pos (h : w.Exact L) (hu : usable L pn) (hr : 0 < (w.info pn).refcount) :
    ∃ x r, w.held x = some r ∧ r.frame = pn := by
  rw [h.refcount hu] at hr
  obtain ⟨x, -, hx⟩ := RefLedger.exists_of_count_pos (show 0 < w.refs pn by omega)
  exact ⟨x, frameAt_eq_some.mp hx⟩

theorem Owned.of_booting (hb : Booting L w) : w.Owned := by
  intro x r hx
  exact ⟨x.1, x.2, r, by rw [hb.counted _ _ _ hx], hx, rfl⟩

/-- A trap of a disciplined run in which no process leaves shared pages behind. -/
theorem Owned.trap {t : Trap} {addr : ℕ} (h : w.Owned) (ht : w.Exact L) (hw : w.Wf L)
    (hrun : w.Live w.current) (hreg : w.Regular (fun _ => Tally.exact) t addr)
    (halone : t = .exit → ∀ pn, usable L pn → (w.info pn).owner = (w.current : ℕ) →
      (w.info pn).refcount ≤ 1) : (w.trap t addr).1.Owned := by
  have hd := ht.dispatch hw hrun hreg
  have hmid : (w.dispatch t addr).1.Owned := by
    revert hd
    unfold World.dispatch
    split
    · exact fun _ => h
    · exact fun _ => h
    · obtain ⟨-, hlo, hhi⟩ := hreg.range rfl
      intro hd
      cases hpn : lowestFree w.info with
      | none =>
          rw [World.pageAlloc, hpn]
          exact h
      | some pn =>
          rw [pageAlloc_give hlo hhi hpn] at hd ⊢
          exact h.grown (Grown.give (hreg.empty rfl (by rw [hpn]; rfl))) hd
    · exact fun hd => h.grown (Grown.fork hw fun hs => by have := hreg.room rfl hs; omega) hd
    · exact fun _ => h.exit ht hw hrun (halone rfl)
    · exact fun hd => h.grown (Grown.of_same rfl rfl) hd
    · exact fun _ => h
  exact hmid.grown (Grown.of_same (leave_same _ _).held (leave_same _ _).info) (hd.leave _)

/-! What the child of a fork holds. -/

theorem forkSlot_child (hempty : w.held (c, .page i) = none) :
    (w.held (p, .page i) = none → (forkSlot p c i w).held (c, .page i) = none) ∧
    (∀ f, w.held (p, .page i) = some ⟨f, false⟩ →
      (forkSlot p c i w).held (c, .page i) = some ⟨f, false⟩) ∧
    ∀ f, w.held (p, .page i) = some ⟨f, true⟩ →
      ∃ f', (forkSlot p c i w).held (c, .page i) = some ⟨f', true⟩ := by
  unfold forkSlot
  refine ⟨fun h => ?_, fun f h => ?_, fun f h => ?_⟩
  · rw [h]
    exact hempty
  · rw [h]
    simp
  · rw [h]
    dsimp only
    split
    · rename_i pn _
      exact ⟨pn, by simp⟩
    · exact ⟨0, by simp⟩

theorem forkSlots_child {n x : ℕ} (hne : p ≠ c) (hempty : ∀ y, i ≤ y → w.held (c, .page y) = none)
    (hx : i ≤ x) (hx' : x < i + n) :
    (w.held (p, .page x) = none → (forkSlots p c n i w).held (c, .page x) = none) ∧
    (∀ f, w.held (p, .page x) = some ⟨f, false⟩ →
      (forkSlots p c n i w).held (c, .page x) = some ⟨f, false⟩) ∧
    ∀ f, w.held (p, .page x) = some ⟨f, true⟩ →
      ∃ f', (forkSlots p c n i w).held (c, .page x) = some ⟨f', true⟩ := by
  induction n generalizing i w with
  | zero => omega
  | succ n ih =>
      by_cases hxi : x = i
      · subst x
        have hlater : (forkSlots p c (n + 1) i w).held (c, .page i) =
            (forkSlot p c i w).held (c, .page i) := by
          rw [forkSlots, forkSlots_held_of_ne fun y hy _ heq => ?_]
          have := Slot.page.inj (Prod.mk.inj heq).2
          omega
        rw [hlater]
        exact forkSlot_child (hempty i le_rfl)
      · have hparent : (forkSlot p c i w).held (p, .page x) = w.held (p, .page x) :=
          forkSlot_held_of_ne (by simp [hne])
        rw [← hparent]
        refine ih (i := i + 1) (fun y hy => ?_) (by omega) (by omega)
        rw [forkSlot_held_of_ne (by simp; omega)]
        exact hempty y (by omega)

/-- A fork of the current process into slot `c`. -/
structure Forked (w : World) (c : ℕ) (w' : World) : Prop where
  state : w'.state = Function.update w.state c .runnable
  current : w'.current = w.current
  other : ∀ q s, q ≠ c → w'.held (q, s) = w.held (q, s)
  unmapped : ∀ i, 256 ≤ i → i < 768 → w.held (w.current, .page i) = none →
    w'.held (c, .page i) = none
  shared : ∀ i f, 256 ≤ i → i < 768 → w.held (w.current, .page i) = some ⟨f, false⟩ →
    w'.held (c, .page i) = some ⟨f, false⟩
  copied : ∀ i f, 256 ≤ i → i < 768 → w.held (w.current, .page i) = some ⟨f, true⟩ →
    ∃ f', w'.held (c, .page i) = some ⟨f', true⟩

theorem fork_forked (hw : Wf L w) (hrun : w.Live w.current)
    (hslot : findFreeSlot w.state (nProc - 1) 1 = some c) (hroom : 5 ≤ (freePages w.info).card) :
    Forked w c w.fork.1 ∧ w.fork.2 = .break := by
  obtain ⟨-, -, hfree, -⟩ := findFreeSlot_some hslot
  have hne : w.current ≠ c := by
    rintro rfl
    exact hrun hfree
  obtain ⟨w', hdup, -⟩ := duplicate_some (w := w.setState c .runnable) c hroom
  have hspec := duplicate_spec hdup
  have hpage (x : ℕ) : w'.held (w.current, .page x) = w.held (w.current, .page x) :=
    duplicate_held_page hdup w.current x
  have hempty (x : ℕ) (_ : 256 ≤ x) : w'.held (c, .page x) = none :=
    (duplicate_held_page hdup c x).trans (hw.dead c _ hfree)
  have hn : userPages = 512 := by norm_num
  rw [Tallied.fork_eq hslot hdup]
  generalize userPages = n at hn ⊢
  obtain ⟨hst, hcur⟩ := forkSlots_state w.current c n 256 w'
  have hchild {i : ℕ} (hi : 256 ≤ i) (hi' : i < 768) :=
    forkSlots_child (n := n) (x := i) hne hempty hi (by omega)
  simp only [hpage] at hchild
  refine ⟨⟨hst.trans hspec.state, hcur.trans hspec.current, fun q s hq => ?_,
    fun i hi hi' => (hchild hi hi').1, fun i f hi hi' => (hchild hi hi').2.1 f,
    fun i f hi hi' => (hchild hi hi').2.2 f⟩, rfl⟩
  rw [forkSlots_held_of_ne fun x _ _ heq => hq (Prod.mk.inj heq).1, duplicate_held_of_ne hdup hq]

end World

/-- No process exits that owns a page which others share. -/
def NoOrphan (M : Machine) : Event → Prop
  | .store _ _ => True
  | .trap _ t => t = .exit → ∀ pn < nPages, (M.kernel.pageinfo pn).owner = M.kernel.current →
      (M.kernel.pageinfo pn).refcount ≤ 1

section check
variable {L : KernelLayout} {images : ℕ → ElfImage} {command : Option String} {M : Machine}
  {w : World}

/-- `exception` checks virtual memory after it has saved the registers. -/
theorem Represents.check_iff (h : Represents L M w) (reg : Registers) :
    checkVirtualMemory L (M.kernel.updateProc M.kernel.current
      (fun q => { q with registers := reg })) ↔ w.Checked L := by
  have hsim : Sim L (M.kernel.updateProc M.kernel.current
      (fun q => { q with registers := reg })) w := h.sim.updateProc _ fun _ => ⟨rfl, rfl, rfl⟩
  exact hsim.check_iff h.wf

/-- The check of `exception` passes at every trap, as long as no process leaves behind a page that
it owns and others share. -/
theorem reach_check (hfit : ImagesFit L images command) (hdisj : ImagesDisjoint images command)
    (h : Machine.Reach L images command
      (fun M e => e.isOrdinaryTrap = true ∧ Disciplined M e ∧ NoOrphan M e) M) (reg : Registers) :
    checkVirtualMemory L (M.kernel.updateProc M.kernel.current
      (fun q => { q with registers := reg })) := by
  have htracks : Tracks L (fun w => w.Exact L ∧ w.Owned) M := by
    refine reach_represents hfit (fun w hboot hb => ?_) (fun M w e hw hinv he => ?_)
      (fun M w cpu t hw hres _ hinv he => ?_) h
    · exact ⟨Tallied.of_booting _ hb (boot_complete hfit hdisj hboot), Owned.of_booting hb⟩
    · exact he.2.1.admits hw hinv.1
    · obtain ⟨hex, hown⟩ := hinv
      obtain ⟨-, hdisc, horphan⟩ := he
      have hrun := hw.live hres
      have hreg := hdisc.regular hw hrun hex
      refine ⟨hex.trap hw.wf hrun hreg, hown.trap hex hw.wf hrun hreg fun ht pn hu ho => ?_⟩
      rw [← hw.sim.info] at ho ⊢
      rw [← hw.sim.current] at ho
      exact horphan ht pn hu.lt ho
  obtain ⟨w, hw, hex, hown⟩ := htracks
  exact (hw.check_iff reg).mpr (hown.checked hex hw.wf fun pn hu => hex.held_of_pos hu)

theorem reach_check_sample : ∃ M, Machine.Reach sampleLayout (sampleImages 3) none
    (fun M e => e.isOrdinaryTrap = true ∧ Disciplined M e ∧ NoOrphan M e) M ∧
    checkVirtualMemory sampleLayout (M.kernel.updateProc M.kernel.current
      (fun q => { q with registers := processInit 0 })) := by
  obtain ⟨M, hM⟩ := sample_boots sampleLayout 3 none (by decide)
  exact ⟨M, .start hM, reach_check (sample_fits _ _ _ (by decide)) (sample_disjoint _ _)
    (.start hM) _⟩

/-- The first process of a sample forks; the fork succeeds and it runs on. -/
theorem sample_fork {n : ℕ} (hw : SampleWorld L n w) (hn : 13 + n ≤ 256) :
    findFreeSlot w.state (nProc - 1) 1 = some 2 ∧ 5 ≤ (freePages w.info).card ∧
      w.trap .fork 0 = (w.fork.1, .run) := by
  have hslot : findFreeSlot w.state (nProc - 1) 1 = some 2 := by
    simp [findFreeSlot, hw.state]
  have hinit := (card_freePages_init L).1
  have hroom := hw.room
  have hrun : w.Live w.current := by
    rw [Live, hw.state, hw.current]
    decide
  obtain ⟨hf, hnext⟩ := fork_forked hw.booting.wf hrun hslot (by omega)
  refine ⟨hslot, by omega, ?_⟩
  change w.fork.1.leave w.fork.2 = _
  rw [hnext, World.leave, if_pos]
  rw [hf.state, hf.current, hw.current, Function.update_of_ne (by norm_num), hw.state, if_pos rfl]

theorem sample_fork_room {n : ℕ} (hw : SampleWorld L n w) (hn : 13 + 2 * n < 256) :
    5 + writableFrom w w.current userPages 256 ≤ (freePages w.info).card := by
  have hinit := (card_freePages_init L).1
  have hroom := hw.room
  rw [hw.current, hw.writable_eq (by omega)]
  omega

theorem sample_fork_disciplined {n : ℕ} (hw : SampleWorld L n w) (hn : 13 + 2 * n < 256)
    (hrep : Represents L M w) (hres : M.outcome.resumed = true) :
    Disciplined M (.trap (sampleCpu 0) .fork) := by
  refine ⟨rfl, (fun ht => by cases ht), fun _ _ => ?_⟩
  rw [hrep.writablePages_eq (hrep.live hres), hrep.sim.info]
  exact sample_fork_room hw hn

/-- A process that forks and exits leaves its code page to the child. The page keeps its owner, who
is gone, and the next trap fails the check. -/
theorem not_reach_check : ¬ ∀ M, Machine.Reach sampleLayout (sampleImages 0) (some "fork")
    (fun M e => e.isOrdinaryTrap = true ∧ Disciplined M e) M → M.outcome.resumed = true →
    ∀ reg, checkVirtualMemory sampleLayout (M.kernel.updateProc M.kernel.current
      (fun q => { q with registers := reg })) := by
  intro hall
  obtain ⟨M, hM⟩ := sample_boots sampleLayout 0 (some "fork") (by decide)
  obtain ⟨w, hw, hrep, hres⟩ := sample_world sampleLayout (by norm_num) hM
  obtain ⟨hslot, hfive, htrap⟩ := sample_fork hw (by norm_num)
  have hroom := sample_fork_room hw (by norm_num)
  have hrun := hrep.live hres
  have hex : w.Exact sampleLayout := Tallied.of_booting _ hw.booting hw.complete
  obtain ⟨hf, -⟩ := fork_forked hrep.wf hrun hslot (by omega)
  obtain ⟨M₁, hs₁, hrep₁, ho₁⟩ := step_exists (sampleCpu 0) .fork hrep hres
    (hw.booting.checked hw.complete) rfl trivial fun ht => by cases ht
  have hdisc₁ := sample_fork_disciplined hw (by norm_num) hrep hres
  rw [show (sampleCpu 0).rdi.toNat = 0 from rfl, htrap] at hrep₁ ho₁
  obtain ⟨hex₁, hrec⟩ := hex.fork_into hrep.wf hrun hslot
    (fun _ _ hx => hex.exact_safe hrep.wf hx) hroom
  have hown₁ : w.fork.1.Owned := (Owned.of_booting hw.booting).grown
    (Grown.fork hrep.wf fun _ => by omega) hex₁
  have hchk₁ := hown₁.checked hex₁ hrep₁.wf fun pn hu => hex₁.held_of_pos hu
  have hres₁ : M₁.outcome.resumed = true := by rw [ho₁]; rfl
  have hrun₁ := hrep₁.live hres₁
  obtain ⟨M₂, hs₂, hrep₂, ho₂⟩ := step_exists (sampleCpu 0) .exit hrep₁ hres₁ hchk₁ rfl trivial
    fun ht => by cases ht
  have hdisc₂ : Disciplined M₁ (.trap (sampleCpu 0) .exit) :=
    ⟨rfl, (fun ht => by cases ht), fun ht => by cases ht⟩
  have hreach : Machine.Reach sampleLayout (sampleImages 0) (some "fork")
      (fun M e => e.isOrdinaryTrap = true ∧ Disciplined M e) M₂ :=
    .next (.next (.start hM) ⟨rfl, hdisc₁⟩ hs₁) ⟨rfl, hdisc₂⟩ hs₂
  have hcur : w.fork.1.current = 1 := hf.current.trans hw.current
  have hst : w.fork.1.exit.state =
      Function.update (Function.update w.state 2 .runnable) 1 .free := by
    rw [exit_state hrep₁.wf hrun₁, hf.state, hcur]
  have hcur₂ : w.fork.1.exit.current = 1 := (exit_current hrep₁.wf hrun₁).trans hcur
  obtain ⟨f, hcode⟩ := hw.code 256 le_rfl (by norm_num)
  have hcode' : w.held (w.current, .page 256) = some ⟨f, false⟩ := by rw [hw.current, hcode]
  have hchild : w.fork.1.exit.held (2, .page 256) = some ⟨f, false⟩ := by
    rw [exit_held hrep₁.wf hrun₁, hcur, if_neg (by norm_num)]
    exact hf.shared 256 f le_rfl (by norm_num) hcode'
  have hex₂ := hex₁.exit hrep₁.wf hrun₁
  have hkept := ownersKept_exit w.fork.1
  rw [trap_exit] at hrep₂ ho₂
  generalize w.fork.1.exit = w₂ at *
  have howner : (w₂.info f).owner = 1 := by
    rw [(hkept f (hex₂.counted hchild)).2, hrec.shared 256 f le_rfl (by norm_num) hcode',
      hw.booting.counted _ _ _ hcode]
    rfl
  have hleave := leave_same w₂ .break
  -- The child is there to run.
  have hres₂ : M₂.outcome.resumed = true := by
    have hrun₂ : w₂.state 2 = .runnable := by
      rw [hst]
      simp
    obtain ⟨p, hp⟩ := Option.isSome_iff_exists.mp
      (scheduleLoop_isSome (show 1 < 16 by norm_num) (show 2 < 16 by norm_num) hrun₂)
    have hfree : ¬ w₂.state w₂.current = .runnable := by
      rw [hcur₂, hst]
      simp
    rw [ho₂, World.leave, if_neg hfree, World.schedule, hcur₂, show nProc = 16 from rfl, hp]
    rfl
  have hu := (hex₂.place _ _ hchild).2
  have hpos : 0 < (w₂.info f).refcount := by
    have := hex₂.refs_pos hchild
    rw [hex₂.refcount hu]
    omega
  have hlive := ((hrep₂.check_iff (processInit 0)).mp (hall M₂ hreach hres₂ _)).owners f hu.lt
  rw [hleave.info, howner] at hlive
  refine hlive hpos (by norm_num) ?_
  rw [hleave.state, hst]
  simp

end check

end WeensyOS
