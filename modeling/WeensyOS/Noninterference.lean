import WeensyOS.PairedRuns
import WeensyOS.ReferenceCounts

/-!
# What a process can observe

A process that runs while the bytes out of its reach change cannot tell from its registers. Nor can
it from the memory it reads, unless `page_alloc` hands it one of the changed pages: the kernel maps
the page as it was left, and clears nothing.
-/

namespace WeensyOS
open ByteMemory World

variable {L : KernelLayout} {D : ℕ → Prop} {M M' N : Machine} {w : World}

namespace Kernel

/-- The byte that user code of `p` reads at `va`. -/
def readable (k : Kernel) (p va : ℕ) : Option UInt8 :=
  ((walk k.mem (k.processes p).pagetable va).filter Translation.user).map fun t => k.mem t.pa

/-- Neither a page of the kernel nor a page table, and mapped nowhere for user code of `p`. -/
def Hidden (L : KernelLayout) (k : Kernel) (p pn : ℕ) : Prop :=
  initialOwner L (pageAddress pn) ≠ poKernel ∧ (∀ q, ¬ k.usesTable q pn) ∧
    ∀ va < 2 ^ 47, ∀ t, walk k.mem (k.processes p).pagetable va = some t → t.user = true →
      t.pa / pageSize ≠ pn

end Kernel

namespace Machine

def withMem (M : Machine) (m : Memory) : Machine := { M with kernel := M.kernel.withMem m }

/-- A call of `page_alloc` for an unmapped page of the process's range, `getpid`, or `fork`. -/
def OwnTrap (M : Machine) : Event → Prop
  | .store _ _ => False
  | .trap cpu t => t.keepsRunning = true ∧
      (t = .pageAlloc → inUserRange cpu.rdi.toNat ∧ M.kernel.Unmapped cpu.rdi.toNat)

/-- Such calls one after the other, as far as the machine gets. -/
def OwnTraps (L : KernelLayout) : Machine → List Event → Prop
  | _, [] => True
  | M, e :: es => M.OwnTrap e ∧ ∀ M', M.step L e = some M' → OwnTraps L M' es

/-- The page that a call of `page_alloc` takes. -/
def handsOut (M : Machine) : Event → Option ℕ
  | .trap _ .pageAlloc => lowestFree M.kernel.pageinfo
  | _ => none

/-- The pages that `page_alloc` takes along a run. -/
def handedOut (L : KernelLayout) : Machine → List Event → List ℕ
  | _, [] => []
  | M, e :: es => (M.handsOut e).toList ++
      match M.step L e with
      | some M' => handedOut L M' es
      | none => []

end Machine

/-! The caller's side of a trap. -/

namespace World

theorem fork_caller (hrun : w.Live w.current) :
    w.fork.1.state w.current = w.state w.current ∧ w.fork.1.current = w.current ∧
      (∀ i, w.fork.1.held (w.current, .page i) = w.held (w.current, .page i)) ∧
      w.fork.2 ≠ .schedule := by
  cases hslot : findFreeSlot w.state (nProc - 1) 1 with
  | none =>
      rw [fork, hslot]
      exact ⟨rfl, rfl, fun _ => rfl, Next.noConfusion⟩
  | some c =>
      obtain ⟨-, -, hfree, -⟩ := findFreeSlot_some hslot
      have hne : w.current ≠ c := by
        rintro rfl
        exact hrun hfree
      cases hdup : duplicate c (w.setState c .runnable) with
      | none =>
          rw [fork, hslot]
          dsimp only
          rw [hdup]
          exact ⟨rfl, rfl, fun _ => rfl, Next.noConfusion⟩
      | some w' =>
          have hspec := duplicate_spec hdup
          obtain ⟨hst, hcur⟩ := forkSlots_state w.current c userPages 256 w'
          rw [Tallied.fork_eq hslot hdup]
          refine ⟨?_, hcur.trans hspec.current, fun i => ?_, Next.noConfusion⟩
          · rw [hst, hspec.state, setState_state, Function.update_of_ne hne]
          · rw [forkSlots_held_of_ne fun x _ _ heq => hne (Prod.mk.inj heq).1,
              duplicate_held_page hdup]

theorem pageAlloc_shown {p addr : ℕ} (h : w.Shown D p)
    (hD : (∀ b, D b) ∨ ∀ pn, lowestFree w.info = some pn → ¬ D pn) :
    (w.pageAlloc p addr).Shown D p := by
  rcases h with hall | h
  · exact Or.inl hall
  · rcases hD with hall | hD
    · exact Or.inl hall
    · refine Or.inr fun i r hr => ?_
      unfold pageAlloc at hr
      cases hpn : lowestFree w.info with
      | none =>
          rw [hpn] at hr
          exact h i r hr
      | some pn =>
          rw [hpn] at hr
          dsimp only at hr
          split_ifs at hr
          · rw [give_held, Function.update_apply] at hr
            split_ifs at hr
            · obtain rfl := Option.some.inj hr
              exact hD pn hpn
            · exact h i r hr
          · exact h i r hr

/-- The caller of such a trap runs on. -/
theorem trap_keepsRunning {t : Trap} (addr : ℕ) (ht : t.keepsRunning = true)
    (hrun : w.state w.current = .runnable) (h : w.Shown D w.current)
    (hD : (∀ b, D b) ∨ (t = .pageAlloc → ∀ pn, lowestFree w.info = some pn → ¬ D pn)) :
    (w.trap t addr).1.current = w.current ∧
      (w.trap t addr).1.state w.current = .runnable ∧ (w.trap t addr).1.Shown D w.current := by
  have hleave {w' : World} {next : Next} (hnext : next ≠ .schedule) (hcur : w'.current = w.current)
      (hst : w'.state w.current = .runnable) (hs : w'.Shown D w.current) :
      (w'.leave next).1.current = w.current ∧ (w'.leave next).1.state w.current = .runnable ∧
        (w'.leave next).1.Shown D w.current := by
    cases next with
    | «return» => exact ⟨hcur, hst, hs⟩
    | schedule => exact absurd rfl hnext
    | «break» =>
        rw [leave, hcur, if_pos hst]
        exact ⟨hcur, hst, hs⟩
  have hlive : w.Live w.current := by
    rw [Live, hrun]
    decide
  rcases Trap.keepsRunning_cases ht with rfl | rfl | rfl
  · exact hleave Next.noConfusion rfl hrun h
  · obtain ⟨hst, hcur⟩ := pageAlloc_state w w.current addr
    have hst' : (w.pageAlloc w.current addr).state w.current = .runnable := by rw [hst, hrun]
    exact hleave Next.noConfusion hcur hst' (pageAlloc_shown h (hD.imp_right fun hD => hD rfl))
  · obtain ⟨hst, hcur, hheld, hnext⟩ := fork_caller hlive
    exact hleave hnext hcur (hst.trans hrun) (h.of_held hheld)

end World

/-- Two machines that differ only in bytes of pages in `D`, none of which the running process has
mapped. -/
structure Twin (L : KernelLayout) (D : ℕ → Prop) (M N : Machine) (w : World) : Prop where
  left : Represents L M w
  right : Represents L N w
  kernel : N.kernel = M.kernel.withMem N.kernel.mem
  cpu : N.cpu = M.cpu
  outcome : N.outcome = M.outcome
  agree : AgreeOff 4096 D M.kernel.mem N.kernel.mem
  runnable : w.state w.current = .runnable
  shown : w.Shown D w.current

namespace Twin

theorem symm (h : Twin L D M N w) : Twin L D N M w := by
  refine ⟨h.right, h.left, ?_, h.cpu.symm, h.outcome.symm, fun x hx => (h.agree x hx).symm,
    h.runnable, h.shown⟩
  rw [h.kernel, Kernel.withMem_withMem, Kernel.withMem_self]

theorem live (h : Twin L D M N w) : w.Live w.current := by
  rw [Live, h.runnable]
  decide

theorem walk_eq (h : Twin L D M N w) {va : ℕ} (hva : va < 2 ^ 48) :
    walk N.kernel.mem (N.kernel.processes w.current).pagetable va =
      walk M.kernel.mem (M.kernel.processes w.current).pagetable va := by
  by_cases hlow : va < 0x100000
  · exact (h.right.sim.mem.walk_kernel h.live hlow).trans
      (h.left.sim.mem.walk_kernel h.live hlow).symm
  · by_cases htop : va < 0x400000
    · exact (h.right.sim.mem.walk_user h.right.wf h.live (by omega) htop).trans
        (h.left.sim.mem.walk_user h.left.wf h.live (by omega) htop).symm
    · exact (h.right.sim.mem.walk_outside h.live (by omega) hva).trans
        (h.left.sim.mem.walk_outside h.live (by omega) hva).symm

theorem step {cpu : Cpu} {t : Trap} (h : Twin L D M N w) (ht : t.keepsRunning = true)
    (hrange : t = .pageAlloc → inUserRange cpu.rdi.toNat)
    (hD : (∀ b, D b) ∨ ∀ pn, M.handsOut (.trap cpu t) = some pn → ¬ D pn)
    (hs : M.step L (.trap cpu t) = some M') :
    ∃ N' w', N.step L (.trap cpu t) = some N' ∧ Twin L D M' N' w' ∧
      M'.kernel.current = M.kernel.current := by
  have hord := Trap.keepsRunning_ordinary ht
  have hhigh (hp : t = .pageAlloc) : w.AllocHigh cpu.rdi.toNat := (hrange hp).high
  obtain ⟨hchk, huser, hrep, -⟩ := step_refines h.left hord hhigh hs
  obtain ⟨hres, k', o, he, rfl⟩ := Machine.step_trap hs
  have halloc (hp : t = .pageAlloc) : w.AllocOk cpu.rdi.toNat := by
    obtain ⟨halign, -, -⟩ := hrange hp
    exact ⟨fun _ _ => halign, fun hlow hfree hin => hhigh hp hlow hfree hin halign⟩
  have hsim := h.right.sim
  rw [h.kernel] at hsim
  obtain ⟨k, n, o', hk, hn, ha⟩ := exception_paired h.left.sim hsim h.left.wf hchk h.live ht
    halloc h.shown h.agree
  rw [he] at hk
  obtain ⟨rfl, rfl⟩ := Prod.mk.inj (Except.ok.inj hk)
  rw [← h.kernel] at hn
  have hs' := Machine.step_trap_eq (h.outcome.symm ▸ hres) hn
  obtain ⟨-, -, hrep', -⟩ := step_refines h.right hord hhigh hs'
  have hD' : (∀ b, D b) ∨ (t = .pageAlloc → ∀ pn, lowestFree w.info = some pn → ¬ D pn) := by
    apply hD.imp_right
    intro hD hp pn hpn
    subst hp
    apply hD
    rw [← h.left.sim.info] at hpn
    exact hpn
  obtain ⟨hcur, hst, hshown⟩ := w.trap_keepsRunning cpu.rdi.toNat ht h.runnable h.shown hD'
  refine ⟨_, (w.trap t cpu.rdi.toNat).1, hs', ⟨hrep, hrep', rfl, rfl, rfl, ha, ?_, ?_⟩, ?_⟩
  · rw [hcur]
    exact hst
  · rw [hcur]
    exact hshown
  · rw [hrep.sim.current, hcur, h.left.sim.current]

/-- Two runs of the same calls. -/
theorem run {es : List Event} (h : Twin L D M N w) (hes : Machine.OwnTraps L M es)
    (hD : (∀ b, D b) ∨ ∀ pn ∈ Machine.handedOut L M es, ¬ D pn) :
    Option.Rel (fun M' N' => ∃ w', Twin L D M' N' w' ∧ M'.kernel.current = M.kernel.current)
      (es.foldlM (Machine.step L) M) (es.foldlM (Machine.step L) N) := by
  induction es generalizing M N w with
  | nil => exact .some ⟨w, h, rfl⟩
  | cons e es ih =>
      obtain ⟨he, hes'⟩ := hes
      cases e with
      | store va b => exact he.elim
      | trap cpu t =>
          obtain ⟨ht, hrange⟩ := he
          have hD₁ : (∀ b, D b) ∨ ∀ pn, M.handsOut (.trap cpu t) = some pn → ¬ D pn := by
            apply hD.imp_right
            intro hD pn hpn
            apply hD
            rw [Machine.handedOut, hpn]
            exact List.mem_cons_self
          rw [List.foldlM_cons, List.foldlM_cons]
          cases hs : M.step L (.trap cpu t) with
          | none =>
              have hs' : N.step L (.trap cpu t) = none := by
                cases hs' : N.step L (.trap cpu t) with
                | none => rfl
                | some N' =>
                    have hhand : N.handsOut (.trap cpu t) = M.handsOut (.trap cpu t) := by
                      unfold Machine.handsOut
                      rw [h.kernel, Kernel.withMem_pageinfo]
                    rw [← hhand] at hD₁
                    obtain ⟨M', -, hs'', -⟩ :=
                      h.symm.step ht (fun hp => (hrange hp).1) hD₁ hs'
                    rw [hs] at hs''
                    cases hs''
              rw [hs']
              exact .none
          | some M' =>
              obtain ⟨N', w', hs', h', hcur⟩ := h.step ht (fun hp => (hrange hp).1) hD₁ hs
              rw [hs']
              have hD' : (∀ b, D b) ∨ ∀ pn ∈ Machine.handedOut L M' es, ¬ D pn := by
                apply hD.imp_right
                intro hD pn hpn
                apply hD
                rw [Machine.handedOut, hs]
                exact List.mem_append_right _ hpn
              have hrun := ih h' (hes' M' hs) hD'
              rw [hcur] at hrun
              exact hrun

theorem processes_eq (h : Twin L D M N w) : N.kernel.processes = M.kernel.processes := by
  rw [h.kernel, Kernel.withMem_processes]

/-- What the running process reads is the same. -/
theorem readable_eq (h : Twin L D M N w) (hcons : ¬ D consolePage) {va : ℕ} (hva : va < 2 ^ 47) :
    N.kernel.readable M.kernel.current va = M.kernel.readable M.kernel.current va := by
  have hpages := h.shown.resolve_left fun hall => hcons (hall _)
  rw [h.left.sim.current, Kernel.readable, Kernel.readable, h.walk_eq (by omega)]
  apply Option.map_congr
  intro t ht
  rw [Option.filter_eq_some_iff] at ht
  apply h.agree
  rcases h.left.sim.mem.walk_cases h.left.wf h.live (by omega) ht.1 ht.2 with
    ⟨-, hpa, hpage⟩ | ⟨-, -, r, hr, rfl⟩
  · rwa [hpa, hpage]
  · rw [show (r.frame * 4096 + va % 4096) / 4096 = r.frame by omega]
    exact hpages _ r hr

end Twin

namespace Represents

/-! Tables, the console and the pages that a process maps are not hidden from it. -/

theorem not_hidden_table (h : Represents L M w) {p q : ℕ} (hq : w.Live q) (j : Fin 5) :
    ¬ M.kernel.Hidden L p (w.frames q j) := by
  rintro ⟨-, htable, -⟩
  apply htable q
  rw [h.usesTable_iff]
  exact ⟨j, frameAt_eq_some.mpr ⟨_, h.wf.tables q hq j, rfl⟩⟩

theorem not_hidden_console (h : Represents L M w) {p : ℕ} (hp : w.Live p) :
    ¬ M.kernel.Hidden L p consolePage := by
  rintro ⟨-, -, hmap⟩
  exact hmap 0xB8000 (by norm_num) _ (h.sim.mem.walk_kernel hp (by norm_num)) rfl rfl

theorem not_hidden_page (h : Represents L M w) {p i : ℕ} {r : Ref} (hp : w.Live p)
    (hr : w.held (p, .page i) = some r) : ¬ M.kernel.Hidden L p r.frame := by
  rintro ⟨-, -, hmap⟩
  obtain ⟨hi, hi'⟩ := h.wf.page_range p i r hr
  have hwalk : walk M.kernel.mem (M.kernel.processes p).pagetable (i * 4096) = _ :=
    h.sim.mem.walk_user h.wf hp (by omega) (by omega)
  rw [Nat.mul_div_cancel _ (by norm_num), hr, Option.map_some] at hwalk
  apply hmap (i * 4096) (by omega) _ hwalk rfl
  simp only [pageSize]
  omega

theorem withMem (h : Represents L M w) {p : ℕ} {n : Memory}
    (ha : AgreeOff 4096 (M.kernel.Hidden L p) M.kernel.mem n) : Represents L (M.withMem n) w := by
  have hkernel (j : Fin 5) : ¬ M.kernel.Hidden L p (L.tables j) := by
    rintro ⟨howner, -⟩
    have hrange := L.tables_range j
    apply howner
    rw [initialOwner_eq, if_neg (by omega), if_pos (by omega)]
  have hmem := h.sim.mem.frame ha hkernel fun q hq => h.not_hidden_table hq
  exact ⟨⟨h.sim.info, h.sim.state, h.sim.pid, h.sim.current, hmem⟩, h.wf, h.runnable⟩

end Represents

theorem rel_mono {α β : Type} {r s : α → β → Prop} {a : Option α} {b : Option β}
    (h : Option.Rel r a b) (hrs : ∀ x y, r x y → s x y) : Option.Rel s a b := by
  cases h with
  | some hr => exact .some (hrs _ _ hr)
  | none => exact .none

/-- Whatever hidden bytes are, the calls of the running process leave it the same registers. What it
reads depends on them in the pages that its `page_alloc` calls hand out, if at all. -/
theorem own_traps_noninterfering {es : List Event} {n : Memory} (h : Represents L M w)
    (hres : M.outcome.resumed = true) (hes : Machine.OwnTraps L M es)
    (ha : AgreeOff 4096 (M.kernel.Hidden L M.kernel.current) M.kernel.mem n) :
    Option.Rel (fun M' N' => M'.kernel.current = M.kernel.current ∧ N'.cpu = M'.cpu ∧
        N'.kernel.processes = M'.kernel.processes ∧
        ((∀ x, x / pageSize ∈ Machine.handedOut L M es → n x = M.kernel.mem x) →
          ∀ va < 2 ^ 47, N'.kernel.readable M.kernel.current va =
            M'.kernel.readable M.kernel.current va))
      (es.foldlM (Machine.step L) M) (es.foldlM (Machine.step L) (M.withMem n)) := by
  have hright := h.withMem ha
  have hrun := h.runnable hres
  have hlive := h.live hres
  by_cases hhand : ∀ x, x / pageSize ∈ Machine.handedOut L M es → n x = M.kernel.mem x
  · set D := fun pn => M.kernel.Hidden L M.kernel.current pn ∧ pn ∉ Machine.handedOut L M es
    have hshown (i : ℕ) (r : Ref) (hr : w.held (w.current, .page i) = some r) : ¬ D r.frame := by
      rintro ⟨hd, -⟩
      rw [h.sim.current] at hd
      exact h.not_hidden_page hlive hr hd
    have hcons : ¬ D consolePage := by
      rintro ⟨hd, -⟩
      rw [h.sim.current] at hd
      exact h.not_hidden_console hlive hd
    have hagree : AgreeOff 4096 D M.kernel.mem n := by
      intro x hx
      by_cases hmem : x / 4096 ∈ Machine.handedOut L M es
      · exact hhand x hmem
      · exact ha x fun hh => hx ⟨hh, hmem⟩
    have htwin : Twin L D M (M.withMem n) w :=
      ⟨h, hright, rfl, rfl, rfl, hagree, hrun, Or.inr hshown⟩
    apply rel_mono (htwin.run hes (Or.inr fun pn hpn hd => hd.2 hpn))
    rintro M' N' ⟨w', h', hcur⟩
    refine ⟨hcur, h'.cpu, h'.processes_eq, fun _ va hva => ?_⟩
    rw [← hcur]
    exact h'.readable_eq hcons hva
  · have htwin : Twin L (fun _ => True) M (M.withMem n) w :=
      ⟨h, hright, rfl, rfl, rfl, fun _ hx => absurd trivial hx, hrun, Or.inl fun _ => trivial⟩
    apply rel_mono (htwin.run hes (Or.inl fun _ => trivial))
    rintro M' N' ⟨w', h', hcur⟩
    exact ⟨hcur, h'.cpu, h'.processes_eq, fun hall => absurd hall hhand⟩

/-! What `page_alloc` hands out is as it was left. -/

/-- A page on which nothing counts is hidden from every process. -/
theorem Represents.hidden_free (h : Represents L M w) (hex : w.Exact L) {p pn : ℕ} (hp : w.Live p)
    (hpn : lowestFree w.info = some pn) : M.kernel.Hidden L p pn := by
  have husable := h.wf.lowestFree_usable hpn
  have hzero := (lowestFree_eq_some hpn).2.2
  refine ⟨?_, fun q hq => ?_, fun va hva t ht hu hpa => ?_⟩
  · rw [husable.2]
    decide
  · rw [h.usesTable_iff] at hq
    obtain ⟨j, hj⟩ := hq
    obtain ⟨r, hr, rfl⟩ := frameAt_eq_some.mp hj
    exact hex.counted hr hzero
  · rcases h.sim.mem.walk_cases h.wf hp (by omega) ht hu with
      ⟨-, hid, hcons⟩ | ⟨-, -, r, hr, rfl⟩
    · rw [hid, pageSize, hcons] at hpa
      exact not_usable_console (hpa ▸ husable)
    · have hframe : r.frame = pn := by
        simp only [pageSize] at hpa
        omega
      rw [← hframe] at hzero
      exact hex.counted hr hzero

theorem step_pageAlloc_readable {cpu : Cpu} {pn o : ℕ} (h : Represents L M w) (hex : w.Exact L)
    (haddr : inUserRange cpu.rdi.toNat) (hpn : lowestFree w.info = some pn) (ho : o < 4096)
    (hs : M.step L (.trap cpu .pageAlloc) = some M') :
    M'.kernel.readable M.kernel.current (cpu.rdi.toNat + o) =
      some (M.kernel.mem (pn * 4096 + o)) := by
  have hrun := h.runnable (Machine.step_resumed hs)
  have hlive := h.live (Machine.step_resumed hs)
  have husable := h.wf.lowestFree_usable hpn
  have hzero := (lowestFree_eq_some hpn).2.2
  obtain ⟨-, -, hrep, -, hagree⟩ := step_refines h rfl (fun _ => haddr.high) hs
  obtain ⟨halign, hlo, hhi⟩ := haddr
  simp only [pageSize, procStartAddr, memsizeVirtual] at halign hlo hhi
  have hgive : (w.dispatch .pageAlloc cpu.rdi.toNat).1 =
      w.give w.current (.page (cpu.rdi.toNat / 4096)) pn := pageAlloc_give hlo hhi hpn
  have huntouched : ¬ TrapTouched w (w.dispatch .pageAlloc cpu.rdi.toNat).1
      (w.dispatch .pageAlloc cpu.rdi.toNat).2 pn := by
    rw [hgive]
    rintro (hcons | ⟨j, hj⟩ | h0 | ⟨c, s, hfree, hc⟩ | ⟨hret, -⟩)
    · exact not_usable_console (hcons ▸ husable)
    · rw [hj] at hzero
      exact hex.counted (h.wf.tables _ hlive j) hzero
    · exact husable.pos.ne' h0
    · have hne : (c, s) ≠ (w.current, .page (cpu.rdi.toNat / 4096)) := by
        rintro heq
        obtain ⟨rfl, -⟩ := Prod.mk.inj heq
        exact hlive hfree
      rw [give_held, Function.update_of_ne hne, h.wf.dead c s hfree] at hc
      cases hc
    · cases hret
  have hsame := leave_same (w.dispatch .pageAlloc cpu.rdi.toNat).1
    (w.dispatch .pageAlloc cpu.rdi.toNat).2
  set w' := (w.trap .pageAlloc cpu.rdi.toNat).1
  have hheld : w'.held (w.current, .page (cpu.rdi.toNat / 4096)) = some ⟨pn, true⟩ := by
    rw [show w'.held = _ from hsame.held, hgive, give_held, Function.update_self]
  have hlive' : w'.Live w.current := by
    rw [Live, show w'.state = _ from hsame.state, hgive]
    exact hlive
  rw [h.sim.current, Kernel.readable, hrep.sim.mem.walk_user hrep.wf hlive' (by omega) (by omega),
    show (cpu.rdi.toNat + o) / 4096 = cpu.rdi.toNat / 4096 by omega, hheld,
    show (cpu.rdi.toNat + o) % 4096 = o by omega]
  have hbyte := hagree (pn * 4096 + o) (by rwa [show (pn * 4096 + o) / 4096 = pn by omega])
  exact congrArg some hbyte

/-- The first process of a sample, with the lowest free page as it is and with its first byte
changed. -/
theorem sample_hidden : ∃ M w pn n, Machine.Boots sampleLayout (sampleImages 3) (some "fork") M ∧
    SampleWorld sampleLayout 3 w ∧ Represents sampleLayout M w ∧ M.outcome.resumed = true ∧
    lowestFree w.info = some pn ∧ n (pn * 4096) ≠ M.kernel.mem (pn * 4096) ∧
    AgreeOff 4096 (M.kernel.Hidden sampleLayout M.kernel.current) M.kernel.mem n := by
  obtain ⟨M, hM⟩ := sample_boots sampleLayout 3 (some "fork") (by decide)
  obtain ⟨w, hw, hrep, hres⟩ := sample_world sampleLayout (by norm_num) hM
  have hinit := (card_freePages_init sampleLayout).1
  have hroom := hw.room
  obtain ⟨pn, hpn⟩ := exists_lowestFree (show 0 < (freePages w.info).card by omega)
  have hlive := hrep.live hres
  rw [← hrep.sim.current] at hlive
  have hhidden := hrep.hidden_free (Tallied.of_booting _ hw.booting hw.complete) hlive hpn
  have hagree := agreeOff_update 4096 M.kernel.mem (pn * 4096) (M.kernel.mem (pn * 4096) + 1)
  rw [Nat.mul_div_cancel _ (by norm_num)] at hagree
  refine ⟨M, w, pn, _, hM, hw, hrep, hres, hpn, ?_, hagree.mono ?_⟩
  · rw [Function.update_self]
    simp
  · rintro _ rfl
    exact hhidden

theorem own_traps_noninterfering_sample : ∃ M N : Machine,
    Machine.Boots sampleLayout (sampleImages 3) (some "fork") M ∧ N.kernel.mem ≠ M.kernel.mem ∧
    Option.Rel (fun M' N' => M'.kernel.current = M.kernel.current ∧ N'.cpu = M'.cpu ∧
        N'.kernel.processes = M'.kernel.processes ∧ ∀ va < 2 ^ 47,
          N'.kernel.readable M.kernel.current va = M'.kernel.readable M.kernel.current va)
      ([.trap (sampleCpu 0) .getpid, .trap (sampleCpu 0) .fork].foldlM
        (Machine.step sampleLayout) M)
      ([.trap (sampleCpu 0) .getpid, .trap (sampleCpu 0) .fork].foldlM
        (Machine.step sampleLayout) N) := by
  obtain ⟨M, w, pn, n, hM, -, hrep, hres, -, hne, ha⟩ := sample_hidden
  refine ⟨M, M.withMem n, hM, fun heq => hne (congrFun heq _), ?_⟩
  have hown : Machine.OwnTraps sampleLayout M
      [.trap (sampleCpu 0) .getpid, .trap (sampleCpu 0) .fork] :=
    ⟨⟨rfl, fun ht => by cases ht⟩, fun M' _ =>
      ⟨⟨rfl, fun ht => by cases ht⟩, fun _ _ => trivial⟩⟩
  have hempty : Machine.handedOut sampleLayout M
      [.trap (sampleCpu 0) .getpid, .trap (sampleCpu 0) .fork] = [] := by
    simp only [Machine.handedOut]
    split
    · split <;> rfl
    · rfl
  have hrel := own_traps_noninterfering hrep hres hown ha
  rw [hempty] at hrel
  apply rel_mono hrel
  rintro M' N' ⟨hcur, hcpu, hproc, hread⟩
  exact ⟨hcur, hcpu, hproc, hread fun _ hx => absurd hx List.not_mem_nil⟩

/-- A page that `page_alloc` hands out shows the process what was left in it. -/
theorem not_noninterfering : ¬ ∀ (M : Machine) (es : List Event) (n : Memory),
    Machine.Boots sampleLayout (sampleImages 3) (some "fork") M →
    Machine.OwnTraps sampleLayout M es →
    AgreeOff 4096 (M.kernel.Hidden sampleLayout M.kernel.current) M.kernel.mem n →
    Option.Rel (fun M' N' => N'.cpu = M'.cpu ∧ N'.kernel.processes = M'.kernel.processes ∧
        ∀ va < 2 ^ 47, N'.kernel.readable M.kernel.current va =
          M'.kernel.readable M.kernel.current va)
      (es.foldlM (Machine.step sampleLayout) M)
      (es.foldlM (Machine.step sampleLayout) (M.withMem n)) := by
  intro hall
  obtain ⟨M, w, pn, n, hM, hw, hrep, hres, hpn, hne, ha⟩ := sample_hidden
  have hlive := hrep.live hres
  have hex : w.Exact sampleLayout := Tallied.of_booting _ hw.booting hw.complete
  have hrange : inUserRange (sampleCpu 0x105000).rdi.toNat := by decide
  have hunmapped : M.kernel.Unmapped (sampleCpu 0x105000).rdi.toNat := by
    rw [hrep.unmapped_iff hlive hrange, hw.current]
    exact hw.rest 261 (by norm_num) (by norm_num)
  have halloc : w.AllocOk (sampleCpu 0x105000).rdi.toNat :=
    ⟨fun _ _ => hrange.1, fun hlow hfree hin => hrange.high hlow hfree hin hrange.1⟩
  have hchk := hw.booting.checked hw.complete
  obtain ⟨M', hs, -⟩ := step_exists (sampleCpu 0x105000) .pageAlloc hrep hres hchk rfl trivial
    fun _ => halloc
  obtain ⟨N', hs', -⟩ := step_exists (sampleCpu 0x105000) .pageAlloc (hrep.withMem ha) hres hchk
    rfl trivial fun _ => halloc
  have hrel := hall M [.trap (sampleCpu 0x105000) .pageAlloc] n hM
    ⟨⟨rfl, fun _ => ⟨hrange, hunmapped⟩⟩, fun _ _ => trivial⟩ ha
  rw [List.foldlM_cons, List.foldlM_cons, hs, hs'] at hrel
  cases hrel with
  | some h =>
      have hread := h.2.2 (sampleCpu 0x105000).rdi.toNat (by decide)
      have hleft := step_pageAlloc_readable (o := 0) hrep hex hrange hpn (by norm_num) hs
      have hright := step_pageAlloc_readable (o := 0) (hrep.withMem ha) hex hrange hpn
        (by norm_num) hs'
      simp only [Nat.add_zero] at hleft hright
      change N'.kernel.readable M.kernel.current _ = _ at hright
      rw [hleft, hright, Option.some.injEq] at hread
      exact hne hread

end WeensyOS
