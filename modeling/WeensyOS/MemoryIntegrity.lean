import WeensyOS.Ownership

/-!
# Integrity of a process's memory

In disciplined runs nobody but a process itself changes what it has mapped. The argument needs no
more than the ledger: a page that the kernel writes to while a process traps is the console, a table
or a page that was free, and a page that another process may write is held by it alone.
-/

namespace WeensyOS
open ByteMemory World Runs

variable {L : KernelLayout} {images : ℕ → ElfImage} {command : Option String} {M M' : Machine}
  {w : World}

/-- The mapping of `va` and the byte there, as process `p` sees them. -/
def Kernel.view (k : Kernel) (p va : ℕ) : Option (Translation × UInt8) :=
  (walk k.mem (k.processes p).pagetable va).map (fun t => (t, k.mem t.pa))

theorem Represents.view_eq (h : Represents L M w) {p va : ℕ} (hp : w.Live p)
    (hva : 0x100000 ≤ va) (hva' : va < 0x400000) :
    M.kernel.view p va = (w.held (p, .page (va / 4096))).map (fun r =>
      (⟨r.frame * 4096 + va % 4096, r.writable, true⟩,
        M.kernel.mem (r.frame * 4096 + va % 4096))) := by
  rw [Kernel.view, h.sim.mem.walk_user h.wf hp hva hva', Option.map_map]
  rfl

/-- No page that a process has mapped is written to by the kernel while some process traps. -/
theorem World.Tallied.not_touched {T : ℕ → Tally} (h : Tallied T L w) (hw : w.Wf L)
    (hrun : w.Live w.current) {w' : World} (next : Next) (h' : Tallied T L w') {p i : ℕ} {r : Ref}
    (hr : w.held (p, .page i) = some r) (hr' : w'.held (p, .page i) = some r) :
    ¬ TrapTouched w w' next r.frame := by
  have hu := (h.place _ _ hr).2
  rintro (hcons | ⟨j, hj⟩ | h0 | ⟨c, s, hfree, hc⟩ | ⟨-, hz⟩)
  · exact not_usable_console (hcons ▸ hu)
  · have hx := h.unique (hw.tables _ hrun j) hr hj
    cases (Prod.mk.inj hx).2
  · exact hu.pos.ne' h0
  · have hx := h'.unique hc hr' rfl
    obtain rfl : c = p := (Prod.mk.inj hx).1
    rw [hw.dead c _ hfree] at hr
    cases hr
  · exact h.counted hr hz

/-- One step of a disciplined run, seen by a process that lives on. -/
theorem step_integrity {e : Event} (h : Represents L M w) (hex : w.Exact L) (hd : Disciplined M e)
    (hs : M.step L e = some M') {p va : ℕ} (hlive : M.kernel.Live p) (hlive' : M'.kernel.Live p)
    (hva : procStartAddr ≤ va) (hva' : va < memsizeVirtual) (hmap : M.kernel.view p va ≠ none)
    (hstore : ∀ b, e = .store va b → M.kernel.current ≠ p) :
    M'.kernel.view p va = M.kernel.view p va := by
  simp only [procStartAddr, memsizeVirtual] at hva hva'
  have hp := (h.sim.live p).mp hlive
  have hview := h.view_eq hp hva (by omega)
  cases hr : w.held (p, .page (va / 4096)) with
  | none =>
      rw [hr] at hview
      exact absurd hview hmap
  | some r =>
      cases e with
      | store va₁ b =>
          have hrep' := step_store_represents h (hex.tablesSafe h.wf) hs
          rw [hrep'.view_eq hp hva (by omega), hview, hr]
          obtain ⟨a, rfl, htarget⟩ := store_target h hs
          have hne : r.frame * 4096 + va % 4096 ≠ a := by
            rintro rfl
            rcases htarget with ⟨-, hcons⟩ | ⟨-, -, f, hf, hpa⟩
            · rw [show (r.frame * 4096 + va % 4096) / 4096 = r.frame by omega] at hcons
              exact not_usable_console (hcons ▸ (hex.place _ _ hr).2)
            · have hx := hex.unique hf hr (by omega)
              obtain ⟨hcur, hpage⟩ := Prod.mk.inj hx
              have hsame := Slot.page.inj hpage
              obtain rfl : va₁ = va := by omega
              exact hstore b rfl (h.sim.current.trans hcur)
          simp only [Option.map_some, Function.update_of_ne hne]
      | trap cpu t =>
          have hres := Machine.step_resumed hs
          have hrun := h.live hres
          have hadm := hd.admits h hex
          have hreg := hd.regular h hrun hex
          obtain ⟨-, -, hrep', -, hagree⟩ := step_refines h hadm.1 hadm.2 hs
          have hsame := leave_same (w.dispatch t cpu.rdi.toNat).1 (w.dispatch t cpu.rdi.toNat).2
          have hp' : (w.trap t cpu.rdi.toNat).1.Live p := (hrep'.sim.live p).mp hlive'
          have hheld : (w.dispatch t cpu.rdi.toNat).1.held (p, .page (va / 4096)) = some r := by
            apply dispatch_held h.wf hrun hreg hr
            rwa [Live, ← hsame.state]
          have htouch := hex.not_touched h.wf hrun (w.dispatch t cpu.rdi.toNat).2
            (hex.dispatch h.wf hrun hreg) hr hheld
          have hbyte : M'.kernel.mem (r.frame * 4096 + va % 4096) =
              M.kernel.mem (r.frame * 4096 + va % 4096) := by
            apply hagree
            rwa [show (r.frame * 4096 + va % 4096) / 4096 = r.frame by omega]
          rw [hrep'.view_eq hp' hva (by omega), hview, hr, World.trap, hsame.held, hheld,
            Option.map_some, Option.map_some, hbyte]

/-- What a process has mapped, and the byte there, stays as it is along every stretch of a
disciplined run in which the process lives and does not itself store to it. -/
theorem reach_integrity (hfit : ImagesFit L images command) (hdisj : ImagesDisjoint images command)
    {s : ℕ → Machine} {e : ℕ → Event} {n : ℕ}
    (hstart : Machine.Reach L images command Disciplined (s 0))
    (hrun : IsRun (Machine.step L) s e n) (hsteps : ∀ i < n, Disciplined (s i) (e i)) {p va : ℕ}
    (hlive : ∀ i ≤ n, (s i).kernel.Live p) (hva : procStartAddr ≤ va) (hva' : va < memsizeVirtual)
    (hmap : (s 0).kernel.view p va ≠ none)
    (hstore : ∀ i < n, ∀ b, e i = .store va b → (s i).kernel.current ≠ p) :
    (s n).kernel.view p va = (s 0).kernel.view p va := by
  have hreach := hrun.reachable hstart hsteps
  have hinv : ∀ i ≤ n, (s i).kernel.view p va = (s 0).kernel.view p va := by
    refine hrun.invariant ?_ fun i hi hs ih => ?_
    · rfl
    obtain ⟨w, hw, hex⟩ := reach_exact hfit hdisj (fun _ _ he => he) (hreach i hi.le)
    rw [step_integrity hw hex (hsteps i hi) hs (hlive i hi.le) (hlive (i + 1) hi) hva hva'
      (by rwa [ih]) (hstore i hi), ih]
  exact hinv n le_rfl

theorem reach_integrity_sample : ∃ M M',
    Machine.Boots sampleLayout (sampleImages 0) (some "fork") M ∧
    M.step sampleLayout (.trap (sampleCpu 0) .fork) = some M' ∧ M'.kernel.Live 2 ∧
    M.kernel.view 1 0x100000 ≠ none ∧
    M'.kernel.view 1 0x100000 = M.kernel.view 1 0x100000 := by
  obtain ⟨M, hM⟩ := sample_boots sampleLayout 0 (some "fork") (by decide)
  obtain ⟨w, hw, hrep, hres⟩ := sample_world sampleLayout (by norm_num) hM
  obtain ⟨hslot, hfive, htrap⟩ := sample_fork hw (by norm_num)
  have hrun := hrep.live hres
  obtain ⟨hf, -⟩ := fork_forked hrep.wf hrun hslot hfive
  obtain ⟨M', hs, hrep', -⟩ := step_exists (sampleCpu 0) .fork hrep hres
    (hw.booting.checked hw.complete) rfl trivial fun ht => by cases ht
  have hdisc := sample_fork_disciplined hw (by norm_num) hrep hres
  rw [show (sampleCpu 0).rdi.toNat = 0 from rfl, htrap] at hrep'
  have hone : w.Live 1 := by
    rw [Live, hw.state]
    decide
  have hlive (p : ℕ) (hp : p = 1 ∨ p = 2) : M'.kernel.Live p := by
    rw [hrep'.sim.live, Live, hf.state, Function.update_apply, hw.state]
    rcases hp with rfl | rfl <;> decide
  have hmap : M.kernel.view 1 0x100000 ≠ none := by
    obtain ⟨f, hcode⟩ := hw.code 256 le_rfl (by norm_num)
    rw [hrep.view_eq hone (by norm_num) (by norm_num)]
    simp [hcode]
  refine ⟨M, M', hM, hs, hlive 2 (Or.inr rfl), hmap, ?_⟩
  exact reach_integrity (s := fun i => if i = 0 then M else M')
    (e := fun _ => .trap (sampleCpu 0) .fork) (n := 1) (sample_fits _ _ _ (by decide))
    (sample_disjoint _ _) (.start hM)
    (fun i hi => by
      obtain rfl : i = 0 := by omega
      exact hs)
    (fun i hi => by
      obtain rfl : i = 0 := by omega
      exact hdisc)
    (fun i hi => by
      by_cases h0 : i = 0
      · rw [if_pos h0, hrep.sim.live]
        exact hone
      · rw [if_neg h0]
        exact hlive 1 (Or.inl rfl))
    (by norm_num) (by norm_num) hmap (fun i _ b hb => by cases hb)

end WeensyOS
