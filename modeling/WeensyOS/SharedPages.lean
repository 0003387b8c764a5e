import WeensyOS.SystemRuns

/-!
# Shared pages

Only read-only pages are shared, and only programs that the kernel has loaded have read-only pages
of their own. So shared pages belong to the processes that `kernel(command)` started, and the exit
of any other process leaves nothing behind that is shared.
-/

namespace WeensyOS
open ByteMemory World

namespace World

variable {L : KernelLayout} {w w' : World} {roots : List ℕ} {t : Trap} {addr : ℕ}

/-- Pages that a process may only read belong to the processes in `roots`. -/
def Rooted (roots : List ℕ) (w : World) : Prop :=
  ∀ p i pn, w.held (p, .page i) = some ⟨pn, false⟩ → ∃ q ∈ roots, (w.info pn).owner = (q : ℕ)

namespace Rooted

theorem of_booting (hb : Booting L w) (hlive : ∀ p, w.Live p → p ∈ roots) : w.Rooted roots := by
  intro p i pn hheld
  have hp : w.Live p := fun hd => by
    rw [hb.wf.dead p _ hd] at hheld
    cases hheld
  exact ⟨p, hlive p hp, by rw [hb.counted _ _ _ hheld]⟩

/-- No page becomes read-only or goes to another owner. -/
theorem of_kept (h : w.Rooted roots) (hkept : ∀ p i pn, w'.held (p, .page i) = some ⟨pn, false⟩ →
    (∃ q j, w.held (q, .page j) = some ⟨pn, false⟩) ∧ (w'.info pn).owner = (w.info pn).owner) :
    w'.Rooted roots := by
  intro p i pn hheld
  obtain ⟨⟨q, j, hold⟩, howner⟩ := hkept p i pn hheld
  rw [howner]
  exact h q j pn hold

theorem pageAlloc (h : w.Rooted roots) (hex : w.Exact L)
    (haddr : procStartAddr ≤ addr ∧ addr < memsizeVirtual) :
    (w.pageAlloc w.current addr).Rooted roots := by
  cases hpn : lowestFree w.info with
  | none =>
      rw [World.pageAlloc, hpn]
      exact h
  | some new =>
      rw [pageAlloc_give haddr.1 haddr.2 hpn]
      refine h.of_kept fun p i pn hheld => ?_
      rw [give_held] at hheld
      by_cases hp : (p, Slot.page i) = (w.current, .page (addr / 4096))
      · rw [hp, Function.update_self] at hheld
        cases hheld
      · rw [Function.update_of_ne hp] at hheld
        have hne : pn ≠ new := by
          rintro rfl
          exact hex.counted hheld (lowestFree_eq_some hpn).2.2
        exact ⟨⟨p, i, hheld⟩, by rw [give_info, Function.update_of_ne hne]⟩

theorem fork (h : w.Rooted roots) (hex : w.Exact L) (hw : w.Wf L) (hrun : w.Live w.current)
    (hreg : w.Regular (fun _ => Tally.exact) .fork addr) : w.fork.1.Rooted roots := by
  cases hslot : findFreeSlot w.state (nProc - 1) 1 with
  | none =>
      rw [World.fork, hslot]
      exact h
  | some c =>
      have hsome : (findFreeSlot w.state (nProc - 1) 1).isSome := by
        rw [hslot]
        rfl
      have hroom := hreg.room rfl hsome
      obtain ⟨hf, -⟩ := fork_forked hw hrun hslot (by omega)
      obtain ⟨hex', hrec⟩ := hex.fork_into hw hrun hslot (hreg.safe rfl hsome) hroom
      have howner {p i pn : ℕ} (hheld : w.held (p, .page i) = some ⟨pn, false⟩) :
          (w.fork.1.info pn).owner = (w.info pn).owner := by
        by_cases hshared : ∃ x, 256 ≤ x ∧ w.held (w.current, .page x) = some ⟨pn, false⟩
        · obtain ⟨x, hx, hheld'⟩ := hshared
          rw [hrec.shared x pn hx (mem_places_page.mp (hex.place _ _ hheld').1).2.2 hheld']
        · rw [hrec.other pn (hex.counted hheld) fun x hx hc => hshared ⟨x, hx, hc⟩]
      refine h.of_kept fun p i pn hheld => ?_
      by_cases hp : p = c
      · subst p
        obtain ⟨-, hlo, hhi⟩ := mem_places_page.mp (hex'.place _ _ hheld).1
        rcases hr : w.held (w.current, .page i) with _ | ⟨f, _ | _⟩
        · rw [hf.unmapped i hlo hhi hr] at hheld
          cases hheld
        · rw [hf.shared i f hlo hhi hr] at hheld
          obtain rfl : f = pn := congrArg Ref.frame (Option.some.inj hheld)
          exact ⟨⟨_, _, hr⟩, howner hr⟩
        · obtain ⟨f', hf'⟩ := hf.copied i f hlo hhi hr
          rw [hf'] at hheld
          cases hheld
      · rw [hf.other p _ hp] at hheld
        exact ⟨⟨p, i, hheld⟩, howner hheld⟩

theorem exit (h : w.Rooted roots) (hex : w.Exact L) (hw : w.Wf L) (hrun : w.Live w.current) :
    w.exit.Rooted roots := by
  have hex' := hex.exit hw hrun
  have howners := ownersKept_exit w
  have hsame (x : ℕ × Slot) := exit_held hw hrun x
  generalize w.exit = w' at *
  refine h.of_kept fun p i pn hheld => ?_
  have howner := (howners pn (hex'.counted hheld)).2
  rw [hsame] at hheld
  split_ifs at hheld
  exact ⟨⟨p, i, hheld⟩, howner⟩

theorem trap (h : w.Rooted roots) (hex : w.Exact L) (hw : w.Wf L) (hrun : w.Live w.current)
    (hreg : w.Regular (fun _ => Tally.exact) t addr) : (w.trap t addr).1.Rooted roots := by
  have hmid : (w.dispatch t addr).1.Rooted roots := by
    unfold World.dispatch
    split
    · exact h
    · exact h
    · exact h.pageAlloc hex (hreg.range rfl).2
    · exact h.fork hex hw hrun hreg
    · exact h.exit hex hw hrun
    · exact h
    · exact h
  refine hmid.of_kept fun p i pn hheld => ?_
  rw [World.trap, (leave_same _ _).held] at hheld
  exact ⟨⟨p, i, hheld⟩, by rw [World.trap, (leave_same _ _).info]⟩

/-- Nothing that another process owns is shared. -/
theorem alone (h : w.Rooted roots) (hex : w.Exact L) (hw : w.Wf L) {p pn : ℕ} (hp : p ∉ roots)
    (hlt : pn < nPages) (ho : (w.info pn).owner = p) : (w.info pn).refcount ≤ 1 := by
  by_cases hu : usable L pn
  · have hwritable {x : ℕ × Slot} {b : Bool} (hx : w.held x = some ⟨pn, b⟩) : b = true := by
      cases b with
      | true => rfl
      | false =>
          obtain ⟨q, s | i⟩ := x
          · have hlive : w.Live q := fun hd => by
              rw [hw.dead q _ hd] at hx
              cases hx
            rw [hw.tables q hlive s] at hx
            cases hx
          · obtain ⟨r, hr, howner⟩ := h q i pn hx
            have : r = p := by
              rw [ho] at howner
              exact (Int.ofNat.inj howner).symm
            exact absurd (this ▸ hr) hp
    have hone : w.refs pn ≤ 1 := RefLedger.count_le_one fun x y hx hy => by
      obtain ⟨⟨f, b⟩, hx', hf⟩ := frameAt_eq_some.mp hx
      obtain ⟨r, hy', hf'⟩ := frameAt_eq_some.mp hy
      obtain rfl : f = pn := hf
      obtain rfl := hwritable hx'
      exact hex.unique hx' hy' hf'
    rw [hex.refcount hu]
    omega
  · rw [hw.kernel pn hu, pageinfoInit_refcount hlt hu]

end Rooted

end World

variable {L : KernelLayout} {images : ℕ → ElfImage} {command : Option String} {M : Machine}

theorem reach_rooted (hfit : ImagesFit L images command) (hdisj : ImagesDisjoint images command)
    (h : Machine.Reach L images command Disciplined M) :
    Tracks L (fun w => w.Exact L ∧ w.Rooted (started command)) M := by
  refine reach_represents hfit (fun w hboot hb => ?_) (fun M w e hw hinv he => ?_)
    (fun M w cpu t hw hres _ hinv he => ?_) h
  · refine ⟨Tallied.of_booting _ hb (boot_complete hfit hdisj hboot), .of_booting hb fun p hp => ?_⟩
    obtain ⟨w', hw', -, -, hst⟩ := boot_some hfit
    obtain rfl := Option.some.inj (hboot.symm.trans hw')
    by_contra hn
    exact hp ((hst p).trans (if_neg hn))
  · exact he.admits hw hinv.1
  · obtain ⟨hex, hroot⟩ := hinv
    have hrun := hw.live hres
    have hreg := he.regular hw hrun hex
    exact ⟨hex.trap hw.wf hrun hreg, hroot.trap hex hw.wf hrun hreg⟩

/-- Discipline under which the processes that the kernel started do not exit. -/
def Settled (command : Option String) (M : Machine) (e : Event) : Prop :=
  Disciplined M e ∧ ∀ cpu, e = .trap cpu .exit → M.kernel.current ∉ started command

theorem Settled.orderly (hfit : ImagesFit L images command) (hdisj : ImagesDisjoint images command)
    (h : Machine.Reach L images command Orderly M) {e : Event} (he : Settled command M e) :
    Orderly M e := by
  refine ⟨he.1, ?_⟩
  cases e with
  | store => trivial
  | trap cpu t =>
      rintro rfl pn hlt ho
      obtain ⟨w, hw, hex, hroot⟩ := reach_rooted hfit hdisj (h.mono fun _ _ he => he.1)
      rw [hw.sim.info] at ho ⊢
      exact hroot.alone hex hw.wf (he.2 cpu rfl) hlt ho

end WeensyOS
