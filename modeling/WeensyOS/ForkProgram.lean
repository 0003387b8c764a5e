import WeensyOS.AllocatorRuns
import Mathlib.Algebra.Order.BigOperators.Group.Finset

/-!
# The fork program

p-fork.c: two forks one after the other, so that there are four processes in the end, the checks of
what the forks returned, and then an allocator in each process. None of the checks fails.
-/

namespace WeensyOS.Fork
open ByteMemory World Runs UserProgram

/-- Where `process_main` is before it goes on like p-allocator.c. -/
inductive Stage where
  | first
  | second
  | check
  | main
  | failed
  deriving DecidableEq, Repr

structure State where
  stage : Stage
  p1 : BitVec 32
  p2 : BitVec 32
  rest : Allocator.State
  deriving DecidableEq, Repr

/-- `assert(c)`, and on to `next`. -/
def State.assert (s : State) (c : Prop) [Decidable c] (next : Stage) : State :=
  { s with stage := if c then next else .failed }

/-- The values of `p1` and `p2` that a process with number `pid` accepts. -/
def answersOk (pid p1 p2 : BitVec 32) : Prop :=
  if pid = 1 then p1 ≠ 0 ∧ p2 ≠ 0 ∧ p1 ≠ p2 else p1 = 0 ∨ p2 = 0

instance (pid p1 p2 : BitVec 32) : Decidable (answersOk pid p1 p2) := by
  unfold answersOk
  infer_instance

def resume (s : State) (v : BitVec 64) : State :=
  match s.stage with
  | .first => { s with p1 := v.setWidth 32 }.assert (0 ≤ (v.setWidth 32).toInt) .second
  | .second => { s with p2 := v.setWidth 32 }.assert (0 ≤ (v.setWidth 32).toInt) .check
  | .check => s.assert (answersOk (v.setWidth 32) s.p1 s.p2) .main
  | .main => { s with rest := Allocator.resume s.rest v }
  | .failed => s

def act (s : State) : Act :=
  match s.stage with
  | .first => .fork
  | .second => .fork
  | .check => .getpid
  | .main => Allocator.act s.rest
  | .failed => .panic

def program : UserProgram State := ⟨act, resume, fun s => Allocator.own s.rest⟩

def start (endAddr rsp : ℕ) : State := ⟨.first, 0, 0, Allocator.start endAddr rsp⟩

/-- The allocator part is sound, and does not start too early. -/
structure Inv (p : ℕ) (s : State) (memory : ℕ → Option Cell) : Prop where
  rest : Allocator.Inv p s.rest memory
  waiting : s.stage ≠ .main → s.rest.pc = .getpid

section act
variable {p : ℕ} {s : State} {memory : ℕ → Option Cell}

theorem act_fork (h : act s = .fork) : s.stage = .first ∨ s.stage = .second := by
  unfold act at h
  split at h
  case h_1 hstage => exact .inl hstage
  case h_2 hstage => exact .inr hstage
  case h_4 => exact absurd h (Allocator.act_ne _).1
  all_goals cases h

theorem act_ne_exit (s : State) : act s ≠ .exit := by
  unfold act
  split
  case h_4 => exact (Allocator.act_ne _).2.1
  all_goals simp

theorem act_panic (h : act s = .panic) : s.stage = .failed := by
  unfold act at h
  split at h
  case h_5 hstage => exact hstage
  case h_4 => exact absurd h (Allocator.act_ne _).2.2
  all_goals cases h

theorem act_check (h : s.stage = .check) : program.act s = .getpid := by
  change act s = .getpid
  rw [act, h]

theorem act_getpid (h : act s = .getpid) :
    s.stage = .check ∨ s.stage = .main ∧ Allocator.act s.rest = .getpid := by
  unfold act at h
  split at h
  case h_3 hstage => exact .inl hstage
  case h_4 hstage => exact .inr ⟨hstage, h⟩
  all_goals cases h

/-- Everything else is what the allocator does. -/
theorem act_main {a : Act} (h : act s = a) (hfork : a ≠ .fork) (hpanic : a ≠ .panic)
    (hgetpid : a ≠ .getpid) : s.stage = .main ∧ Allocator.act s.rest = a := by
  unfold act at h
  split at h
  case h_4 hstage => exact ⟨hstage, h⟩
  case h_3 => exact absurd h.symm hgetpid
  case h_5 => exact absurd h.symm hpanic
  all_goals exact absurd h.symm hfork

theorem resume_eq (v : BitVec 64) : program.resume s v = resume s v := rfl

theorem resume_main (h : s.stage = .main) (v : BitVec 64) :
    program.resume s v = { s with rest := Allocator.program.resume s.rest v } := by
  rw [resume_eq, resume, h]
  rfl

/-- Until then the allocator part waits. -/
theorem resume_rest (h : s.stage ≠ .main) (v : BitVec 64) :
    (program.resume s v).rest = s.rest := by
  rw [resume_eq]
  unfold resume
  split
  case h_4 hstage => exact absurd hstage h
  all_goals rfl

theorem Inv.wait (h : Inv p s memory) (hstage : s.stage ≠ .main) (q : ℕ) (v : BitVec 64) :
    Inv q (program.resume s v) memory := by
  have hpc := h.waiting hstage
  refine ⟨?_, fun _ => ?_⟩
  · rw [resume_rest hstage]
    exact h.rest.renumber hpc q
  · rw [resume_rest hstage]
    exact hpc

theorem Inv.of_main {m : ℕ → Option Cell} {v : BitVec 64} (hstage : s.stage = .main)
    (h : Allocator.Inv p (Allocator.program.resume s.rest v) m) :
    Inv p (program.resume s v) m := by
  rw [resume_main hstage]
  exact ⟨h, fun hne => absurd hstage hne⟩

end act

theorem keeps (home : List ℕ) : program.Keeps home Inv := by
  have hrest := Allocator.keeps home
  constructor
  case own =>
    intro p s va b d x h hown hcell
    exact ⟨hrest.own h.rest hown hcell, h.waiting⟩
  case target =>
    intro p s va b memory h hact
    exact hrest.target h.rest (act_main hact nofun nofun nofun).2
  case store =>
    intro p s va b x h hact v
    obtain ⟨hmain, hact⟩ := act_main hact nofun nofun nofun
    exact .of_main hmain (hrest.store h.rest hact v)
  case getpid =>
    intro p s memory h hact
    rcases act_getpid hact with hcheck | ⟨hmain, hact⟩
    · exact h.wait (by rw [hcheck]; decide) p _
    · exact .of_main hmain (hrest.getpid h.rest hact)
  case yield =>
    intro p s memory h hact v
    obtain ⟨hmain, hact⟩ := act_main hact nofun nofun nofun
    exact .of_main hmain (hrest.yield h.rest hact v)
  case fresh =>
    intro p s addr memory h hact
    exact hrest.fresh h.rest (act_main hact nofun nofun nofun).2
  case page =>
    intro p s addr x h hact contents
    obtain ⟨hmain, hact⟩ := act_main hact nofun nofun nofun
    exact .of_main hmain (hrest.page h.rest hact contents)
  case full =>
    intro p s addr memory h hact
    obtain ⟨hmain, hact⟩ := act_main hact nofun nofun nofun
    exact .of_main hmain (hrest.full h.rest hact)
  case fork =>
    intro p s memory h hact q _ _ _ _
    have hstage : s.stage ≠ .main := by
      rcases act_fork hact with hstage | hstage <;> rw [hstage] <;> decide
    exact ⟨h.wait hstage p _, h.wait hstage q _⟩
  case noSlot =>
    intro p s memory h hact
    have hstage : s.stage ≠ .main := by
      rcases act_fork hact with hstage | hstage <;> rw [hstage] <;> decide
    exact h.wait hstage p _
  case exit => exact fun _ hact => absurd hact (act_ne_exit _)

end WeensyOS.Fork
