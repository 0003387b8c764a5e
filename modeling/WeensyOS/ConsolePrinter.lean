import WeensyOS.Console
import WeensyOS.Printer

/-!
# Printing to the console

`console_putc` as a printer, with the list of the cells it has written. A newline fills the row from
the cursor on without another look at the end of the screen; it stays on the screen because rows and
the screen end together.
-/

namespace WeensyOS.Printer
open ByteMemory

/-- `console_printer`, with the cells written so far. -/
structure ConsolePrinter where
  mem : Memory
  cursor : ℕ
  cells : List ℕ

/-- `*cp->cursor++ = v` -/
def ConsolePrinter.write (cp : ConsolePrinter) (v : ℕ) : ConsolePrinter :=
  ⟨setCell cp.mem cp.cursor v, cp.cursor + 1, cp.cursor :: cp.cells⟩

def blankRow (color : BitVec 32) : ℕ → ConsolePrinter → ConsolePrinter
  | 0, cp => cp
  | n + 1, cp => blankRow color n (cp.write (0x20 ||| color.toNat))

def consolePutc (cp : ConsolePrinter) (c : UInt8) (color : BitVec 32) : ConsolePrinter :=
  let cp := if cp.cursor ≥ consoleCells then { cp with cursor := 0 } else cp
  if c = 0x0A then blankRow color (80 - cp.cursor % 80) cp
  else cp.write (c.toNat ||| color.toNat)

/-- `console_vprintf`; its result is the cursor. -/
def consoleVprintf (m : Memory) (cpos : ℤ) (color : BitVec 32) (val : VaList) (format : Chars) :
    ConsolePrinter :=
  let cpos := if cpos < 0 ∨ cpos ≥ consoleCells then 0 else cpos
  printerVprintf consolePutc ⟨m, cpos.toNat, []⟩ color val format

def cursorposAddr : ℕ := 0xB8FFC

def cursorpos (m : Memory) : ℤ := (BitVec.ofNat 32 (loadLE m cursorposAddr 4)).toInt

def setCursorpos (m : Memory) (cpos : ℕ) : Memory := storeLE m cursorposAddr cpos 4

def printfColor (colorid : ℤ) : BitVec 32 :=
  if colorid < 0 then 0x0700
  else BitVec.ofNat 32 ([0x0E, 0x0F, 0x0C, 0x0A, 0x09].getD (colorid.toNat % 5) 0 <<< 8)

/-- `app_printf`: the memory after it, and the cells that it wrote. -/
def appPrintf (m : Memory) (colorid : ℤ) (val : VaList) (format : Chars) : Memory × List ℕ :=
  let cp := consoleVprintf m (cursorpos m) (printfColor colorid) val format
  let m := setCursorpos cp.mem cp.cursor
  (if cursorpos m / 80 ≥ 23 then setCursorpos m (cpos 0 0) else m, cp.cells)

/-- The arguments of an `app_printf`. -/
structure PrintfCall where
  colorid : ℤ
  val : VaList
  format : Chars

def appPrintfs (m : Memory) (calls : List PrintfCall) : Memory × List ℕ :=
  calls.foldl (fun s call =>
    let r := appPrintf s.1 call.colorid call.val call.format
    (r.1, r.2 ++ s.2)) (m, [])

/-! What every character keeps. -/

/-- A byte of a cell of the screen. -/
def ScreenByte (a : ℕ) : Prop := consoleAddr ≤ a ∧ a < consoleAddr + 2 * consoleCells

structure OnScreen (m : Memory) (cp : ConsolePrinter) : Prop where
  cursor : cp.cursor ≤ consoleCells
  cells : ∀ i ∈ cp.cells, i < consoleCells
  frame : ∀ a, ¬ ScreenByte a → cp.mem a = m a

namespace OnScreen
variable {m : Memory} {cp : ConsolePrinter} (h : OnScreen m cp)

include h

theorem write (v : ℕ) (hlt : cp.cursor < consoleCells) : OnScreen m (cp.write v) where
  cursor := hlt
  cells i hi := by
    rcases List.mem_cons.mp hi with rfl | hi
    · exact hlt
    · exact h.cells i hi
  frame a ha := by
    simp only [ScreenByte, consoleCells, consoleAddr] at ha hlt
    refine (storeLE_of_outside _ _ _ _ _ ?_).trans (h.frame a ha)
    simp only [consoleAddr]
    omega

theorem blankRow (color : BitVec 32) (n : ℕ) (hn : cp.cursor + n ≤ consoleCells) :
    OnScreen m (blankRow color n cp) := by
  induction n generalizing cp with
  | zero => exact h
  | succ n ih =>
      apply ih (h.write _ (by omega))
      change cp.cursor + 1 + n ≤ consoleCells
      omega

/-- Rows end where the screen ends, so a newline does not run over it. -/
theorem putc (c : UInt8) (color : BitVec 32) : OnScreen m (consolePutc cp c color) := by
  have hwrap : OnScreen m (if cp.cursor ≥ consoleCells then { cp with cursor := 0 } else cp) ∧
      (if cp.cursor ≥ consoleCells then { cp with cursor := 0 } else cp).cursor < consoleCells := by
    split_ifs with hend
    · exact ⟨⟨Nat.zero_le _, h.cells, h.frame⟩, by norm_num⟩
    · exact ⟨h, Nat.lt_of_not_le hend⟩
  unfold consolePutc
  generalize (if cp.cursor ≥ consoleCells then { cp with cursor := 0 } else cp) = cp' at hwrap
  obtain ⟨hcp, hlt⟩ := hwrap
  dsimp only
  split_ifs
  · apply hcp.blankRow
    simp only [consoleCells] at hlt ⊢
    omega
  · exact hcp.write _ hlt

theorem printed (out : List (UInt8 × BitVec 32)) :
    OnScreen m (out.foldl (fun cp p => consolePutc cp p.1 p.2) cp) := by
  induction out generalizing cp with
  | nil => exact h
  | cons p out ih => exact ih (h.putc p.1 p.2)

end OnScreen

theorem onScreen_consoleVprintf (m : Memory) (cpos : ℤ) (color : BitVec 32) (val : VaList)
    (format : Chars) : OnScreen m (consoleVprintf m cpos color val format) := by
  unfold consoleVprintf
  rw [printerVprintf_eq]
  apply OnScreen.printed
  refine ⟨?_, by simp, fun _ _ => rfl⟩
  simp only [consoleCells]
  split_ifs
  · exact Nat.zero_le _
  · omega

theorem cursorpos_setCursorpos (m : Memory) (cpos : ℕ) (h : cpos < 2 ^ 31) :
    cursorpos (setCursorpos m cpos) = cpos := by
  unfold cursorpos setCursorpos
  rw [loadLE_storeLE_same, Nat.mod_eq_of_lt (by omega), BitVec.toInt_eq_toNat_of_lt]
  · rw [BitVec.toNat_ofNat, Nat.mod_eq_of_lt (by omega)]
  · rw [BitVec.toNat_ofNat, Nat.mod_eq_of_lt (by omega)]
    omega

theorem appPrintf_spec (m : Memory) (colorid : ℤ) (val : VaList) (format : Chars) :
    (∀ i ∈ (appPrintf m colorid val format).2, i < consoleCells) ∧
      0 ≤ cursorpos (appPrintf m colorid val format).1 ∧
      cursorpos (appPrintf m colorid val format).1 < 23 * 80 ∧
      ∀ a, ¬ ScreenByte a → ¬ (cursorposAddr ≤ a ∧ a < cursorposAddr + 4) →
        (appPrintf m colorid val format).1 a = m a := by
  have hscreen := onScreen_consoleVprintf m (cursorpos m) (printfColor colorid) val format
  unfold appPrintf
  dsimp only
  generalize consoleVprintf m (cursorpos m) (printfColor colorid) val format = cp at hscreen
  have hle := hscreen.cursor
  simp only [consoleCells] at hle
  have hpos := cursorpos_setCursorpos cp.mem cp.cursor (by omega)
  refine ⟨hscreen.cells, ?_⟩
  have hframe (m' : Memory) (v a : ℕ) (ha : ¬ (cursorposAddr ≤ a ∧ a < cursorposAddr + 4)) :
      setCursorpos m' v a = m' a := storeLE_of_outside _ _ _ _ _ (by omega)
  split_ifs with hlast
  · rw [cursorpos_setCursorpos _ _ (by unfold cpos; norm_num)]
    refine ⟨by unfold cpos; norm_num, by unfold cpos; norm_num, fun a hcell ha => ?_⟩
    rw [hframe _ _ _ ha, hframe _ _ _ ha, hscreen.frame a hcell]
  · rw [hpos] at hlast ⊢
    refine ⟨by omega, by omega, fun a hcell ha => ?_⟩
    rw [hframe _ _ _ ha, hscreen.frame a hcell]

theorem appPrintfs_cells (m : Memory) (calls : List PrintfCall) (cells : List ℕ)
    (h : ∀ i ∈ cells, i < consoleCells) :
    ∀ i ∈ (calls.foldl (fun s call =>
      let r := appPrintf s.1 call.colorid call.val call.format
      (r.1, r.2 ++ s.2)) (m, cells)).2, i < consoleCells := by
  induction calls generalizing m cells with
  | nil => exact h
  | cons call calls ih =>
      apply ih
      intro i hi
      rcases List.mem_append.mp hi with hi | hi
      · exact (appPrintf_spec m call.colorid call.val call.format).1 i hi
      · exact h i hi

/-! The kernel's own output is the same: its texts are what a `console_printf` emits. -/

section kernel

def ConsolePrinter.state (cp : ConsolePrinter) : Memory × ℕ := (cp.mem, cp.cursor)

theorem blankRow_state (color : BitVec 32) (n : ℕ) (cp : ConsolePrinter) :
    (blankRow color n cp).state = blankCells color.toNat n cp.state := by
  induction n generalizing cp with
  | zero => rfl
  | succ n ih => exact ih (cp.write (0x20 ||| color.toNat))

theorem consolePutc_state (cp : ConsolePrinter) (c : UInt8) (color : BitVec 32) :
    (consolePutc cp c color).state = WeensyOS.consolePutc color.toNat cp.state c.toNat := by
  have hnewline : c = 0x0A ↔ c.toNat = 0x0A := UInt8.toNat_inj.symm
  have hwrap : (if cp.cursor ≥ consoleCells then { cp with cursor := 0 } else cp).state =
      (cp.state.1, if cp.state.2 ≥ consoleCells then 0 else cp.state.2) := by
    change _ = (cp.mem, if cp.cursor ≥ consoleCells then 0 else cp.cursor)
    split_ifs
    · rfl
    · rfl
  unfold consolePutc WeensyOS.consolePutc
  generalize (if cp.cursor ≥ consoleCells then { cp with cursor := 0 } else cp) = cp' at hwrap ⊢
  obtain ⟨hmem, hcursor⟩ := Prod.mk.inj hwrap
  dsimp only
  rw [← hmem, ← hcursor]
  by_cases hc : c = 0x0A
  · rw [if_pos hc, if_pos (hnewline.mp hc)]
    exact blankRow_state color _ cp'
  · rw [if_neg hc, if_neg (hnewline.not.mp hc)]
    rfl

theorem consoleVprintf_state (m : Memory) (cpos : ℤ) (color : BitVec 32) (val : VaList)
    {format out : Chars} (h : emitted color val format = out.map (·, color)) :
    (consoleVprintf m cpos color val format).state =
      consolePrintf m cpos color.toNat (out.map UInt8.toNat) := by
  have hfold (out : Chars) (cp : ConsolePrinter) :
      (out.foldl (fun cp c => consolePutc cp c color) cp).state =
        (out.map UInt8.toNat).foldl (WeensyOS.consolePutc color.toNat) cp.state := by
    induction out generalizing cp with
    | nil => rfl
    | cons c out ih => rw [List.foldl_cons, ih, consolePutc_state, List.map_cons, List.foldl_cons]
  unfold consoleVprintf consolePrintf
  rw [printerVprintf_eq, h, List.foldl_map]
  have hstart : (if cpos < 0 ∨ cpos ≥ consoleCells then 0 else cpos).toNat =
      if cpos < 0 ∨ cpos ≥ consoleCells then 0 else cpos.toNat := by
    split_ifs
    · rfl
    · rfl
  dsimp only
  rw [← hstart]
  exact hfold out _

end kernel

/-- Console output stays on the screen, whatever the cursor, the color, the format and the
arguments, and `app_printf` leaves a cursor on the first 23 rows. -/
theorem console_inBounds :
    (∀ m cpos color val format, let cp := consoleVprintf m cpos color val format
      (∀ i ∈ cp.cells, i < consoleCells) ∧ cp.cursor ≤ consoleCells ∧
        ∀ a, ¬ ScreenByte a → cp.mem a = m a) ∧
    ∀ m calls, calls ≠ [] → (∀ i ∈ (appPrintfs m calls).2, i < consoleCells) ∧
      0 ≤ cursorpos (appPrintfs m calls).1 ∧ cursorpos (appPrintfs m calls).1 < 23 * 80 := by
  constructor
  · intro m cpos color val format
    have h := onScreen_consoleVprintf m cpos color val format
    exact ⟨h.cells, h.cursor, h.frame⟩
  · intro m calls hne
    refine ⟨appPrintfs_cells m calls [] (by simp), ?_⟩
    obtain ⟨before, last, rfl⟩ := List.eq_nil_or_concat' calls |>.resolve_left hne
    unfold appPrintfs
    rw [List.foldl_append]
    obtain ⟨-, h1, h2, -⟩ := appPrintf_spec (appPrintfs m before).1 last.colorid last.val
      last.format
    exact ⟨h1, h2⟩

end WeensyOS.Printer
