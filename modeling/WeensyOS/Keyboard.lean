import Mathlib.Data.Nat.Init
import Mathlib.Data.List.Basic
import Mathlib.Data.List.GetD
import Mathlib.Data.List.ReduceOption
import Mathlib.Tactic.Common

/-!
# The keyboard

`keyboard_readc` turns the scan codes of the keyboard into characters, one poll at a time, with the
held and the locked modifiers and a pending `0xE0` in static variables. `check_keyboard` acts on
the character.
-/

namespace WeensyOS

/-- `modifiers` and `last_escape`, the static variables of `keyboard_readc`. -/
structure Keyboard where
  modifiers : BitVec 8
  lastEscape : BitVec 8
  deriving DecidableEq, Repr

namespace Keyboard

def initial : Keyboard := ⟨0, 0⟩

@[simp] abbrev modShift : BitVec 8 := 1
@[simp] abbrev modControl : BitVec 8 := 2
@[simp] abbrev modCapslock : BitVec 8 := 8

def keyUp : ℕ := 0xC0
def keyRight : ℕ := 0xC1
def keyDown : ℕ := 0xC2
def keyLeft : ℕ := 0xC3
def keyHome : ℕ := 0xC4
def keyEnd : ℕ := 0xC5
def keyPageup : ℕ := 0xC6
def keyPagedown : ℕ := 0xC7
def keyInsert : ℕ := 0xC8
def keyDelete : ℕ := 0xC9

@[simp] abbrev keyShift : ℕ := 0xFA
@[simp] abbrev keyControl : ℕ := 0xFB
@[simp] abbrev keyAlt : ℕ := 0xFC
@[simp] abbrev keyCapslock : ℕ := 0xFD
@[simp] abbrev keyNumlock : ℕ := 0xFE
@[simp] abbrev keyScrolllock : ℕ := 0xFF

def ckey (cn : ℕ) : ℕ := 0x80 + cn

def char (c : Char) : ℕ := c.toNat

/-- `n` scan codes without a key. -/
def noKeys (n : ℕ) : List ℕ := List.replicate n 0

def keymap : List ℕ :=
  -- 0x00
  [0, 0x1B, ckey 0, ckey 1, ckey 2, ckey 3, ckey 4, ckey 5,
    ckey 6, ckey 7, ckey 8, ckey 9, ckey 10, ckey 11, 0x08, 0x09] ++
  -- 0x10
  [char 'q', char 'w', char 'e', char 'r', char 't', char 'y', char 'u', char 'i',
    char 'o', char 'p', ckey 12, ckey 13, ckey 14, keyControl, char 'a', char 's'] ++
  -- 0x20
  [char 'd', char 'f', char 'g', char 'h', char 'j', char 'k', char 'l', ckey 15,
    ckey 16, ckey 17, keyShift, ckey 18, char 'z', char 'x', char 'c', char 'v'] ++
  -- 0x30
  [char 'b', char 'n', char 'm', ckey 19, ckey 20, ckey 21, keyShift, char '*',
    keyAlt, char ' ', keyCapslock] ++ noKeys 5 ++
  -- 0x40
  noKeys 5 ++ [keyNumlock, keyScrolllock, char '7',
    char '8', char '9', char '-', char '4', char '5', char '6', char '+', char '1'] ++
  -- 0x50
  [char '2', char '3', char '0', char '.'] ++ noKeys 12 ++
  -- 0x60 to 0x8F
  noKeys 48 ++
  -- 0x90
  noKeys 12 ++ [ckey 14, keyControl] ++ noKeys 2 ++
  -- 0xA0
  noKeys 16 ++
  -- 0xB0
  noKeys 5 ++ [char '/', 0, 0, keyAlt] ++ noKeys 7 ++
  -- 0xC0
  noKeys 7 ++ [keyHome, keyUp, keyPageup, 0, keyLeft, 0, keyRight, 0, keyEnd] ++
  -- 0xD0
  [keyDown, keyPagedown, keyInsert, keyDelete] ++ noKeys 12 ++
  -- 0xE0 to 0xFF
  noKeys 32

/-- What the keys `CKEY` give plain, with shift, with control and with both. -/
def complexKeymap : List (List ℕ) :=
  [[char '1', char '!', 0, 0], [char '2', char '@', 0, 0], [char '3', char '#', 0, 0],
    [char '4', char '$', 0, 0], [char '5', char '%', 0, 0], [char '6', char '^', 0, 0x1E],
    [char '7', char '&', 0, 0], [char '8', char '*', 0, 0], [char '9', char '(', 0, 0],
    [char '0', char ')', 0, 0], [char '-', char '_', 0, 0x1F], [char '=', char '+', 0, 0],
    [char '[', 0x7B, 0x1B, 0], [char ']', 0x7D, 0x1D, 0], [0x0A, 0x0A, 0x0D, 0x0D],
    [char ';', char ':', 0, 0], [0x27, 0x22, 0, 0], [0x60, char '~', 0, 0],
    [0x5C, char '|', 0x1C, 0], [char ',', char '<', 0, 0], [char '.', char '>', 0, 0],
    [char '/', char '?', 0, 0]]

/-- `keyboard_readc`, where `input` is the next scan code if the status register has one. -/
def readc (kb : Keyboard) : Option (BitVec 8) → Keyboard × ℤ
  | none => (kb, -1)
  | some data =>
    let escape := kb.lastEscape
    let kb := { kb with lastEscape := 0 }
    if data = 0xE0 then ({ kb with lastEscape := 0x80 }, 0)
    else if data &&& 0x80 ≠ 0 then
      let ch := keymap.getD (data &&& 0x7F ||| escape).toNat 0
      if keyShift ≤ ch ∧ ch < keyCapslock then
        ({ kb with modifiers := kb.modifiers &&& ~~~(1#8 <<< (ch - keyShift)) }, 0)
      else (kb, 0)
    else
      let ch := keymap.getD (data ||| escape).toNat 0
      if char 'a' ≤ ch ∧ ch ≤ char 'z' then
        if kb.modifiers &&& modControl ≠ 0 then (kb, ch - 0x60)
        else if ¬ (kb.modifiers &&& modShift = 0 ↔ kb.modifiers &&& modCapslock = 0) then
          (kb, ch - 0x20)
        else (kb, ch)
      else if keyCapslock ≤ ch then
        ({ kb with modifiers := kb.modifiers ^^^ 1#8 <<< (ch - keyShift) }, 0)
      else if keyShift ≤ ch then
        ({ kb with modifiers := kb.modifiers ||| 1#8 <<< (ch - keyShift) }, 0)
      else if ckey 0 ≤ ch ∧ ch ≤ ckey 21 then
        (kb, (complexKeymap.getD (ch - ckey 0) []).getD (kb.modifiers &&& 3).toNat 0)
      else if ch < 0x80 ∧ kb.modifiers &&& modControl ≠ 0 then (kb, 0)
      else (kb, ch)

/-- A key goes down or up: its scan code, which an extended key sends after `0xE0`. -/
structure KeyEvent where
  code : BitVec 7
  extended : Bool
  release : Bool
  code_ne : code ≠ 0x60

namespace KeyEvent

def scanCodes (e : KeyEvent) : List (BitVec 8) :=
  (if e.extended then [0xE0] else []) ++ [BitVec.ofBool e.release ++ e.code]

def symbol (e : KeyEvent) : ℕ :=
  keymap.getD (BitVec.ofBool e.extended ++ e.code : BitVec 8).toNat 0

end KeyEvent

/-- Whether a key `key` is held after the events `past`, latest first: two keys that stand for the
same modifier are one. -/
def held (key : ℕ) : List KeyEvent → Bool
  | [] => false
  | e :: past => if e.symbol = key then !e.release else held key past

def locked (key : ℕ) : List KeyEvent → Bool
  | [] => false
  | e :: past => if e.symbol = key ∧ e.release = false then !locked key past else locked key past

/-- The character that `e` types after the events `past`, or 0. -/
def KeyEvent.typed (past : List KeyEvent) (e : KeyEvent) : ℕ :=
  let ch := e.symbol
  let control := held keyControl past
  if e.release then 0
  else if char 'a' ≤ ch ∧ ch ≤ char 'z' then
    if control then ch - 0x60
    else if held keyShift past ≠ locked keyCapslock past then ch - 0x20
    else ch
  else if keyShift ≤ ch then 0
  else if ckey 0 ≤ ch ∧ ch ≤ ckey 21 then
    (complexKeymap.getD (ch - ckey 0) []).getD ((held keyShift past).toNat + 2 * control.toNat) 0
  else if ch < 0x80 ∧ control then 0
  else ch

/-- What the scan codes of `events` are read as: nothing for a prefix, and then the character. -/
def typedAll : List KeyEvent → List KeyEvent → List ℤ
  | _, [] => []
  | past, e :: events =>
    (if e.extended then [0] else []) ++ (e.typed past : ℤ) :: typedAll (e :: past) events

def readAll (kb : Keyboard) : List (Option (BitVec 8)) → List ℤ
  | [] => []
  | input :: inputs => (kb.readc input).2 :: readAll (kb.readc input).1 inputs

/-! The bits of `modifiers`. -/

def modifier (i : ℕ) (past : List KeyEvent) : Bool :=
  if i < 3 then held (keyShift + i) past else locked (keyShift + i) past

theorem modifier_cons (i : ℕ) (e : KeyEvent) (past : List KeyEvent) :
    modifier i (e :: past) = if e.symbol = keyShift + i then
      if i < 3 then !e.release else if e.release then modifier i past else !modifier i past
    else modifier i past := by
  unfold modifier
  by_cases hi : i < 3
  · simp only [if_pos hi, held]
  · simp only [if_neg hi, locked]
    cases e.release <;> simp

theorem keymap_lt (i : ℕ) : keymap.getD i 0 < 256 := by
  have hall : ∀ i : Fin 256, keymap.getD i 0 < 256 := by decide +kernel
  by_cases hi : i < 256
  · exact hall ⟨i, hi⟩
  · have hlength : keymap.length = 256 := by decide +kernel
    rw [List.getD_eq_default _ _ (by omega)]
    omega

theorem getLsbD_one_shift {n i : ℕ} (hn : n < 6) (hi : i < 6) :
    (1#8 <<< n).getLsbD i = decide (i = n) := by
  have hall : ∀ n i : Fin 6, (1#8 <<< n.val).getLsbD i.val = decide (i.val = n.val) := by
    decide +kernel
  exact hall ⟨n, hn⟩ ⟨i, hi⟩

/-- The bit of the modifier `ch`. -/
theorem getLsbD_modifier {ch i : ℕ} (hkey : keyShift ≤ ch) (hch : ch < 256) (hi : i < 6) :
    (1#8 <<< (ch - keyShift)).getLsbD i = decide (ch = keyShift + i) := by
  rw [getLsbD_one_shift (by simp only [keyShift] at *; omega) hi]
  exact decide_eq_decide.mpr (by omega)

section bits
variable (m : BitVec 8)

theorem and_shift_eq_zero : m &&& modShift = 0 ↔ m.getLsbD 0 = false := by
  revert m
  decide +kernel

theorem and_control_eq_zero : m &&& modControl = 0 ↔ m.getLsbD 1 = false := by
  revert m
  decide +kernel

theorem and_capslock_eq_zero : m &&& modCapslock = 0 ↔ m.getLsbD 3 = false := by
  revert m
  decide +kernel

theorem and_three : (m &&& 3).toNat = (m.getLsbD 0).toNat + 2 * (m.getLsbD 1).toNat := by
  revert m
  decide +kernel

end bits

/-! A key event is read as one character. -/

/-- The keyboard after the events `past`. -/
structure Matches (kb : Keyboard) (past : List KeyEvent) : Prop where
  escape : kb.lastEscape = 0
  modifiers : ∀ i < 6, kb.modifiers.getLsbD i = modifier i past

theorem matches_initial : initial.Matches [] := by
  refine ⟨rfl, fun i _ => ?_⟩
  unfold modifier
  split_ifs <;> simp [initial, held, locked]

def escapeOf (extended : Bool) : BitVec 8 := if extended then 0x80 else 0

theorem scanCode_press (code : BitVec 7) (extended : Bool) :
    (BitVec.ofBool false ++ code : BitVec 8) ≠ 0xE0 ∧
      (BitVec.ofBool false ++ code : BitVec 8) &&& 0x80 = 0 ∧
      (BitVec.ofBool false ++ code : BitVec 8) ||| escapeOf extended =
        BitVec.ofBool extended ++ code := by
  revert code extended
  decide +kernel

theorem scanCode_release (code : BitVec 7) (extended : Bool) :
    ((BitVec.ofBool true ++ code : BitVec 8) = 0xE0 → code = 0x60) ∧
      (BitVec.ofBool true ++ code : BitVec 8) &&& 0x80 ≠ 0 ∧
      (BitVec.ofBool true ++ code : BitVec 8) &&& 0x7F ||| escapeOf extended =
        BitVec.ofBool extended ++ code := by
  revert code extended
  decide +kernel

section event
variable {kb : Keyboard} {past : List KeyEvent} {e : KeyEvent}
  (hmods : ∀ i < 6, kb.modifiers.getLsbD i = modifier i past)

include hmods

/-- An ordinary key leaves `modifiers` alone. -/
theorem matches_ordinary (hsymbol : e.symbol < keyShift) :
    Matches ⟨kb.modifiers, 0⟩ (e :: past) := by
  refine ⟨rfl, fun i hi => (hmods i hi).trans ?_⟩
  rw [modifier_cons, if_neg (by omega)]

variable (hescape : kb.lastEscape = escapeOf e.extended)

include hescape

/-- The release of a held modifier clears its bit. Locked modifiers ignore releases. -/
theorem readc_release (hr : e.release = true) :
    ∃ kb', kb.readc (some (BitVec.ofBool e.release ++ e.code)) = (kb', 0) ∧
      kb'.Matches (e :: past) := by
  obtain ⟨hmark, hhigh, hindex⟩ := scanCode_release e.code e.extended
  have hsymbol : keymap.getD (BitVec.ofBool e.extended ++ e.code : BitVec 8).toNat 0 = e.symbol :=
    rfl
  have hk : keyShift = 0xFA := rfl
  have hc : keyCapslock = 0xFD := rfl
  rw [hr]
  unfold readc
  dsimp only
  rw [if_neg fun h => e.code_ne (hmark h), if_pos hhigh, hescape, hindex, hsymbol]
  split_ifs with hmod
  · refine ⟨_, rfl, rfl, fun i hi => ?_⟩
    rw [modifier_cons, hr, BitVec.getLsbD_and, BitVec.getLsbD_not, hmods i hi,
      getLsbD_modifier hmod.1 (by omega) hi]
    by_cases hi' : e.symbol = keyShift + i
    · rw [if_pos hi', if_pos (by omega), decide_eq_true hi']
      simp
    · have hbit : i < 8 := by omega
      rw [if_neg hi', decide_eq_false hi', decide_eq_true hbit]
      simp
  · refine ⟨_, rfl, rfl, fun i hi => (hmods i hi).trans ?_⟩
    rw [modifier_cons, hr]
    by_cases hi' : e.symbol = keyShift + i
    · rw [if_pos hi', if_neg (by omega), if_pos rfl]
    · rw [if_neg hi']

theorem readc_press (hr : e.release = false) :
    ∃ kb', kb.readc (some (BitVec.ofBool e.release ++ e.code)) = (kb', (e.typed past : ℤ)) ∧
      kb'.Matches (e :: past) := by
  obtain ⟨hmark, hhigh, hindex⟩ := scanCode_press e.code e.extended
  have hsymbol : keymap.getD (BitVec.ofBool e.extended ++ e.code : BitVec 8).toNat 0 = e.symbol :=
    rfl
  have hk : keyShift = 0xFA := rfl
  have hc : keyCapslock = 0xFD := rfl
  have hlt := keymap_lt (BitVec.ofBool e.extended ++ e.code : BitVec 8).toNat
  have hshift : kb.modifiers.getLsbD 0 = held keyShift past := hmods 0 (by omega)
  have hcontrol : kb.modifiers.getLsbD 1 = held keyControl past := hmods 1 (by omega)
  have hcaps : kb.modifiers.getLsbD 3 = locked keyCapslock past := hmods 3 (by omega)
  rw [hsymbol] at hlt
  rw [hr]
  unfold readc KeyEvent.typed
  dsimp only
  rw [if_neg hmark, if_neg (not_not.mpr hhigh), hescape, hindex, hsymbol, hr]
  rw [if_neg (show ¬ (false = true) by decide)]
  by_cases hletter : char 'a' ≤ e.symbol ∧ e.symbol ≤ char 'z'
  · have hhigh' : e.symbol ≤ 0x7A := hletter.2
    have hlow : 0x61 ≤ e.symbol := hletter.1
    refine ⟨_, ?_, matches_ordinary hmods (e := e) (by omega)⟩
    simp only [if_pos hletter, ne_eq, and_control_eq_zero, hcontrol, and_shift_eq_zero, hshift,
      and_capslock_eq_zero, hcaps]
    cases held keyControl past <;> cases held keyShift past <;> cases locked keyCapslock past <;>
      simp <;> omega
  rw [if_neg hletter, if_neg hletter]
  by_cases hlock : keyCapslock ≤ e.symbol
  · refine ⟨_, by rw [if_pos hlock, if_pos (by omega)]; rfl, rfl, fun i hi => ?_⟩
    rw [modifier_cons, hr, BitVec.getLsbD_xor, hmods i hi, getLsbD_modifier (by omega) hlt hi]
    by_cases hi' : e.symbol = keyShift + i
    · rw [if_pos hi', if_neg (by omega), decide_eq_true hi']
      simp
    · rw [if_neg hi', decide_eq_false hi']
      simp
  rw [if_neg hlock]
  by_cases hmod : keyShift ≤ e.symbol
  · refine ⟨_, by rw [if_pos hmod, if_pos hmod]; rfl, rfl, fun i hi => ?_⟩
    rw [modifier_cons, hr, BitVec.getLsbD_or, hmods i hi, getLsbD_modifier hmod hlt hi]
    by_cases hi' : e.symbol = keyShift + i
    · rw [if_pos hi', if_pos (by omega), decide_eq_true hi']
      simp
    · rw [if_neg hi', decide_eq_false hi']
      simp
  rw [if_neg hmod, if_neg hmod]
  refine ⟨_, ?_, matches_ordinary hmods (e := e) (by omega)⟩
  by_cases hcomplex : ckey 0 ≤ e.symbol ∧ e.symbol ≤ ckey 21
  · rw [if_pos hcomplex, if_pos hcomplex, and_three, hshift, hcontrol]
  · simp only [if_neg hcomplex, ne_eq, and_control_eq_zero, hcontrol]
    cases held keyControl past
    · simp
    · simp only [and_true, Bool.true_eq_false, not_false_eq_true]
      split_ifs <;> rfl

theorem readc_code : ∃ kb', kb.readc (some (BitVec.ofBool e.release ++ e.code)) =
    (kb', (e.typed past : ℤ)) ∧ kb'.Matches (e :: past) := by
  cases hr : e.release with
  | true =>
      have hnone : e.typed past = 0 := if_pos hr
      rw [hnone, ← hr]
      exact readc_release hmods hescape hr
  | false =>
      rw [← hr]
      exact readc_press hmods hescape hr

end event

theorem Matches.readAll_scanCodes {kb : Keyboard} {past : List KeyEvent} (h : kb.Matches past)
    (e : KeyEvent) (rest : List (Option (BitVec 8))) :
    ∃ kb', kb'.Matches (e :: past) ∧ readAll kb (e.scanCodes.map some ++ rest) =
      (if e.extended then [0] else []) ++ (e.typed past : ℤ) :: readAll kb' rest := by
  unfold KeyEvent.scanCodes
  cases hext : e.extended with
  | false =>
      obtain ⟨kb', hread, hkb'⟩ := readc_code (e := e) h.modifiers (by rw [h.escape, hext]; rfl)
      refine ⟨kb', hkb', ?_⟩
      simp [readAll, hread]
  | true =>
      have hmark : kb.readc (some 0xE0#8) = (⟨kb.modifiers, 0x80#8⟩, 0) := rfl
      have hmods : ∀ i < 6, (⟨kb.modifiers, 0x80#8⟩ : Keyboard).modifiers.getLsbD i =
          modifier i past := h.modifiers
      obtain ⟨kb', hread, hkb'⟩ := readc_code (e := e) hmods (by rw [hext]; rfl)
      refine ⟨kb', hkb', ?_⟩
      simp [readAll, hmark, hread]

theorem readc_nonneg (kb : Keyboard) (data : BitVec 8) : 0 ≤ (kb.readc (some data)).2 := by
  unfold readc
  dsimp only
  split_ifs with _ _ _ hletter <;> dsimp only <;> try omega
  all_goals
    have hlow : 0x61 ≤ keymap.getD (data ||| kb.lastEscape).toNat 0 := hletter.1
    omega

/-- Polls without a scan code change nothing. -/
theorem readAll_filter (kb : Keyboard) (inputs : List (Option (BitVec 8))) :
    (readAll kb inputs).filter (· ≠ -1) = readAll kb (inputs.reduceOption.map some) := by
  induction inputs generalizing kb with
  | nil => rfl
  | cons input inputs ih =>
      cases input with
      | none =>
          rw [List.reduceOption_cons_of_none]
          exact ih kb
      | some data =>
          have hnonneg := readc_nonneg kb data
          rw [List.reduceOption_cons_of_some, List.map_cons, readAll, readAll,
            List.filter_cons_of_pos (by simpa using by omega), ih]

theorem Matches.readAll_events {kb : Keyboard} {past : List KeyEvent} (h : kb.Matches past)
    (events : List KeyEvent) :
    readAll kb ((events.flatMap KeyEvent.scanCodes).map some) = typedAll past events := by
  induction events generalizing kb past with
  | nil => rfl
  | cons e events ih =>
      rw [List.flatMap_cons, List.map_append]
      obtain ⟨kb', hkb', hread⟩ := h.readAll_scanCodes e _
      rw [hread, ih hkb', typedAll]

/-- What is read from the keyboard is what the keys mean: each press types the character that the
modifiers held and locked by the events before it give, each release and each prefix types
nothing, and polls in between go unnoticed. -/
theorem keyboard_reads {events : List KeyEvent} {inputs : List (Option (BitVec 8))}
    (h : inputs.reduceOption = events.flatMap KeyEvent.scanCodes) :
    (readAll initial inputs).filter (· ≠ -1) = typedAll [] events := by
  rw [readAll_filter, h]
  exact matches_initial.readAll_events events

/-- Typed with polls in between: shift and `a`, both released again, and the `/` of the keypad. -/
theorem keyboard_reads_sample :
    (readAll initial [some 0x2A, none, some 0x1E, some 0x9E, some 0xAA, none, some 0xE0,
      some 0x35]).filter (· ≠ -1) = [0, char 'A', 0, 0, 0, char '/'] :=
  (keyboard_reads (show List.reduceOption _ = List.flatMap KeyEvent.scanCodes
    [⟨0x2A, false, false, by decide⟩, ⟨0x1E, false, false, by decide⟩,
      ⟨0x1E, false, true, by decide⟩, ⟨0x2A, false, true, by decide⟩,
      ⟨0x35, true, false, by decide⟩] by decide +kernel)).trans (by decide +kernel)

/-- What `check_keyboard` does with a character. -/
inductive KeyAction where
  | none
  | reboot (argument : String)
  | poweroff
  deriving DecidableEq, Repr

def keyAction (c : ℤ) : KeyAction :=
  if c = char 'a' ∨ c = char 'f' ∨ c = char 'e' ∨ c = char 't' ∨ c = char '2' then
    .reboot (if c = char 'a' then "allocator" else if c = char 'e' then "forkexit"
      else if c = char 't' then "test" else if c = char '2' then "test2" else "fork")
  else if c = 0x03 ∨ c = char 'q' then .poweroff
  else .none

/-- `check_keyboard`, up to the jump to `entry_from_boot` and to `poweroff`. -/
def checkKeyboard (kb : Keyboard) (input : Option (BitVec 8)) : Keyboard × KeyAction :=
  ((kb.readc input).1, keyAction (kb.readc input).2)

end Keyboard
end WeensyOS
