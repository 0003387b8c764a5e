import WeensyOS.ByteMemory
import Mathlib.Data.List.Basic
import Mathlib.Data.List.GetD

/-!
# Disk images and `mkbootdisk`

`mkbootdisk` writes a boot sector, files padded to whole sectors, and zeros up to 1024 sectors.
`write` may be interrupted or take only part of the data; what comes out is the same, and it comes
out as soon as enough of the calls have made progress.
-/

namespace WeensyOS
open ByteMemory

def sectorsize : ℕ := 512

/-- The bytes of a disk, or of a file that holds one. -/
structure Disk where
  size : ℕ
  byte : ℕ → UInt8

/-- `readsect` of a `uint32_t` sector number; `none` if the disk ends before the sector does. -/
def Disk.readsect (d : Disk) (sectno : ℕ) : Option Memory :=
  let offset := sectno % 2 ^ 32 * sectorsize
  if offset + sectorsize ≤ d.size then some fun i => d.byte (offset + i) else none

def Disk.ofBytes (l : List UInt8) : Disk where
  size := l.length
  byte i := l.getD i 0

namespace Mkbootdisk

/-- The result of a `write`: `EINTR`, another error or 0, or `more + 1` bytes, where the last call
for the data takes what is left. -/
inductive WriteResult
  | eintr
  | failed
  | wrote (more : ℕ)
  deriving DecidableEq

/-- Why there is no image: `usage()` has ended the program, or it still waits for a `write`. -/
inductive Stopped
  | usage
  | pending

/-- What was written so far, and the results of the `write`s to come. -/
structure Writer where
  out : List UInt8
  results : List WriteResult

def writeLoop : List WriteResult → List UInt8 → List UInt8 → Except Stopped Writer
  | [], data, out => if data = [] then .ok ⟨out, []⟩ else .error .pending
  | r :: rest, data, out =>
      if data = [] then .ok ⟨out, r :: rest⟩
      else match r with
        | .eintr => writeLoop rest data out
        | .failed => .error .usage
        | .wrote more => writeLoop rest (data.drop (more + 1)) (out ++ data.take (more + 1))

/-- `diskwrite`. `maxoff` is 0 unless a partition was chosen. -/
def diskwrite (maxoff : ℕ) (data : List UInt8) (w : Writer) : Except Stopped Writer :=
  if maxoff ≠ 0 ∧ w.out.length + data.length > maxoff then .error .usage
  else writeLoop w.results data w.out

def zerobuf : List UInt8 := List.replicate 512 0

def writeZeros : ℕ → Writer → Except Stopped Writer
  | 0, w => .ok w
  | n + 1, w => do
      let w ← diskwrite 0 zerobuf w
      writeZeros n w

/-- The loop over `fread`. -/
def copyFile (f : List UInt8) (w : Writer) : Except Stopped Writer :=
  if f = [] then .ok w
  else do
    let w ← diskwrite 0 (f.take 4096) w
    copyFile (f.drop 4096) w
termination_by f.length
decreasing_by
  have := List.length_pos_of_ne_nil ‹_›
  rw [List.length_drop]
  omega

/-- An argument behind the boot sector: a file, or `@SECNUM`. -/
inductive Arg
  | file (f : List UInt8)
  | skipto (sector : ℕ)

def writeArg (s : Writer × ℕ) : Arg → Except Stopped (Writer × ℕ)
  | .skipto sector =>
      if s.2 > sector then .error .usage
      else do
        let w ← writeZeros (sector - s.2) s.1
        return (w, sector)
  | .file f => do
      let w ← copyFile f s.1
      let pos := f.length
      if pos % 512 ≠ 0 then
        let w ← diskwrite 0 (zerobuf.take (512 - pos % 512)) w
        return (w, s.2 + (pos + (512 - pos % 512)) / 512)
      else return (w, s.2 + pos / 512)

/-- `main`, without the options `-p` and `-m`. -/
def mkbootdisk (bootsector : List UInt8) (args : List Arg) (results : List WriteResult) :
    Except Stopped (List UInt8) :=
  let n := (bootsector.take 4096).length
  if n > 510 then .error .usage
  else do
    let w ← diskwrite 0 (bootsector.take 4096 ++ List.replicate (510 - n) 0 ++ [0x55, 0xAA])
      ⟨[], results⟩
    let (w, nsectors) ← args.foldlM writeArg (w, 1)
    let w ← writeZeros (1024 - nsectors) w
    return w.out

/-! Every step appends its data, or waits while too few calls have made progress. -/

def progress (results : List WriteResult) : ℕ :=
  results.countP fun r => match r with
    | .wrote _ => true
    | _ => false

/-- `f` appends `data` to the output. -/
def Appends (f : Writer → Except Stopped Writer) (data : List UInt8) : Prop :=
  ∀ w, .failed ∉ w.results →
    (∃ w', f w = .ok w' ∧ w'.out = w.out ++ data ∧ .failed ∉ w'.results ∧
      progress w.results ≤ progress w'.results + data.length) ∨
    f w = .error .pending ∧ progress w.results < data.length

theorem appends_ok : Appends .ok [] :=
  fun w hw => .inl ⟨w, rfl, (List.append_nil _).symm, hw, le_rfl⟩

theorem Appends.bind {f g : Writer → Except Stopped Writer} {a b : List UInt8} (hf : Appends f a)
    (hg : Appends g b) : Appends (fun w => f w >>= g) (a ++ b) := by
  intro w hw
  dsimp only
  rcases hf w hw with ⟨w', hok, hout, hw', hprogress⟩ | ⟨hpending, hprogress⟩
  · rcases hg w' hw' with ⟨w'', hok', hout', hw'', hprogress'⟩ | ⟨hpending, hprogress'⟩
    · refine .inl ⟨w'', ?_, ?_, hw'', ?_⟩
      · rw [hok]
        exact hok'
      · rw [hout', hout, List.append_assoc]
      · rw [List.length_append]
        omega
    · refine .inr ⟨?_, ?_⟩
      · rw [hok]
        exact hpending
      · rw [List.length_append]
        omega
  · refine .inr ⟨?_, ?_⟩
    · rw [hpending]
      rfl
    · rw [List.length_append]
      omega

theorem writeLoop_nil (results : List WriteResult) (out : List UInt8) :
    writeLoop results [] out = .ok ⟨out, results⟩ := by
  cases results with
  | nil => rfl
  | cons r rest => cases r <;> rfl

/-- Interrupted and short writes do not matter. -/
theorem writeLoop_appends (data out : List UInt8) (results : List WriteResult)
    (h : .failed ∉ results) :
    (∃ w', writeLoop results data out = .ok w' ∧ w'.out = out ++ data ∧ .failed ∉ w'.results ∧
      progress results ≤ progress w'.results + data.length) ∨
    writeLoop results data out = .error .pending ∧ progress results < data.length := by
  by_cases hdata : data = []
  · rw [hdata, writeLoop_nil]
    exact .inl ⟨_, rfl, (List.append_nil _).symm, h, le_rfl⟩
  have hpos := List.length_pos_of_ne_nil hdata
  induction results generalizing data out with
  | nil => exact .inr ⟨if_neg hdata, hpos⟩
  | cons r rest ih =>
      have hrest : .failed ∉ rest := fun hmem => h (List.mem_cons_of_mem _ hmem)
      cases r with
      | eintr =>
          rw [writeLoop, if_neg hdata]
          exact ih data out hrest hdata hpos
      | failed => exact absurd List.mem_cons_self h
      | wrote more =>
          have hcount : progress (.wrote more :: rest) = progress rest + 1 :=
            List.countP_cons_of_pos rfl
          have hdrop : (data.drop (more + 1)).length + 1 ≤ data.length := by
            rw [List.length_drop]
            omega
          rw [writeLoop, if_neg hdata]
          by_cases hlast : data.drop (more + 1) = []
          · have htake : data.take (more + 1) = data :=
              List.take_of_length_le (List.drop_eq_nil_iff.mp hlast)
            rw [hlast, writeLoop_nil, htake]
            exact .inl ⟨_, rfl, rfl, hrest, by dsimp only; omega⟩
          · rcases ih (data.drop (more + 1)) (out ++ data.take (more + 1)) hrest hlast
              (List.length_pos_of_ne_nil hlast) with
              ⟨w', hok, hout, hw', hprogress⟩ | ⟨hpending, hprogress⟩
            · refine .inl ⟨w', hok, ?_, hw', by omega⟩
              rw [hout, List.append_assoc, List.take_append_drop]
            · exact .inr ⟨hpending, by omega⟩

theorem appends_diskwrite (data : List UInt8) : Appends (diskwrite 0 data) data := by
  intro w hw
  rw [diskwrite, if_neg fun h => h.1 rfl]
  exact writeLoop_appends data w.out w.results hw

theorem appends_writeZeros (n : ℕ) : Appends (writeZeros n) (List.replicate (512 * n) 0) := by
  induction n with
  | zero => exact appends_ok
  | succ n ih =>
      have h := (appends_diskwrite zerobuf).bind ih
      rwa [zerobuf, ← List.replicate_add, show 512 + 512 * n = 512 * (n + 1) by ring] at h

theorem appends_copyFile (f : List UInt8) : Appends (copyFile f) f := by
  induction hn : f.length using Nat.strong_induction_on generalizing f with
  | h n ih =>
      by_cases hnil : f = []
      · rw [hnil]
        have heq : copyFile [] = .ok := by
          funext w
          rw [copyFile, if_pos rfl]
        rw [heq]
        exact appends_ok
      · have heq : copyFile f =
            fun w => diskwrite 0 (f.take 4096) w >>= copyFile (f.drop 4096) := by
          funext w
          rw [copyFile, if_neg hnil]
        have hpos := List.length_pos_of_ne_nil hnil
        have hrest := ih (f.drop 4096).length (by rw [List.length_drop]; omega) (f.drop 4096) rfl
        rw [heq]
        have h := (appends_diskwrite (f.take 4096)).bind hrest
        rwa [List.take_append_drop] at h

/-- A file with zeros up to the end of its last sector. -/
def padded (f : List UInt8) : List UInt8 :=
  f ++ List.replicate ((512 - f.length % 512) % 512) 0

/-- The image of a boot sector and one file. -/
def bootImage (bootsector f : List UInt8) : List UInt8 :=
  bootsector ++ List.replicate (510 - bootsector.length) 0 ++ [0x55, 0xAA] ++ padded f ++
    List.replicate (512 * (1023 - (padded f).length / 512)) 0

theorem length_padded (f : List UInt8) : (padded f).length = (f.length + 511) / 512 * 512 := by
  rw [padded, List.length_append, List.length_replicate]
  omega

/-- The first sector. -/
def bootRecord (bootsector : List UInt8) : List UInt8 :=
  bootsector ++ List.replicate (510 - bootsector.length) 0 ++ [0x55, 0xAA]

section image
variable {bootsector : List UInt8} (hboot : bootsector.length ≤ 510) (f : List UInt8)

include hboot

theorem length_bootRecord : (bootRecord bootsector).length = 512 := by
  simp only [bootRecord, List.length_append, List.length_replicate, List.length_cons,
    List.length_nil]
  omega

theorem length_bootImage : (bootImage bootsector f).length =
    512 + max (1023 * 512) ((f.length + 511) / 512 * 512) := by
  have hrecord := length_bootRecord hboot
  have hpadded := length_padded f
  change (bootRecord bootsector ++ padded f ++ List.replicate _ 0).length = _
  rw [List.length_append, List.length_append, List.length_replicate, hrecord, hpadded]
  omega

theorem bootImage_signature : (bootImage bootsector f)[510]? = some 0x55 ∧
    (bootImage bootsector f)[511]? = some 0xAA := by
  have hfill : (bootsector ++ List.replicate (510 - bootsector.length) (0 : UInt8)).length =
      510 := by
    rw [List.length_append, List.length_replicate]
    omega
  have hrest : bootImage bootsector f =
      (bootsector ++ List.replicate (510 - bootsector.length) 0) ++ ([0x55, 0xAA] ++ (padded f ++
        List.replicate (512 * (1023 - (padded f).length / 512)) 0)) := by
    simp only [bootImage, List.append_assoc]
  rw [hrest]
  constructor
  · rw [List.getElem?_append_right (by omega), hfill]
    rfl
  · rw [List.getElem?_append_right (by omega), hfill]
    rfl

/-- From sector 1 on the image is the file, then zeros. -/
theorem bootImage_byte (i : ℕ) :
    (Disk.ofBytes (bootImage bootsector f)).byte (512 + i) = f.getD i 0 := by
  have hrecord := length_bootRecord hboot
  have hzeros : padded f ++ List.replicate (512 * (1023 - (padded f).length / 512)) 0 =
      f ++ List.replicate ((512 - f.length % 512) % 512 +
        512 * (1023 - (padded f).length / 512)) 0 := by
    rw [padded, List.append_assoc, ← List.replicate_add]
  have himage : bootImage bootsector f = bootRecord bootsector ++
      (padded f ++ List.replicate (512 * (1023 - (padded f).length / 512)) 0) := by
    rw [bootImage, bootRecord, List.append_assoc _ (padded f)]
  change (bootImage bootsector f).getD (512 + i) 0 = _
  rw [himage, hzeros, List.getD_append_right _ _ _ _ (by omega), hrecord, Nat.add_sub_cancel_left]
  by_cases hi : i < f.length
  · rw [List.getD_append _ _ _ _ hi]
  · rw [List.getD_append_right _ _ _ _ (by omega), List.getD_eq_default f 0 (by omega)]
    generalize (512 - f.length % 512) % 512 + _ = n
    by_cases hn : i - f.length < n
    · exact List.getD_replicate 0 hn
    · exact List.getD_eq_default _ _ (by rw [List.length_replicate]; omega)

end image

/-- Writing a file appends it with its padding and counts its sectors. -/
theorem writeArg_file (f : List UInt8) (n : ℕ) : ∃ g, Appends g (padded f) ∧
    ∀ w, writeArg (w, n) (.file f) = (g w >>= fun w => .ok (w, n + (padded f).length / 512)) := by
  have hsectors : (padded f).length / 512 = (f.length + 511) / 512 := by
    rw [length_padded]
    omega
  by_cases hpos : f.length % 512 = 0
  · have hpadded : padded f = f := by
      rw [padded, hpos]
      exact List.append_nil f
    refine ⟨copyFile f, hpadded.symm ▸ appends_copyFile f, fun w => ?_⟩
    have hcount : n + f.length / 512 = n + (padded f).length / 512 := by omega
    simp only [writeArg, hpos, ne_eq, not_true_eq_false, if_false, hcount]
    rfl
  · have htail : zerobuf.take (512 - f.length % 512) =
        List.replicate ((512 - f.length % 512) % 512) 0 := by
      rw [zerobuf, List.take_replicate]
      congr 1
      omega
    have h := (appends_copyFile f).bind (appends_diskwrite (zerobuf.take (512 - f.length % 512)))
    rw [htail] at h
    refine ⟨_, h, fun w => ?_⟩
    have hcount : n + (f.length + (512 - f.length % 512)) / 512 = n + (padded f).length / 512 := by
      omega
    simp only [writeArg, ne_eq, hpos, not_false_eq_true, if_true, hcount, htail]
    cases copyFile f w <;> rfl

/-- The image that comes out, for every schedule of writes. -/
theorem mkbootdisk_file {bootsector : List UInt8} (hboot : bootsector.length ≤ 510)
    (f : List UInt8) {results : List WriteResult} (hresults : .failed ∉ results) :
    mkbootdisk bootsector [.file f] results = .ok (bootImage bootsector f) ∨
      mkbootdisk bootsector [.file f] results = .error .pending ∧
        progress results < (bootImage bootsector f).length := by
  obtain ⟨g, hg, heq⟩ := writeArg_file f 1
  have htake : bootsector.take 4096 = bootsector := List.take_of_length_le (by omega)
  have hfill : 1024 - (1 + (padded f).length / 512) = 1023 - (padded f).length / 512 := by omega
  have h := ((appends_diskwrite
    (bootsector ++ List.replicate (510 - bootsector.length) 0 ++ [0x55, 0xAA])).bind hg).bind
      (appends_writeZeros (1023 - (padded f).length / 512))
  have hmain : mkbootdisk bootsector [.file f] results =
      (((diskwrite 0 (bootsector ++ List.replicate (510 - bootsector.length) 0 ++ [0x55, 0xAA])
        ⟨[], results⟩ >>= g) >>= writeZeros (1023 - (padded f).length / 512)).map Writer.out) := by
    unfold mkbootdisk
    rw [htake, if_neg (by omega)]
    cases diskwrite 0 (bootsector ++ List.replicate (510 - bootsector.length) 0 ++ [0x55, 0xAA])
      ⟨[], results⟩ with
    | error e => rfl
    | ok w =>
        change ([Arg.file f].foldlM writeArg (w, 1) >>= fun s =>
          writeZeros (1024 - s.2) s.1 >>= fun w => .ok w.out) =
            (g w >>= writeZeros (1023 - (padded f).length / 512)).map Writer.out
        rw [List.foldlM_cons, heq]
        cases g w with
        | error e => rfl
        | ok w' =>
            change (writeZeros (1024 - (1 + (padded f).length / 512)) w' >>= fun w => .ok w.out) =
              (writeZeros (1023 - (padded f).length / 512) w').map Writer.out
            rw [hfill]
            cases writeZeros (1023 - (padded f).length / 512) w' <;> rfl
  rw [hmain]
  rcases h ⟨[], results⟩ hresults with ⟨w', hok, hout, -, -⟩ | ⟨hpending, hprogress⟩
  · refine .inl ?_
    dsimp only at hok
    rw [hok]
    exact congrArg Except.ok hout
  · refine .inr ⟨?_, hprogress⟩
    dsimp only at hpending
    rw [hpending]
    rfl

end Mkbootdisk

end WeensyOS
