import Mathlib.Data.Int.ModEq
import Mathlib.Data.List.Nodup
import RainOS.Lib.Store
import RainOS.Param

/-!
# The image loaders

`load_bmp` of app_ex_file.c, which has the file in memory, and of app_mono_file.c, which reads it. The transfer into
memory is over, the file has its header, and `malloc` gives the memory. `index` is a 32-bit integer. The loop over the
rows takes fuel, and `Halt.spin` says that it was not enough. A palette that does not fit into `skippableBuffer` is
read past the end of that array, which is `Halt.wild`.
-/

namespace RainOS.Bmp

open List

/-- `BITMAP`, with the cells of `data` by index. -/
structure Bitmap where
  width : Nat
  height : Nat
  data : Nat → UInt8

def width (file : Mem) : Nat := file.word 2 18

def height (file : Mem) : Nat := file.word 2 22

def numColors (file : Mem) : Nat := if file.word 2 46 = 0 then 256 else file.word 2 46

def pixels (file : Mem) : Nat := 54 + 4 * numColors file

def isBitmap (file : Mem) : Prop := file 0 = 0x42 ∧ file 1 = 0x4d

instance (file : Mem) : Decidable (isBitmap file) := inferInstanceAs (Decidable (_ ∧ _))

section Loops

variable (byte : Nat → UInt8) (w : Nat)

/-- The inner loop: the `x` bytes from `k` on go to the cells from `base` on. -/
def row (base k : Nat) (data : Nat → UInt8) : Nat → Nat → UInt8
  | 0 => data
  | x + 1 => store (row base k data x) (base + x) (byte (k + x))

def rows : Nat → Int → Nat → (Nat → UInt8) → Except Halt (Nat → UInt8)
  | 0, _, _, _ => .error .spin
  | n + 1, index, k, data =>
    if 0 ≤ index then rows n (index - w) (k + w) (row byte (index.toNat % 65536) k data w) else .ok data

end Loops

/-- Both loaders from `malloc` on; `byte` is what they store for each byte of the file. -/
def fill (n : Nat) (file : Mem) (byte : Nat → UInt8) (garbage : Nat → UInt8) : Except Halt (Option Bitmap) := do
  let index := (((height file : Int) - 1) * width file).bmod (2 ^ 32)
  let data ← rows byte (width file) n index (pixels file) garbage
  return some ⟨width file, height file, data⟩

/-- `load_bmp` of app_ex_file.c; none if it prints that the file is not valid. -/
def loadEx (n : Nat) (file : Mem) (garbage : Nat → UInt8) : Except Halt (Option Bitmap) :=
  if isBitmap file then fill n file file garbage else return none

def skippable : Nat := 1024

/-- `load_bmp` of app_mono_file.c. It stores what `read` returns, which is 1 before the end of the file. -/
def loadMono (n : Nat) (file : Mem) (size : Nat) (garbage : Nat → UInt8) : Except Halt (Option Bitmap) :=
  if isBitmap file then
    if 4 * numColors file ≤ skippable then fill n file (fun k => if k < size then 1 else 0) garbage else throw .wild
  else return none

/-! ### The loops -/

variable {byte data data' : Nat → UInt8} {w base k : Nat}

theorem row_eq (x i : Nat) : row byte base k data x i = if base ≤ i ∧ i < base + x then byte (k + (i - base)) else data i := by
  induction x with
  | zero => rw [if_neg (by omega), row]
  | succ x ih =>
    rw [row, store, ih]
    by_cases hi : i = base + x
    · rw [if_pos hi, if_pos (by omega), hi, Nat.add_sub_cancel_left]
    · rw [if_neg hi]
      exact if_congr (by omega) rfl rfl

theorem rows_spec (hw : 0 < w) {j : Nat} (hj : j * w ≤ 65536) (k : Nat) (data : Nat → UInt8) :
    ∃ data', (∀ n, rows byte w n ((j : Int) * w - w) k data = if j < n then .ok data' else .error .spin) ∧
      (∀ i, j * w ≤ i → data' i = data i) ∧
      ∀ r x, r < j → x < w → data' ((j - 1 - r) * w + x) = byte (k + r * w + x) := by
  induction j generalizing k data with
  | zero =>
    refine ⟨data, fun n => ?_, fun _ _ => rfl, nofun⟩
    cases n with
    | zero => rfl
    | succ n => rw [rows, if_neg (by omega), if_pos n.succ_pos]
  | succ j ih =>
    have hsucc : (j + 1) * w = j * w + w := Nat.succ_mul j w
    have hindex : ((j + 1 : Nat) : Int) * w - w = ((j * w : Nat) : Int) := by push_cast; ring
    obtain ⟨data', hrun, hout, hin⟩ := ih (by omega) (k + w) (row byte (j * w) k data w)
    refine ⟨data', fun n => ?_, fun i hi => ?_, fun r x hr hx => ?_⟩
    · cases n with
      | zero => rfl
      | succ n =>
        rw [rows, hindex, if_pos (Int.natCast_nonneg _), Int.toNat_natCast, Nat.mod_eq_of_lt (by omega), Nat.cast_mul, hrun]
        exact if_congr Nat.succ_lt_succ_iff.symm rfl rfl
    · rw [hout i (by omega), row_eq, if_neg (by omega)]
    · cases r with
      | zero =>
        rw [Nat.add_sub_cancel, Nat.sub_zero, hout _ (Nat.le_add_right ..), row_eq, if_pos (by omega)]
        congr 1
        omega
      | succ r =>
        have hcell := hin r x (by omega) hx
        have hplace : j + 1 - 1 - (r + 1) = j - 1 - r := by omega
        rw [hplace, hcell, Nat.succ_mul]
        congr 1
        omega

theorem exists_row {h i : Nat} (hi : i < h * w) : ∃ r x, r < h ∧ x < w ∧ i = r * w + x := by
  have hw : 0 < w := Nat.pos_of_ne_zero fun h0 => by simp [h0] at hi
  refine ⟨i / w, i % w, (Nat.div_lt_iff_lt_mul hw).mpr hi, Nat.mod_lt i hw, ?_⟩
  rw [Nat.mul_comm]
  exact (Nat.div_add_mod i w).symm

/-! ### The stores -/

def cells (w : Nat) : Nat → Int → Except Halt (List Nat)
  | 0, _ => .error .spin
  | n + 1, index =>
    if 0 ≤ index then do
      let rest ← cells w n (index - w)
      return (List.range w).map (index.toNat % 65536 + ·) ++ rest
    else .ok []

/-- Store the bytes from `k` on, one in each cell. -/
def storeAll (byte : Nat → UInt8) : Nat → (Nat → UInt8) → List Nat → Nat → UInt8
  | _, data, [] => data
  | k, data, c :: cs => storeAll byte (k + 1) (store data c (byte k)) cs

def fillCells (n : Nat) (file : Mem) : Except Halt (List Nat) :=
  cells (width file) n ((((height file : Int) - 1) * width file).bmod (2 ^ 32))

def exCells (n : Nat) (file : Mem) : Except Halt (List Nat) := if isBitmap file then fillCells n file else return []

def monoCells (n : Nat) (file : Mem) : Except Halt (List Nat) :=
  if isBitmap file then
    if 4 * numColors file ≤ skippable then fillCells n file else throw .wild
  else return []

theorem storeAll_append (k : Nat) (data : Nat → UInt8) (l l' : List Nat) :
    storeAll byte k data (l ++ l') = storeAll byte (k + l.length) (storeAll byte k data l) l' := by
  induction l generalizing k data with
  | nil => rfl
  | cons c l ih => rw [cons_append, storeAll, ih, storeAll, length_cons, Nat.add_right_comm, Nat.add_assoc]

theorem row_eq_storeAll (x : Nat) : row byte base k data x = storeAll byte k data ((range x).map (base + ·)) := by
  induction x with
  | zero => rfl
  | succ x ih =>
    rw [row, ih, range_succ, map_append, storeAll_append, length_map, length_range]
    rfl

theorem rows_eq_cells (n : Nat) (index : Int) (k : Nat) (data : Nat → UInt8) :
    rows byte w n index k data = (cells w n index).map (storeAll byte k data) := by
  induction n generalizing index k data with
  | zero => rfl
  | succ n ih =>
    rw [rows, cells]
    split
    · rw [ih, row_eq_storeAll]
      cases cells w n (index - w) with
      | error e => rfl
      | ok l =>
        simp only [bind, Except.bind, pure, Except.pure, Except.map, storeAll_append, length_map, length_range]
    · rfl

theorem cells_spin (n : Nat) : cells 0 n 0 = .error .spin := by
  induction n with
  | zero => rfl
  | succ n ih =>
    rw [cells, if_pos le_rfl, Nat.cast_zero, sub_zero, ih]
    rfl

theorem cells_spec (hw : 0 < w) {j : Nat} (hj : j * w ≤ 65536) :
    ∃ l, cells w (j + 1) ((j : Int) * w - w) = .ok l ∧ l.Perm (range (j * w)) := by
  induction j with
  | zero =>
    rw [Nat.zero_mul]
    exact ⟨[], if_neg (by omega), .nil⟩
  | succ j ih =>
    have hsucc : (j + 1) * w = j * w + w := Nat.succ_mul j w
    have hindex : ((j + 1 : Nat) : Int) * w - w = ((j * w : Nat) : Int) := by push_cast; ring
    obtain ⟨l, hrun, hperm⟩ := ih (by omega)
    refine ⟨(range w).map (j * w + ·) ++ l, ?_, ?_⟩
    · rw [cells, hindex, if_pos (Int.natCast_nonneg _), Int.toNat_natCast, Nat.mod_eq_of_lt (by omega), Nat.cast_mul, hrun]
      rfl
    · rw [hsucc, range_add]
      exact perm_append_comm.trans (hperm.append_right _)

/-! ### The two loaders -/

structure IsBmp (file : Mem) (size : Nat) : Prop where
  magic : isBitmap file
  small : width file * height file < 65536
  complete : pixels file + width file * height file ≤ size

def Agree (file : Mem) (size : Nat) (garbage garbage' : Nat → UInt8) : Prop :=
  ∃ n b b', loadEx n file garbage = .ok (some b) ∧ loadMono n file size garbage' = .ok (some b') ∧
    b.width = b'.width ∧ b.height = b'.height ∧ ∀ i < b.width * b.height, b.data i = b'.data i

variable {file : Mem} {size : Nat}

theorem index_eq (hsmall : height file * width file ≤ 65536) :
    (((height file : Int) - 1) * width file).bmod (2 ^ 32) = (height file : Int) * width file - width file := by
  have hle : width file ≤ 65535 := Nat.le_of_lt_succ (Mem.word_lt file 2 18)
  rw [sub_mul, one_mul, ← Nat.cast_mul]
  apply Int.bmod_eq_of_le <;> omega

theorem fill_spec (h : IsBmp file size) (hw : 0 < width file) (byte garbage : Nat → UInt8) :
    ∃ data, (∀ n, fill n file byte garbage =
      if height file < n then .ok (some ⟨width file, height file, data⟩) else .error .spin) ∧
      ∀ r x, r < height file → x < width file →
        data ((height file - 1 - r) * width file + x) = byte (pixels file + r * width file + x) := by
  have hsmall := h.small
  rw [Nat.mul_comm] at hsmall
  obtain ⟨data, hrun, -, hcells⟩ := @rows_spec byte _ hw _ (Nat.le_of_lt hsmall) (pixels file) garbage
  refine ⟨data, fun n => ?_, hcells⟩
  rw [fill, index_eq (Nat.le_of_lt hsmall), hrun n]
  split <;> rfl

theorem fillCells_spin (hw : width file = 0) (n : Nat) : fillCells n file = .error .spin := by
  rw [fillCells, hw, Nat.cast_zero, mul_zero, Int.zero_bmod, cells_spin]

theorem fill_eq (n : Nat) (byte garbage : Nat → UInt8) : fill n file byte garbage =
    (fillCells n file).map fun l => some ⟨width file, height file, storeAll byte (pixels file) garbage l⟩ := by
  rw [fill, rows_eq_cells, fillCells]
  cases cells (width file) n _ <;> rfl

theorem fill_spin (hw : width file = 0) (n : Nat) (byte garbage : Nat → UInt8) : fill n file byte garbage = .error .spin := by
  rw [fill_eq, fillCells_spin hw]
  rfl

def onePixel (pixel : UInt8) : Mem := fun i =>
  if i = 0 then 0x42 else if i = 1 then 0x4d else if i = 18 ∨ i = 22 ∨ i = 46 then 1 else if i = 58 then pixel else 0

theorem isBmp_onePixel (pixel : UInt8) : IsBmp (onePixel pixel) 59 :=
  ⟨⟨rfl, rfl⟩, Nat.le_of_ble_eq_true rfl, Nat.le_of_ble_eq_true rfl⟩

theorem loadEx_eq (n : Nat) (garbage : Nat → UInt8) : loadEx n file garbage = (exCells n file).map fun l =>
    if isBitmap file then some ⟨width file, height file, storeAll file (pixels file) garbage l⟩ else none := by
  rw [loadEx, exCells]
  split
  · exact fill_eq n file garbage
  · rfl

theorem loadMono_eq (n size : Nat) (garbage : Nat → UInt8) : loadMono n file size garbage =
    (monoCells n file).map fun l => if isBitmap file then
      some ⟨width file, height file, storeAll (fun k => if k < size then 1 else 0) (pixels file) garbage l⟩ else none := by
  rw [loadMono, monoCells]
  split
  · split
    · exact fill_eq n _ garbage
    · rfl
  · rfl

/-- All stores are in the block, and each cell of the image gets one. -/
structure Bounded (file : Mem) (l : List Nat) : Prop where
  inside : ∀ c ∈ l, c < width file * height file % 65536
  once : isBitmap file → ∀ c < width file * height file, l.count c = 1

theorem fillCells_spec (hw : 0 < width file) (hsmall : height file * width file ≤ 65536) :
    ∃ l, fillCells (height file + 1) file = .ok l ∧ l.Perm (range (height file * width file)) := by
  rw [fillCells, index_eq hsmall]
  exact cells_spec hw hsmall

theorem Bounded.width_pos_and_small {n : Nat} {l : List Nat} (hmagic : isBitmap file) (hrun : fillCells n file = .ok l)
    (h : Bounded file l) : 0 < width file ∧ width file * height file < 65536 := by
  constructor
  · by_contra hw
    rw [fillCells_spin (Nat.eq_zero_of_not_pos hw)] at hrun
    cases hrun
  · by_contra hlarge
    -- the last cell of the image is not in the block
    have hcount := h.once hmagic (width file * height file - 1) (by omega)
    have hmem : width file * height file - 1 ∈ l := count_pos_iff.mp (by omega)
    have hlt := h.inside _ hmem
    omega

def square : Mem := fun i =>
  if i = 0 then 0x42 else if i = 1 then 0x4d else if i = 19 ∨ i = 23 ∨ i = 46 then 1 else 0

end RainOS.Bmp
