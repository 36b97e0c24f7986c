import Mathlib.Algebra.Ring.Parity
import Radare.Common.ShiftReg
import Radare.Model.Word
/-!
# CRCs

`crc16` and `crc32` read a table for every byte; the engine of `crca.c` takes
the polynomial, the width and the reflection from a preset and moves its
register bit by bit. Its register is the one of the tables seen in the mirror
(`crcByte_reflected`), and holds what it pushed out above the width.

`unsigned int` and `ut16` are bit vectors here. The engine indexes the bytes of
a call with an `int`: there is no result where a byte is behind the last one
that it can index.
-/

namespace Radare

open Common

/-! ## The tables -/

/-- `crc16_table`. -/
def crc16Table : List (BitVec 16) := [
    0x0000, 0xC0C1, 0xC181, 0x0140, 0xC301, 0x03C0, 0x0280, 0xC241,
    0xC601, 0x06C0, 0x0780, 0xC741, 0x0500, 0xC5C1, 0xC481, 0x0440,
    0xCC01, 0x0CC0, 0x0D80, 0xCD41, 0x0F00, 0xCFC1, 0xCE81, 0x0E40,
    0x0A00, 0xCAC1, 0xCB81, 0x0B40, 0xC901, 0x09C0, 0x0880, 0xC841,
    0xD801, 0x18C0, 0x1980, 0xD941, 0x1B00, 0xDBC1, 0xDA81, 0x1A40,
    0x1E00, 0xDEC1, 0xDF81, 0x1F40, 0xDD01, 0x1DC0, 0x1C80, 0xDC41,
    0x1400, 0xD4C1, 0xD581, 0x1540, 0xD701, 0x17C0, 0x1680, 0xD641,
    0xD201, 0x12C0, 0x1380, 0xD341, 0x1100, 0xD1C1, 0xD081, 0x1040,
    0xF001, 0x30C0, 0x3180, 0xF141, 0x3300, 0xF3C1, 0xF281, 0x3240,
    0x3600, 0xF6C1, 0xF781, 0x3740, 0xF501, 0x35C0, 0x3480, 0xF441,
    0x3C00, 0xFCC1, 0xFD81, 0x3D40, 0xFF01, 0x3FC0, 0x3E80, 0xFE41,
    0xFA01, 0x3AC0, 0x3B80, 0xFB41, 0x3900, 0xF9C1, 0xF881, 0x3840,
    0x2800, 0xE8C1, 0xE981, 0x2940, 0xEB01, 0x2BC0, 0x2A80, 0xEA41,
    0xEE01, 0x2EC0, 0x2F80, 0xEF41, 0x2D00, 0xEDC1, 0xEC81, 0x2C40,
    0xE401, 0x24C0, 0x2580, 0xE541, 0x2700, 0xE7C1, 0xE681, 0x2640,
    0x2200, 0xE2C1, 0xE381, 0x2340, 0xE101, 0x21C0, 0x2080, 0xE041,
    0xA001, 0x60C0, 0x6180, 0xA141, 0x6300, 0xA3C1, 0xA281, 0x6240,
    0x6600, 0xA6C1, 0xA781, 0x6740, 0xA501, 0x65C0, 0x6480, 0xA441,
    0x6C00, 0xACC1, 0xAD81, 0x6D40, 0xAF01, 0x6FC0, 0x6E80, 0xAE41,
    0xAA01, 0x6AC0, 0x6B80, 0xAB41, 0x6900, 0xA9C1, 0xA881, 0x6840,
    0x7800, 0xB8C1, 0xB981, 0x7940, 0xBB01, 0x7BC0, 0x7A80, 0xBA41,
    0xBE01, 0x7EC0, 0x7F80, 0xBF41, 0x7D00, 0xBDC1, 0xBC81, 0x7C40,
    0xB401, 0x74C0, 0x7580, 0xB541, 0x7700, 0xB7C1, 0xB681, 0x7640,
    0x7200, 0xB2C1, 0xB381, 0x7340, 0xB101, 0x71C0, 0x7080, 0xB041,
    0x5000, 0x90C1, 0x9181, 0x5140, 0x9301, 0x53C0, 0x5280, 0x9241,
    0x9601, 0x56C0, 0x5780, 0x9741, 0x5500, 0x95C1, 0x9481, 0x5440,
    0x9C01, 0x5CC0, 0x5D80, 0x9D41, 0x5F00, 0x9FC1, 0x9E81, 0x5E40,
    0x5A00, 0x9AC1, 0x9B81, 0x5B40, 0x9901, 0x59C0, 0x5880, 0x9841,
    0x8801, 0x48C0, 0x4980, 0x8941, 0x4B00, 0x8BC1, 0x8A81, 0x4A40,
    0x4E00, 0x8EC1, 0x8F81, 0x4F40, 0x8D01, 0x4DC0, 0x4C80, 0x8C41,
    0x4400, 0x84C1, 0x8581, 0x4540, 0x8701, 0x47C0, 0x4680, 0x8641,
    0x8201, 0x42C0, 0x4380, 0x8341, 0x4100, 0x81C1, 0x8081, 0x4040]

/-- `crc16_byte`. -/
def crc16Byte (crc : BitVec 16) (data : u8) : BitVec 16 :=
  (crc >>> 8) ^^^ crc16Table.getD ((crc ^^^ data.toBitVec.setWidth 16) &&& 255#16).toNat 0#16

/-- `crc16`. -/
def crc16 (crc : BitVec 16) (buffer : List u8) : BitVec 16 := buffer.foldl crc16Byte crc

/-- The inner loop of the fill: `j` goes from 0 to 256 by `2 * i`. -/
def crcTableRow (i : ℕ) (h : BitVec 32) (table : List (BitVec 32)) : List (BitVec 32) :=
  ((List.range (256 / (2 * i))).map (2 * i * ·)).foldl
    (fun table j => table.set (i + j) (table.getD j 0#32 ^^^ h)) table

/-- `h` for the next `i`. -/
def crcTableWord (h : BitVec 32) : BitVec 32 :=
  (h >>> 1) ^^^ (if h &&& 1#32 ≠ 0#32 then 0xedb88320#32 else 0#32)

/-- The fill of `crc_table`, where `i` goes from 128 down by halves. -/
def crcTableFill (table : List (BitVec 32)) : List (BitVec 32) :=
  ([128, 64, 32, 16, 8, 4, 2, 1].foldl
    (fun (h, table) i => (crcTableWord h, crcTableRow i (crcTableWord h) table))
    (1#32, table.set 0 0#32)).2

/-- What `crc_table` starts with. -/
def crcTableZero : List (BitVec 32) := List.replicate 256 0#32

/-- The static variables of `crc32.c`: no call leaves another table. -/
structure Crc32Statics where
  isInit : Bool
  table : List (BitVec 32)
  table_eq : table = if isInit then crcTableFill crcTableZero else crcTableZero

/-- Before the first call. -/
def Crc32Statics.start : Crc32Statics := ⟨false, crcTableZero, rfl⟩

theorem crcTableFill_statics (st : Crc32Statics) :
    (if st.isInit then st.table else crcTableFill st.table) =
      if true then crcTableFill crcTableZero else crcTableZero := by
  have h := st.table_eq
  cases hinit : st.isInit
  · rw [hinit, if_neg Bool.false_ne_true] at h
    rw [if_neg Bool.false_ne_true, if_pos rfl, h]
  · rw [hinit, if_pos rfl] at h
    rw [if_pos rfl, if_pos rfl, h]

/-- The table is filled by the first call. -/
def Crc32Statics.ready (st : Crc32Statics) : Crc32Statics :=
  ⟨true, if st.isInit then st.table else crcTableFill st.table, crcTableFill_statics st⟩

/-- One round of the loop of `crc32`: a `char` is negative from 128 on. -/
def crc32Byte (table : List (BitVec 32)) (crc : BitVec 32) (buf : u8) : BitVec 32 :=
  (crc >>> 8) ^^^ table.getD ((crc ^^^ buf.toBitVec.signExtend 32) &&& 255#32).toNat 0#32

/-- `crc32`, with the statics it leaves. -/
def crc32 (st : Crc32Statics) (buf : List u8) : BitVec 32 × Crc32Statics :=
  (buf.foldl (crc32Byte st.ready.table) (0#32 ^^^ 0xffffffff#32) ^^^ 0xffffffff#32, st.ready)

/-! ## The engine -/

/-- `t_crc_ctx`. -/
structure CrcCtx where
  crc : BitVec 32
  size : ℕ
  reflect : Bool
  poly : BitVec 32
  xout : BitVec 32

/-- `enum CRC_PRESETS`. -/
inductive CrcPreset where
  | crc32
  | crc16
  | crc32Ecma267
  | crc32c
  | crc24
  | crc16Citt
  | crc16Usb
  | crc16Hdlc
  | crc15Can
  | crc8Smbus
deriving DecidableEq

/-- `crc_presets`. -/
def crcInitPreset : CrcPreset → CrcCtx
  | .crc32 => ⟨0xFFFFFFFF, 32, true, 0x04C11DB7, 0xFFFFFFFF⟩
  | .crc16 => ⟨0x0000, 16, true, 0x8005, 0x0000⟩
  | .crc32Ecma267 => ⟨0x00000000, 32, false, 0x80000011, 0x00000000⟩
  | .crc32c => ⟨0xFFFFFFFF, 32, true, 0x1EDC6F41, 0xFFFFFFFF⟩
  | .crc24 => ⟨0xB704CE, 24, false, 0x864CFB, 0x000000⟩
  | .crc16Citt => ⟨0xFFFF, 16, false, 0x1021, 0x0000⟩
  | .crc16Usb => ⟨0xFFFF, 16, true, 0x8005, 0xFFFF⟩
  | .crc16Hdlc => ⟨0xFFFF, 16, true, 0x1021, 0xFFFF⟩
  | .crc15Can => ⟨0x0000, 15, false, 0x4599, 0x0000⟩
  | .crc8Smbus => ⟨0x00, 8, false, 0x07, 0x00⟩

/-- One round of the inner loop of `crc_update`. -/
def crcBit (ctx : CrcCtx) (crc : BitVec 32) : BitVec 32 :=
  (if (crc >>> (ctx.size - 1)) &&& 1#32 ≠ 0#32 then ctx.poly else 0#32) ^^^ (crc <<< 1)

/-- `d` as it is taken in. -/
def crcData (ctx : CrcCtx) (data : u8) : BitVec 32 :=
  if ctx.reflect then reverseLow 8 4 (data.toBitVec.setWidth 32) else data.toBitVec.setWidth 32

/-- One round of the loop of `crc_update`. -/
def crcByte (ctx : CrcCtx) (crc : BitVec 32) (data : u8) : BitVec 32 :=
  (crcBit ctx)^[8] (crc ^^^ (crcData ctx data <<< (ctx.size - 8)))

/-- The loop of `crc_update` from the index `i` on, which is an `int`. -/
def crcUpdateLoop (ctx : CrcCtx) : ℕ → BitVec 32 → List u8 → Option (BitVec 32)
  | _, crc, [] => some crc
  | i, crc, d :: data =>
    if i < 2 ^ 31 then crcUpdateLoop ctx (i + 1) (crcByte ctx crc d) data else none

/-- What one call is handed: `sz` is an `unsigned int`. -/
structure CrcData where
  data : List u8
  fits : data.length < 2 ^ 32

/-- `crc_update`. -/
def crcUpdate (ctx : CrcCtx) (d : CrcData) : Option CrcCtx :=
  (crcUpdateLoop ctx 0 ctx.crc d.data).map fun crc => { ctx with crc }

/-- The bits of the register. -/
def crcMask (size : ℕ) : BitVec 32 := (((1#32 <<< (size - 1)) - 1#32) <<< 1) ||| 1#32

/-- `crc_final`. -/
def crcFinal (ctx : CrcCtx) : BitVec 32 :=
  (if ctx.reflect then reverseLow ctx.size (ctx.size / 2) (ctx.crc &&& crcMask ctx.size)
    else ctx.crc &&& crcMask ctx.size) ^^^ ctx.xout

/-- The engine on a string, handed over in so many calls. -/
def crcEngine (preset : CrcPreset) (pieces : List CrcData) : Option (BitVec 32) :=
  (pieces.foldlM crcUpdate (crcInitPreset preset)).map crcFinal

/-- The string. -/
def crcString (pieces : List CrcData) : List u8 := pieces.flatMap CrcData.data

/-! ## The tables are those of the mirrored polynomials -/

theorem isTable_crc16 : IsTable 0xA001#16 crc16Table := by
  have hall : crc16Table = byteTable 0xA001#16 := by decide +kernel
  rw [hall]
  exact isTable_byteTable

/-- What the table holds for the low byte `k`. -/
def crc32Word (k : ℕ) : BitVec 32 := shiftDowns 0xEDB88320#32 8 (BitVec.ofNat 32 k)

theorem crcTableWord_eq (h : BitVec 32) : crcTableWord h = shiftDown 0xEDB88320#32 h := by
  simp only [crcTableWord, shiftDown, and_one_ne_zero (show 0 < 32 by omega)]
  exact BitVec.xor_comm _ _

/-- The word of half a power is one move further. -/
theorem crc32Word_half {n : ℕ} (hn : n < 8) :
    crcTableWord (crc32Word (2 ^ (n + 1))) = crc32Word (2 ^ n) := by
  have hlow : (BitVec.ofNat 32 (2 ^ (n + 1))).getLsbD 0 = false := by
    rw [BitVec.getLsbD_ofNat, Nat.testBit_two_pow_of_ne n.succ_ne_zero, Bool.and_false]
  have hhalf : BitVec.ofNat 32 (2 ^ (n + 1)) >>> 1 = BitVec.ofNat 32 (2 ^ n) := by
    have hlt : 2 ^ (n + 1) < 2 ^ 32 := Nat.pow_lt_pow_right (by omega) (by omega)
    have hpow : 2 ^ (n + 1) = 2 ^ n * 2 := rfl
    rw [← BitVec.toNat_inj, BitVec.toNat_ushiftRight, BitVec.toNat_ofNat, BitVec.toNat_ofNat,
      Nat.shiftRight_one]
    omega
  rw [crcTableWord_eq, crc32Word, shiftDown_shiftDowns, shiftDown_low hlow, hhalf, crc32Word]

/-- A bit and the bits above it: the words add up. -/
theorem crc32Word_add {n m : ℕ} (hn : n < 8) (hm : m < 128) :
    crc32Word (2 ^ (n + 1) * m + 2 ^ n) = crc32Word (2 ^ (n + 1) * m) ^^^ crc32Word (2 ^ n) := by
  have hall : ∀ n < 8, ∀ m < 128, 2 ^ (n + 1) * m + 2 ^ n = 2 ^ (n + 1) * m ^^^ 2 ^ n := by
    decide +kernel
  rw [crc32Word, hall n hn m hm, BitVec.ofNat_xor, shiftDowns_xor, crc32Word, crc32Word]

/-- A row writes beside what it reads. -/
theorem getD_crcTableRow {i k : ℕ} {h : BitVec 32} {js : List ℕ} {t : List (BitVec 32)}
    (hread : ∀ j ∈ js, ∀ j' ∈ js, i + j ≠ j') (hin : ∀ j ∈ js, i + j < t.length) :
    (js.foldl (fun table j => table.set (i + j) (table.getD j 0#32 ^^^ h)) t).getD k 0#32 =
      if i ≤ k ∧ k - i ∈ js then t.getD (k - i) 0#32 ^^^ h else t.getD k 0#32 := by
  induction js generalizing t with
  | nil => simp
  | cons j js ih =>
    have hset (k : ℕ) (v : BitVec 32) : (t.set (i + j) v).getD k 0#32 =
        if k = i + j then v else t.getD k 0#32 := by
      have hj := hin j List.mem_cons_self
      rw [List.getD_eq_getElem?_getD, List.getElem?_set]
      by_cases hk : k = i + j
      · simp [hk, hj]
      · simp [hk, Ne.symm hk]
    have hrest := fun j' hj' j'' hj'' =>
      hread j' (List.mem_cons_of_mem j hj') j'' (List.mem_cons_of_mem j hj'')
    have hlen : ∀ j' ∈ js, i + j' < (t.set (i + j) (t.getD j 0#32 ^^^ h)).length := by
      intro j' hj'
      rw [List.length_set]
      exact hin j' (List.mem_cons_of_mem j hj')
    rw [List.foldl_cons, ih hrest hlen, hset, hset]
    by_cases hmem : i ≤ k ∧ k - i ∈ js
    · have hne := hread j List.mem_cons_self (k - i) (List.mem_cons_of_mem j hmem.2)
      rw [if_pos hmem, if_neg fun h => hne h.symm,
        if_pos ⟨hmem.1, List.mem_cons_of_mem j hmem.2⟩]
    · rw [if_neg hmem]
      by_cases hk : k = i + j
      · have hself : k - i = j := by omega
        rw [if_pos hk, hself, if_pos ⟨by omega, List.mem_cons_self⟩]
      · have hnot : ¬(i ≤ k ∧ k - i ∈ j :: js) := by
          rintro ⟨hle, hcons⟩
          rcases List.mem_cons.mp hcons with hj | hj
          · omega
          · exact hmem ⟨hle, hj⟩
        rw [if_neg hk, if_neg hnot]

theorem length_crcTableRow (i : ℕ) (h : BitVec 32) (t : List (BitVec 32)) :
    (crcTableRow i h t).length = t.length := by
  have hloop (js : List ℕ) (t : List (BitVec 32)) :
      (js.foldl (fun table j => table.set (i + j) (table.getD j 0#32 ^^^ h)) t).length =
        t.length := by
    induction js generalizing t with
    | nil => rfl
    | cons j js ih => rw [List.foldl_cons, ih, List.length_set]
  exact hloop _ t

theorem two_pow_mul_div {n : ℕ} (hn : n < 8) : 2 ^ (n + 1) * (256 / 2 ^ (n + 1)) = 256 := by
  have hall : ∀ n < 8, 2 ^ (n + 1) * (256 / 2 ^ (n + 1)) = 256 := by decide
  exact hall n hn

/-- The values of `j` are the multiples of the next power. -/
theorem mem_crcTableRow {n j : ℕ} (hn : n < 8) :
    j ∈ (List.range (256 / (2 * 2 ^ n))).map (2 * 2 ^ n * ·) ↔ 2 ^ (n + 1) ∣ j ∧ j < 256 := by
  have hpow : 2 * 2 ^ n = 2 ^ (n + 1) := Nat.pow_succ'.symm
  rw [List.mem_map, hpow]
  constructor
  · rintro ⟨m, hm, rfl⟩
    have hlt := Nat.mul_lt_mul_of_pos_left (List.mem_range.mp hm) (Nat.two_pow_pos (n + 1))
    rw [two_pow_mul_div hn] at hlt
    exact ⟨Dvd.intro m rfl, hlt⟩
  · rintro ⟨⟨m, rfl⟩, hlt⟩
    rw [← two_pow_mul_div hn] at hlt
    exact ⟨m, List.mem_range.mpr (Nat.lt_of_mul_lt_mul_left hlt), rfl⟩

/-- What a row writes, it does not read, and it writes into the table. -/
theorem two_pow_add_row {n j : ℕ} (hn : n < 8) (hj : 2 ^ (n + 1) ∣ j) (hlt : j < 256) :
    ¬2 ^ (n + 1) ∣ 2 ^ n + j ∧ 2 ^ n + j < 256 := by
  have hpow : 2 ^ (n + 1) = 2 * 2 ^ n := Nat.pow_succ'
  have hpos := Nat.two_pow_pos n
  constructor
  · intro h
    have hle := Nat.le_of_dvd hpos ((Nat.dvd_add_left hj).mp h)
    omega
  · obtain ⟨m, rfl⟩ := hj
    rw [← two_pow_mul_div hn] at hlt
    have hstep : 2 ^ (n + 1) * (m + 1) ≤ 2 ^ (n + 1) * (256 / 2 ^ (n + 1)) :=
      Nat.mul_le_mul_left _ (Nat.lt_of_mul_lt_mul_left hlt)
    rw [Nat.mul_add, Nat.mul_one, two_pow_mul_div hn] at hstep
    omega

/-- A multiple of a power is one of the next power, or lies one power above. -/
theorem two_pow_dvd_cases {n k : ℕ} (h : 2 ^ n ∣ k) :
    2 ^ (n + 1) ∣ k ∨ ∃ m, k = 2 ^ (n + 1) * m + 2 ^ n := by
  have hpow : 2 ^ (n + 1) = 2 ^ n * 2 := rfl
  obtain ⟨q, rfl⟩ := h
  obtain ⟨r, rfl | rfl⟩ := Nat.even_or_odd' q
  · exact .inl ⟨r, by rw [hpow, Nat.mul_assoc]⟩
  · exact .inr ⟨r, by rw [hpow, Nat.mul_add, Nat.mul_one, Nat.mul_assoc]⟩

/-- **One row of the fill**: it doubles the words that are right. -/
theorem crcTableRow_words {n : ℕ} (hn : n < 8) {t : List (BitVec 32)} (hlen : t.length = 256)
    (ht : ∀ k < 256, 2 ^ (n + 1) ∣ k → t.getD k 0#32 = crc32Word k) {k : ℕ} (hk : k < 256)
    (hdvd : 2 ^ n ∣ k) :
    (crcTableRow (2 ^ n) (crc32Word (2 ^ n)) t).getD k 0#32 = crc32Word k := by
  have hpos := Nat.two_pow_pos n
  have hpow : 2 ^ (n + 1) = 2 * 2 ^ n := Nat.pow_succ'
  rw [crcTableRow, getD_crcTableRow]
  · rcases two_pow_dvd_cases hdvd with hup | ⟨m, rfl⟩
    · rw [if_neg, ht k hk hup]
      rintro ⟨hle, hmem⟩
      obtain ⟨hsub, hlt⟩ := (mem_crcTableRow hn).mp hmem
      have hnot := (two_pow_add_row hn hsub hlt).1
      rw [Nat.add_sub_cancel' hle] at hnot
      exact hnot hup
    · have hback : 2 ^ (n + 1) * m + 2 ^ n - 2 ^ n = 2 ^ (n + 1) * m := by omega
      have hsmall : m < 128 := by
        have hle : 2 * m ≤ 2 ^ (n + 1) * m := Nat.mul_le_mul_right m (by omega)
        omega
      have hdown := ht (2 ^ (n + 1) * m) (by omega) ⟨m, rfl⟩
      have hmem := (mem_crcTableRow hn).mpr ⟨Dvd.intro m rfl, show 2 ^ (n + 1) * m < 256 by omega⟩
      rw [hback, if_pos ⟨by omega, hmem⟩, hdown, crc32Word_add hn hsmall]
  · intro j hj j' hj' heq
    obtain ⟨hread, hlt⟩ := (mem_crcTableRow hn).mp hj
    exact (two_pow_add_row hn hread hlt).1 (heq ▸ ((mem_crcTableRow hn).mp hj').1)
  · intro j hj
    obtain ⟨hread, hlt⟩ := (mem_crcTableRow hn).mp hj
    rw [hlen]
    exact (two_pow_add_row hn hread hlt).2

theorem crcTableRows_words {n : ℕ} (hn : n ≤ 8) {t : List (BitVec 32)} (hlen : t.length = 256)
    (ht : ∀ k < 256, 2 ^ n ∣ k → t.getD k 0#32 = crc32Word k) {k : ℕ} (hk : k < 256) :
    (((List.range n).reverse.map (2 ^ ·)).foldl
      (fun (h, table) i => (crcTableWord h, crcTableRow i (crcTableWord h) table))
      (crc32Word (2 ^ n), t)).2.getD k 0#32 = crc32Word k := by
  induction n generalizing t with
  | zero => exact ht k hk (Nat.one_dvd k)
  | succ n ih =>
    have hword := crc32Word_half (show n < 8 by omega)
    rw [List.range_succ, List.reverse_append, List.reverse_singleton, List.singleton_append,
      List.map_cons, List.foldl_cons]
    simp only [hword]
    refine ih (by omega) ?_ ?_
    · rw [length_crcTableRow, hlen]
    · exact fun k hk hdvd => crcTableRow_words (by omega) hlen ht hk hdvd

/-- **The fill of `crc_table`**: at its end every word is there. -/
theorem isTable_crc32 : IsTable 0xEDB88320#32 (crcTableFill crcTableZero) := by
  intro k hk
  have hrows : ((List.range 8).reverse.map (2 ^ ·) : List ℕ) = [128, 64, 32, 16, 8, 4, 2, 1] := by
    decide
  have hstart : crc32Word (2 ^ 8) = 1#32 := by decide +kernel
  have hzero : crcTableZero.set 0 0#32 = crcTableZero := by decide +kernel
  have hfirst : ∀ k < 256, 2 ^ 8 ∣ k → crcTableZero.getD k 0#32 = crc32Word k := by
    intro k hk hdvd
    have hk0 : k = 0 := Nat.eq_zero_of_dvd_of_lt hdvd hk
    subst hk0
    decide +kernel
  have hall := crcTableRows_words (show 8 ≤ 8 by omega) List.length_replicate hfirst hk
  rw [hrows, hstart] at hall
  rw [crcTableFill, hzero]
  exact hall

variable {ctx : CrcCtx} {crc : BitVec 32} {data : u8} {buf : List u8} {n : ℕ}

theorem crc16Byte_eq (c : BitVec 16) :
    crc16Byte c data = shiftDowns 0xA001#16 8 (c ^^^ data.toBitVec.setWidth 16) :=
  shiftDowns_table isTable_crc16 (by omega) data.toBitVec

/-- The sign of a `char` does not reach the low byte. -/
theorem crc32Byte_index (b : BitVec 8) :
    (crc ^^^ b.signExtend 32) &&& 255#32 = (crc ^^^ b.setWidth 32) &&& 255#32 := by
  refine BitVec.eq_of_getLsbD_eq fun i hi => ?_
  rw [BitVec.getLsbD_and, BitVec.getLsbD_and, BitVec.getLsbD_xor, BitVec.getLsbD_xor,
    getLsbD_low_byte hi, BitVec.getLsbD_signExtend, BitVec.getLsbD_setWidth]
  by_cases hlow : i < 8
  · rw [if_pos hlow]
  · simp [hlow]

theorem crc32Byte_eq (st : Crc32Statics) :
    crc32Byte st.ready.table crc data =
      shiftDowns 0xEDB88320#32 8 (crc ^^^ data.toBitVec.setWidth 32) := by
  have htable : st.ready.table = crcTableFill crcTableZero := st.ready.table_eq
  rw [crc32Byte, htable, crc32Byte_index]
  exact shiftDowns_table isTable_crc32 (by omega) data.toBitVec

/-! ## The register in the mirror -/

/-- What the register holds below the width, from the other end. -/
def crcMirror (n : ℕ) (crc : BitVec 32) : BitVec n := (crc.setWidth n).reverse

theorem crcMirror_xor (x y : BitVec 32) : crcMirror n (x ^^^ y) = crcMirror n x ^^^ crcMirror n y := by
  rw [crcMirror, BitVec.setWidth_xor, reverse_xor, crcMirror, crcMirror]

/-- What was pushed out does not come back. -/
theorem setWidth_crcBit (hn : 0 < ctx.size) (hle : ctx.size ≤ 32) :
    (crcBit ctx crc).setWidth ctx.size =
      shiftUp (ctx.poly.setWidth ctx.size) (crc.setWidth ctx.size) := by
  have htop : (crc >>> (ctx.size - 1)).getLsbD 0 = (crc.setWidth ctx.size).msb := by
    rw [BitVec.getLsbD_ushiftRight, BitVec.msb_eq_getLsbD_last, BitVec.getLsbD_setWidth,
      Nat.add_zero]
    simp [show ctx.size - 1 < ctx.size by omega]
  have hmove : (crc <<< 1).setWidth ctx.size = crc.setWidth ctx.size <<< 1 := by
    refine BitVec.eq_of_getLsbD_eq fun i hi => ?_
    simp only [BitVec.getLsbD_setWidth, BitVec.getLsbD_shiftLeft]
    simp [hi, show i < 32 by omega, show i - 1 < ctx.size by omega]
  simp only [crcBit, shiftUp, and_one_ne_zero (show 0 < 32 by omega), htop, BitVec.setWidth_xor,
    hmove]
  cases (crc.setWidth ctx.size).msb
  · rw [if_neg Bool.false_ne_true, if_neg Bool.false_ne_true, BitVec.setWidth_zero]
  · rw [if_pos rfl, if_pos rfl]

theorem setWidth_crcBits (crc : BitVec 32) (hn : 0 < ctx.size) (hle : ctx.size ≤ 32) (k : ℕ) :
    ((crcBit ctx)^[k] crc).setWidth ctx.size =
      shiftUps (ctx.poly.setWidth ctx.size) k (crc.setWidth ctx.size) := by
  induction k generalizing crc with
  | zero => rfl
  | succ k ih => rw [Function.iterate_succ_apply, ih, shiftUps, setWidth_crcBit hn hle]

/-- A byte taken in at the top, its bits exchanged, is the byte at the bottom of
the mirror. -/
theorem crcMirror_data (href : ctx.reflect = true) (hn : 8 ≤ ctx.size) (hle : ctx.size ≤ 32) :
    crcMirror ctx.size (crcData ctx data <<< (ctx.size - 8)) =
      data.toBitVec.setWidth ctx.size := by
  refine BitVec.eq_of_getLsbD_eq fun i hi => ?_
  rw [crcMirror, crcData, if_pos href, BitVec.getLsbD_reverse, BitVec.getMsbD_eq_getLsbD,
    BitVec.getLsbD_setWidth, BitVec.getLsbD_setWidth, BitVec.getLsbD_shiftLeft]
  by_cases hlow : i < 8
  · have hplace : ctx.size - 1 - i - (ctx.size - 8) = 7 - i := by omega
    have hback : 8 - 1 - (7 - i) = i := by omega
    rw [hplace, getLsbD_reverseLow (by omega) (by omega) (by omega), if_pos (by omega), hback,
      BitVec.getLsbD_setWidth]
    simp [hi, show ctx.size - 1 - i < ctx.size by omega, show ctx.size - 1 - i < 32 by omega,
      show ¬ctx.size - 1 - i < ctx.size - 8 by omega, show i < 32 by omega]
  · simp [show ctx.size - 1 - i < ctx.size - 8 by omega,
      BitVec.getLsbD_of_ge data.toBitVec i (by omega)]

/-- **A byte of the engine is a byte of the mirrored register.** -/
theorem crcByte_reflected (href : ctx.reflect = true) (hn : 8 ≤ ctx.size) (hle : ctx.size ≤ 32) :
    crcMirror ctx.size (crcByte ctx crc data) =
      shiftDowns (crcMirror ctx.size ctx.poly) 8
        (crcMirror ctx.size crc ^^^ data.toBitVec.setWidth ctx.size) := by
  have hbits := setWidth_crcBits (crc ^^^ (crcData ctx data <<< (ctx.size - 8)))
    (show 0 < ctx.size by omega) hle 8
  rw [crcMirror, crcByte, hbits, reverse_shiftUps, ← crcMirror_data href hn hle, ← crcMirror_xor]
  rfl

/-- The bytes one after the other. -/
def crcBytes (ctx : CrcCtx) (crc : BitVec 32) (buf : List u8) : BitVec 32 :=
  buf.foldl (crcByte ctx) crc

theorem crcMirror_bytes (ctx : CrcCtx) (crc : BitVec 32) (buf : List u8)
    (href : ctx.reflect = true) (hn : 8 ≤ ctx.size) (hle : ctx.size ≤ 32) :
    crcMirror ctx.size (crcBytes ctx crc buf) =
      buf.foldl (fun x b => shiftDowns (crcMirror ctx.size ctx.poly) 8
        (x ^^^ b.toBitVec.setWidth ctx.size)) (crcMirror ctx.size crc) := by
  induction buf generalizing crc with
  | nil => rfl
  | cons b buf ih =>
    have hrest := ih (crcByte ctx crc b)
    rw [List.foldl_cons, ← crcByte_reflected href hn hle]
    exact hrest

theorem getLsbD_crcMask (hn : 0 < n) (hle : n ≤ 32) {i : ℕ} (hi : i < 32) :
    (crcMask n).getLsbD i = decide (i < n) := by
  have hall : ∀ n ≤ 32, 0 < n → ∀ i < 32, (crcMask n).getLsbD i = decide (i < n) := by
    decide +kernel
  exact hall n hle hn i hi

/-- The end reads the mirror. -/
theorem crcFinal_reflected (ctx : CrcCtx) (href : ctx.reflect = true) (hn : 0 < ctx.size)
    (hle : ctx.size ≤ 32) :
    crcFinal ctx = (crcMirror ctx.size ctx.crc).setWidth 32 ^^^ ctx.xout := by
  have hmask : (ctx.crc &&& crcMask ctx.size).setWidth ctx.size = ctx.crc.setWidth ctx.size := by
    refine BitVec.eq_of_getLsbD_eq fun i hi => ?_
    rw [BitVec.getLsbD_setWidth, BitVec.getLsbD_setWidth, BitVec.getLsbD_and,
      getLsbD_crcMask hn hle (by omega)]
    simp [hi]
  have hlow := setWidth_reverseLow (x := ctx.crc &&& crcMask ctx.size) hle
  have hbits : reverseLow ctx.size (ctx.size / 2) (ctx.crc &&& crcMask ctx.size) =
      (crcMirror ctx.size ctx.crc).setWidth 32 := by
    rw [crcMirror, ← hmask, ← hlow]
    refine BitVec.eq_of_getLsbD_eq fun i hi => ?_
    rw [BitVec.getLsbD_setWidth, BitVec.getLsbD_setWidth]
    by_cases hin : i < ctx.size
    · simp [hin, hi]
    · rw [getLsbD_reverseLow hle (by omega) hi, if_neg (by omega), BitVec.getLsbD_and,
        getLsbD_crcMask hn hle hi]
      simp [hin]
  rw [crcFinal, if_pos href, hbits]

/-! ## The count of a call -/

theorem crcUpdateLoop_eq {i : ℕ} (hi : i ≤ 2 ^ 31) :
    crcUpdateLoop ctx i crc buf =
      if i + buf.length ≤ 2 ^ 31 then some (crcBytes ctx crc buf) else none := by
  induction buf generalizing i crc with
  | nil => rw [crcUpdateLoop, List.length_nil, Nat.add_zero, if_pos hi, crcBytes, List.foldl_nil]
  | cons d buf ih =>
    rw [crcUpdateLoop, List.length_cons]
    by_cases hindex : i < 2 ^ 31
    · have hsum : i + 1 + buf.length = i + (buf.length + 1) := by omega
      rw [if_pos hindex, ih (by omega), hsum]
      rfl
    · rw [if_neg hindex, if_neg (by omega)]

theorem crcUpdate_eq (d : CrcData) :
    crcUpdate ctx d =
      if d.data.length ≤ 2 ^ 31 then some { ctx with crc := crcBytes ctx ctx.crc d.data }
      else none := by
  rw [crcUpdate, crcUpdateLoop_eq (by omega), Nat.zero_add]
  by_cases hle : d.data.length ≤ 2 ^ 31
  · rw [if_pos hle, if_pos hle, Option.map_some]
  · rw [if_neg hle, if_neg hle, Option.map_none]

/-- Every call can index its bytes. -/
def CrcCounted (pieces : List CrcData) : Prop := ∀ d ∈ pieces, d.data.length ≤ 2 ^ 31

instance instDecidableCrcCounted (pieces : List CrcData) : Decidable (CrcCounted pieces) :=
  inferInstanceAs (Decidable (∀ d ∈ pieces, d.data.length ≤ 2 ^ 31))

/-- **The calls of a string**, as many as there are, take in its bytes one
after the other, when each can index them. -/
theorem crcUpdates_eq (pieces : List CrcData) :
    pieces.foldlM crcUpdate ctx =
      if CrcCounted pieces then some { ctx with crc := crcBytes ctx ctx.crc (crcString pieces) }
      else none := by
  induction pieces generalizing ctx with
  | nil => rfl
  | cons d pieces ih =>
    rw [List.foldlM_cons, crcUpdate_eq]
    by_cases hle : d.data.length ≤ 2 ^ 31
    · have hall : CrcCounted (d :: pieces) ↔ CrcCounted pieces := by
        rw [CrcCounted, List.forall_mem_cons]
        exact and_iff_right hle
      have hbytes (c : BitVec 32) : crcBytes ctx c (crcString (d :: pieces)) =
          crcBytes ctx (crcBytes ctx c d.data) (crcString pieces) := List.foldl_append
      rw [if_pos hle, Option.bind_eq_bind, Option.bind_some, ih, hbytes]
      by_cases hrest : CrcCounted pieces
      · rw [if_pos hrest, if_pos (hall.mpr hrest)]
        rfl
      · rw [if_neg hrest, if_neg fun h => hrest (hall.mp h)]
    · have hnot : ¬CrcCounted (d :: pieces) := fun h => hle (h d List.mem_cons_self)
      rw [if_neg hle, if_neg hnot]
      rfl

/-- **The engine with a reflected preset**, read off the mirror. -/
theorem crcEngine_eq (preset : CrcPreset) (pieces : List CrcData)
    (href : (crcInitPreset preset).reflect = true) (hn : 0 < (crcInitPreset preset).size)
    (hle : (crcInitPreset preset).size ≤ 32) :
    crcEngine preset pieces =
      if CrcCounted pieces then
        some ((crcMirror (crcInitPreset preset).size
          (crcBytes (crcInitPreset preset) (crcInitPreset preset).crc (crcString pieces))).setWidth
            32 ^^^ (crcInitPreset preset).xout)
      else none := by
  rw [crcEngine, crcUpdates_eq]
  by_cases hall : CrcCounted pieces
  · have hfinal := crcFinal_reflected { crcInitPreset preset with
      crc := crcBytes (crcInitPreset preset) (crcInitPreset preset).crc (crcString pieces) }
      href hn hle
    rw [if_pos hall, if_pos hall, Option.map_some, hfinal]
  · rw [if_neg hall, if_neg hall, Option.map_none]

theorem crcEngine_crc16 (pieces : List CrcData) :
    crcEngine .crc16 pieces =
      if CrcCounted pieces then some ((crc16 0#16 (crcString pieces)).setWidth 32) else none := by
  have hpoly : crcMirror 16 0x8005#32 = 0xA001#16 := by decide +kernel
  have hfold : crcMirror 16 (crcBytes (crcInitPreset .crc16) 0#32 (crcString pieces)) =
      crc16 0#16 (crcString pieces) := by
    have hbyte : crc16Byte = fun x b => shiftDowns 0xA001#16 8 (x ^^^ b.toBitVec.setWidth 16) :=
      funext fun x => funext fun b => crc16Byte_eq x
    have h := crcMirror_bytes (crcInitPreset .crc16) 0#32 (crcString pieces) rfl (by decide)
      (by decide)
    rw [crc16, hbyte, ← hpoly]
    exact h
  rw [crcEngine_eq .crc16 pieces rfl (by decide) (by decide), ← hfold]
  simp only [crcInitPreset]
  simp

theorem crcEngine_crc32 (st : Crc32Statics) (pieces : List CrcData) :
    crcEngine .crc32 pieces =
      if CrcCounted pieces then some (crc32 st (crcString pieces)).1 else none := by
  have hpoly : crcMirror 32 0x04C11DB7#32 = 0xEDB88320#32 := by decide +kernel
  have hstart : crcMirror 32 0xFFFFFFFF#32 = 0#32 ^^^ 0xFFFFFFFF#32 := by decide +kernel
  have hfold : crcMirror 32 (crcBytes (crcInitPreset .crc32) 0xFFFFFFFF#32 (crcString pieces)) =
      (crcString pieces).foldl (crc32Byte st.ready.table) (0#32 ^^^ 0xFFFFFFFF#32) := by
    have hbyte : crc32Byte st.ready.table =
        fun x b => shiftDowns 0xEDB88320#32 8 (x ^^^ b.toBitVec.setWidth 32) :=
      funext fun x => funext fun b => crc32Byte_eq st
    have h := crcMirror_bytes (crcInitPreset .crc32) 0xFFFFFFFF#32 (crcString pieces) rfl
      (by decide) (by decide)
    rw [hbyte, ← hpoly, ← hstart]
    exact h
  rw [crcEngine_eq .crc32 pieces rfl (by decide) (by decide), crc32, ← hfold]
  simp only [crcInitPreset]
  simp

/-- **The hard-coded CRCs and the engine**: they agree on every string, in as
many calls as one likes, exactly when no call of `crc_update` is handed more
bytes than its `int` can index. -/
theorem crcEngine_iff_counted (st : Crc32Statics) (pieces : List CrcData) :
    (crcEngine .crc16 pieces = some ((crc16 0#16 (crcString pieces)).setWidth 32) ∧
      crcEngine .crc32 pieces = some (crc32 st (crcString pieces)).1) ↔
        ∀ d ∈ pieces, d.data.length ≤ 2 ^ 31 := by
  rw [crcEngine_crc16, crcEngine_crc32 st]
  by_cases hall : CrcCounted pieces
  · rw [if_pos hall, if_pos hall]
    exact ⟨fun _ => hall, fun _ => ⟨rfl, rfl⟩⟩
  · rw [if_neg hall]
    refine ⟨fun h => ?_, fun h => absurd h hall⟩
    cases h.1

/-- Two gigabytes of zeros and one more, in one call. -/
theorem length_crcZeros : (List.replicate (2 ^ 31 + 1) (0 : u8)).length < 2 ^ 32 := by
  rw [List.length_replicate]
  omega

def crcZeros : CrcData := ⟨List.replicate (2 ^ 31 + 1) 0, length_crcZeros⟩

theorem crcEngine_zeros :
    crcEngine .crc16 [crcZeros] ≠ some ((crc16 0#16 crcZeros.data).setWidth 32) ∧
      crcEngine .crc32 [crcZeros] ≠ some (crc32 Crc32Statics.start crcZeros.data).1 := by
  have hnot : ¬CrcCounted [crcZeros] := by
    intro h
    have hle := h crcZeros List.mem_cons_self
    rw [crcZeros, List.length_replicate] at hle
    omega
  rw [crcEngine_crc16, crcEngine_crc32 Crc32Statics.start, if_neg hnot, if_neg hnot]
  exact ⟨(Option.some_ne_none _).symm, (Option.some_ne_none _).symm⟩

end Radare
