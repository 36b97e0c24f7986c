import Radare.Rio.BlockOp
import Radare.Rio.HexPairs
import Radare.Rio.Masks
/-!
# Keys that are taken back

Addition, subtraction and exclusive or with a key have an inverse with the
same key: what one of them makes of a block, written and read again, the
other makes into the block there was (`block_op_restores`). The key is what
`hexstr2binstr` makes of the argument; there is an argument for every one
(`decodeKey_hexPairs`).
-/

namespace Radare

variable {fresh : ℕ → u8} {s : State} {block key str buf : List u8} {j : ℕ}

/-- The operations with an inverse. -/
inductive KeyOp where
  | add
  | sub
  | xor
deriving DecidableEq

namespace KeyOp

/-- The character of the command. -/
def char : KeyOp → u8
  | add => 97
  | sub => 115
  | xor => 120

/-- A byte with one of the key, modulo 256. -/
def apply : KeyOp → u8 → u8 → u8
  | add, b, k => b + k
  | sub, b, k => b - k
  | xor, b, k => b ^^^ k

def inverse : KeyOp → KeyOp
  | add => sub
  | sub => add
  | xor => xor

variable {op : KeyOp}

theorem inverse_apply (b k : u8) : op.inverse.apply (op.apply b k) k = b := by
  cases op with
  | add => exact UInt8.add_sub_cancel b k
  | sub => exact UInt8.sub_add_cancel b k
  | xor => exact (UInt8.xor_assoc b k k).trans (by rw [UInt8.xor_self, UInt8.xor_zero])

theorem blockByte_char (b k : u8) : blockByte op.char b (some k) = some (op.apply b k) := by
  cases op <;> rfl

theorem opBuffer_char (str : List u8) (len : ℕ) (block : List u8) :
    opBuffer str len block op.char = cyclicLoop op.char str len 0 block := by
  cases op <;> rfl

/-- The block with the key repeated over it. -/
def combine (op : KeyOp) (key block : List u8) : List u8 :=
  block.mapIdx fun i b => op.apply b (key.getD (i % key.length) 0)

theorem length_combine : (op.combine key block).length = block.length := List.length_mapIdx

/-- **The inverse takes the key back**, byte by byte. -/
theorem inverse_combine : op.inverse.combine key (op.combine key block) = block := by
  unfold combine
  rw [List.mapIdx_mapIdx]
  refine List.mapIdx_eq_iff.mpr fun i => ?_
  have hid : (fun b => op.inverse.apply b (key.getD (i % key.length) 0)) ∘
      (fun b => op.apply b (key.getD (i % key.length) 0)) = id :=
    funext fun b => inverse_apply b _
  rw [hid, Option.map_id, id]

theorem combine_cons (k : ℕ → u8) (b : u8) (block : List u8) :
    (b :: block).mapIdx (fun i b => op.apply b (k i)) =
      op.apply b (k 0) :: block.mapIdx fun i b => op.apply b (k (i + 1)) :=
  List.mapIdx_cons

/-- The loop from one byte of the key on. -/
theorem cyclicLoop_char (hkey : str.take key.length = key) (hj : j < key.length) :
    cyclicLoop op.char str key.length j block =
      some (block.mapIdx fun i b => op.apply b (key.getD ((j + i) % key.length) 0)) := by
  induction block generalizing j with
  | nil => rfl
  | cons b block ih =>
    -- the byte of the key, and the place of the next: behind the last comes the first
    have hget : str[j]? = some (key.getD j 0) := by
      have hstr : str[j]? = key[j]? := by
        rw [← List.getElem?_take_of_lt hj, hkey]
      rw [hstr, List.getD, List.getElem?_eq_getElem hj, Option.getD_some]
    have hnext : (if j + 1 ≥ key.length then 0 else j + 1) = (j + 1) % key.length := by
      split_ifs with hge
      · rw [show j + 1 = key.length by omega, Nat.mod_self]
      · rw [Nat.mod_eq_of_lt (by omega)]
    have hlt : (j + 1) % key.length < key.length := Nat.mod_lt _ (by omega)
    have hshift : ∀ i, ((j + 1) % key.length + i) % key.length = (j + (i + 1)) % key.length := by
      intro i
      rw [Nat.mod_add_mod, Nat.add_assoc, Nat.add_comm 1]
    rw [cyclicLoop, hget, blockByte_char, Option.bind_eq_bind, Option.bind_some, hnext, ih hlt,
      combine_cons fun i => key.getD ((j + i) % key.length) 0]
    simp only [hshift, Nat.add_zero, Nat.mod_eq_of_lt hj]
    rfl

/-- **Byte `i` meets byte `i % len` of the key.** -/
theorem opBuffer_combine (hkey : str.take key.length = key) (hne : key ≠ []) :
    opBuffer str key.length block op.char = some (op.combine key block) := by
  rw [opBuffer_char, cyclicLoop_char hkey (List.length_pos_iff.mpr hne)]
  simp only [Nat.zero_add]
  rfl

end KeyOp

/-! ## The argument -/

/-- The argument is decoded to the key. -/
def KeyOf (getMath : List u8 → ut64) (fresh : ℕ → u8) (behind arg key : List u8) : Prop :=
  ∃ str, decodeKey getMath fresh behind arg = some (str, key.length) ∧ str.take key.length = key

/-- **Every key has an argument**: its bytes in pairs of digits. -/
theorem decodeKey_hexPairs (getMath : List u8 → ut64) (fresh : ℕ → u8) (behind key : List u8) :
    KeyOf getMath fresh behind (hexPairs key) key := by
  have hroom : key.length ≤ (malloc fresh (hexPairs key).length).length := by
    rw [length_malloc, length_hexPairs]
    omega
  obtain ⟨out, hrun, htake⟩ := hexstr2binstr_hexPairs getMath behind hroom
  refine ⟨out, ?_, htake⟩
  unfold decodeKey
  dsimp only
  rw [hrun, Option.map_some, List.drop_left]

theorem writeOpBuffer_combine {getMath : List u8 → ut64} {behind arg : List u8} {op : KeyOp}
    (hkey : KeyOf getMath fresh behind arg key) (hne : key ≠ []) (block : List u8) :
    writeOpBuffer getMath fresh behind block arg op.char = some (op.combine key block) := by
  obtain ⟨str, hdecode, htake⟩ := hkey
  unfold writeOpBuffer
  rw [hdecode, Option.bind_some]
  exact KeyOp.opBuffer_combine htake hne

/-! ## Written and read again -/

/-- The block can be written, and is read back from where it went. -/
structure State.Workable (s : State) : Prop where
  write : s.eval.write = true
  writeMask : s.writeMask = none
  ioMaps : s.ioMaps = []
  vaddr : s.config.vaddr = 0
  allowed : ¬s.Barred s.config.seek
  /-- One write takes the block, and one read. -/
  most : s.config.block.length ≤ readMost
  small : s.config.seek.toNat + s.config.block.length < 2 ^ 63

theorem blockAt_fileWrite (file : List u8) (p : ℕ) (data : List u8) :
    blockAt (fileWrite file p data) p data.length = data := by
  by_cases hnil : data = []
  · subst hnil
    rfl
  have hfront : ((file ++ List.replicate (p - file.length) 0).take p).length = p := by
    rw [List.length_take, List.length_append, List.length_replicate]
    omega
  unfold blockAt fileWrite overlay
  rw [if_neg hnil, List.append_assoc, List.drop_left' hfront, List.take_left, List.drop_eq_nil_of_le
    (by rw [List.length_replicate]), List.append_nil]

/-- **What is written at the seek is read there.** -/
theorem State.Workable.written (h : s.Workable) (fresh : ℕ → u8)
    (hbuf : buf.length = s.config.block.length) :
    ∃ t, (radareRead (radareWriteAt fresh s s.config.seek buf).1 false).1 = t ∧
      t.Workable ∧ t.config.block = buf := by
  have hsmall := h.small
  have hseek : s.config.seek.toNat < 2 ^ 63 := by omega
  obtain ⟨records, hrun⟩ := radareWriteAt_of_not_barred fresh buf h.vaddr hseek h.allowed
  have hthrough : s.through buf = buf := by
    unfold State.through
    rw [h.writeMask]
  have hmost : buf.length ≤ readMost := hbuf.trans_le h.most
  rw [hthrough, ioWrite_eq, List.take_of_length_le hmost, radareSeek_eq _ hseek] at hrun
  rotate_left
  · exact h.vaddr
  · exact h.write
  -- the seek has come back, and reads what has just been written there
  have hread := radareRead_eq (s := (radareWriteAt fresh s s.config.seek buf).1)
    (by rw [hrun]; exact h.vaddr) (by rw [hrun]; exact h.ioMaps) (by rw [hrun]; exact h.most)
    (by rw [hrun]; exact hseek) false (by rw [hrun]; rfl) hseek
  have hblock : blockAt (fileWrite s.file s.config.seek.toNat buf) s.config.seek.toNat
      s.config.block.length = buf := by
    rw [← hbuf, blockAt_fileWrite]
  rw [hread, hrun]
  have hlen : (blockAt (fileWrite s.file s.config.seek.toNat buf) s.config.seek.toNat
      s.config.block.length).length = s.config.block.length := blockAt_length
  exact ⟨_, rfl, ⟨h.write, h.writeMask, h.ioMaps, h.vaddr, h.allowed, hlen.trans_le h.most,
    by rw [← hlen] at hsmall; exact hsmall⟩, hblock⟩

/-- **An operation, and the block read again.** -/
theorem State.Workable.radareWriteOp (h : s.Workable) {getMath : List u8 → ut64}
    {behind arg : List u8} (op : KeyOp) (hkey : KeyOf getMath fresh behind arg key)
    (hne : key ≠ []) :
    ∃ t r, radareWriteOp getMath fresh behind s arg op.char = some (t, r) ∧
      (radareRead t false).1.Workable ∧
      (radareRead t false).1.config.block = op.combine key s.config.block := by
  obtain ⟨u, rfl, hwork, hblock⟩ := h.written fresh
    (KeyOp.length_combine : (op.combine key s.config.block).length = _)
  refine ⟨_, (radareWriteAt fresh s s.config.seek (op.combine key s.config.block)).2, ?_, hwork,
    hblock⟩
  unfold Radare.radareWriteOp
  rw [writeOpBuffer_combine hkey hne, Option.map_some]

/-- **An operation and its inverse.** Byte `i` is combined with byte
`i % len` of the key; and the inverse, by the same key, makes the block
again: of the buffer that was to be written, and of the block read back. -/
theorem block_op_restores (op : KeyOp) (key : List u8) (hne : key ≠ [])
    (getMath getMath' : List u8 → ut64) (fresh fresh' : ℕ → u8)
    (behind behind' arg arg' : List u8) (hkey : KeyOf getMath fresh behind arg key)
    (hkey' : KeyOf getMath' fresh' behind' arg' key) :
    (∀ block, ∃ buf, writeOpBuffer getMath fresh behind block arg op.char = some buf ∧
      (∀ i, buf[i]? = block[i]?.map fun b => op.apply b (key.getD (i % key.length) 0)) ∧
      writeOpBuffer getMath' fresh' behind' buf arg' op.inverse.char = some block) ∧
    ∀ s : State, s.Workable → ∃ t r t' r',
      radareWriteOp getMath fresh behind s arg op.char = some (t, r) ∧
      (radareRead t false).1.config.block = op.combine key s.config.block ∧
      radareWriteOp getMath' fresh' behind' (radareRead t false).1 arg' op.inverse.char =
        some (t', r') ∧
      (radareRead t' false).1.config.block = s.config.block := by
  constructor
  · intro block
    refine ⟨op.combine key block, writeOpBuffer_combine hkey hne block, fun i => ?_, ?_⟩
    · exact List.getElem?_mapIdx
    · rw [writeOpBuffer_combine hkey' hne, KeyOp.inverse_combine]
  · intro s hs
    obtain ⟨t, r, hrun, hwork, hblock⟩ := hs.radareWriteOp op hkey hne
    -- the inverse starts from the block that has been read back
    obtain ⟨t', r', hrun', -, hblock'⟩ := hwork.radareWriteOp op.inverse hkey' hne
    refine ⟨t, r, t', r', hrun, hblock, hrun', hblock'.trans ?_⟩
    rw [hblock, KeyOp.inverse_combine]

/-- `woa 01ff` and `wos 01ff`, over `FE FF 00`. -/
theorem add_restores :
    (∀ block, ∃ buf,
      writeOpBuffer (fun _ => 0) (fun _ => 0) [] block [48, 49, 102, 102] 97 = some buf ∧
      writeOpBuffer (fun _ => 0) (fun _ => 0) [] buf [48, 49, 102, 102] 115 = some block) ∧
    ∃ t r t' r',
      radareWriteOp (fun _ => 0) (fun _ => 0) [] (radareRead (openFile [0xfe, 0xff, 0] 3 1) false).1
        [48, 49, 102, 102] 97 = some (t, r) ∧
      (radareRead t false).1.config.block = [0xff, 0xfe, 1] ∧
      radareWriteOp (fun _ => 0) (fun _ => 0) [] (radareRead t false).1 [48, 49, 102, 102] 115 =
        some (t', r') ∧
      (radareRead t' false).1.config.block = [0xfe, 0xff, 0] := by
  have hkey : KeyOf (fun _ => 0) (fun _ => 0) [] [48, 49, 102, 102] [0x01, 0xff] :=
    decodeKey_hexPairs (fun _ => 0) (fun _ => 0) [] [0x01, 0xff]
  obtain ⟨hblock, hstate⟩ := block_op_restores .add [0x01, 0xff] (by decide) (fun _ => 0)
    (fun _ => 0) (fun _ => 0) (fun _ => 0) [] [] [48, 49, 102, 102] [48, 49, 102, 102] hkey hkey
  obtain ⟨t, r, t', r', hrun, hread, hrun', hread'⟩ :=
    hstate (radareRead (openFile [0xfe, 0xff, 0] 3 1) false).1
      ⟨rfl, rfl, rfl, rfl, by decide, by decide, by decide⟩
  refine ⟨fun block => ?_, t, r, t', r', hrun, hread.trans (by decide), hrun',
    hread'.trans (by decide)⟩
  obtain ⟨buf, hbuf, -, hback⟩ := hblock block
  exact ⟨buf, hbuf, hback⟩

end Radare
