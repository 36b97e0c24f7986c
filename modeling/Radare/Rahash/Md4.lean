import Radare.Rahash.Md5
/-!
# MD4

`mdfour` of `md4.c` has the whole message at once: it works on blocks as long
as more than one is there, and puts what is left into a buffer for two. The
digest is that of the padded message (`mdfour_eq`), of which the field has the
number of bits in four bytes only, and four zeros behind them.
-/

namespace Radare

open Common

/-! ## `mdfour64` -/

/-- `lshift`. -/
def md4Shift (x : BitVec 32) (s : ℕ) : BitVec 32 :=
  let x := x &&& 0xFFFFFFFF
  x <<< s &&& 0xFFFFFFFF ||| x >>> (32 - s)

/-- `ROUND1`, `ROUND2` and `ROUND3`, of a function of three words and a
constant. The words go round, so that the next one is in front. -/
def md4Step (g : BitVec 32 → BitVec 32 → BitVec 32 → BitVec 32) (ac : BitVec 32)
    (x : List (BitVec 32)) (r : Md5State 32) (op : ℕ × ℕ) : Md5State 32 :=
  ⟨r.d, md4Shift (r.a + g r.b r.c r.d + x.getD op.1 0 + ac) op.2, r.b, r.c⟩

/-- The words of the rounds, and how far to turn. -/
def md4Round1 : List (ℕ × ℕ) := [
  (0, 3), (1, 7), (2, 11), (3, 19), (4, 3), (5, 7), (6, 11), (7, 19),
  (8, 3), (9, 7), (10, 11), (11, 19), (12, 3), (13, 7), (14, 11), (15, 19)]

def md4Round2 : List (ℕ × ℕ) := [
  (0, 3), (4, 5), (8, 9), (12, 13), (1, 3), (5, 5), (9, 9), (13, 13),
  (2, 3), (6, 5), (10, 9), (14, 13), (3, 3), (7, 5), (11, 9), (15, 13)]

def md4Round3 : List (ℕ × ℕ) := [
  (0, 3), (8, 9), (4, 11), (12, 15), (2, 3), (10, 9), (6, 11), (14, 15),
  (1, 3), (9, 9), (5, 11), (13, 15), (3, 3), (11, 9), (7, 11), (15, 15)]

/-- `mdfour64`. -/
def mdfour64 (x : List (BitVec 32)) (s : Md5State 32) : Md5State 32 :=
  let r := md4Round1.foldl (md4Step (fun x y z => x &&& y ||| ~~~x &&& z) 0 x) s
  let r := md4Round2.foldl
    (md4Step (fun x y z => x &&& y ||| x &&& z ||| y &&& z) 0x5A827999 x) r
  let r := md4Round3.foldl (md4Step (fun x y z => x ^^^ y ^^^ z) 0x6ED9EBA1 x) r
  ⟨r.a + s.a, r.b + s.b, r.c + s.c, r.d + s.d⟩

/-- `copy64`. -/
def copy64 (mem : List u8) : List (BitVec 32) :=
  (List.range 16).map fun i =>
    BitVec.ofNat 32 (mem.getD (i * 4 + 3) 0).toNat <<< 24 |||
      BitVec.ofNat 32 (mem.getD (i * 4 + 2) 0).toNat <<< 16 |||
      BitVec.ofNat 32 (mem.getD (i * 4 + 1) 0).toNat <<< 8 |||
      BitVec.ofNat 32 (mem.getD (i * 4) 0).toNat

/-- A block worked into the words. -/
def md4Block (s : Md5State 32) (block : List u8) : Md5State 32 := mdfour64 (copy64 block) s

/-! ## `mdfour` -/

/-- The loop: the words, and what is left of the input. -/
def mdfourLoop (s : Md5State 32) (data : List u8) : Md5State 32 × List u8 :=
  if data.length > 64 then mdfourLoop (md4Block s (data.take 64)) (data.drop 64) else (s, data)
termination_by data.length
decreasing_by
  rw [List.length_drop]
  omega

/-- `copy4`. -/
def copy4 (x : BitVec 32) : List u8 := bytesOf 4 x.toNat

/-- `mdfour`. -/
def mdfour (data : List u8) : List u8 :=
  let b := BitVec.ofNat 32 (data.length * 8)
  let (s, data) := mdfourLoop (md5Start 32) data
  let n := data.length
  let buf := (overlay (List.replicate 128 0) 0 data).set n 0x80
  let s :=
    if n ≤ 55 then md4Block s ((overlay buf 56 (copy4 b)).take 64)
    else
      let buf := overlay buf 120 (copy4 b)
      md4Block (md4Block s (buf.take 64)) (buf.drop 64)
  copy4 s.a ++ copy4 s.b ++ copy4 s.c ++ copy4 s.d

/-- The digest of a message, padded. -/
def md4Digest (msg : List u8) : List u8 :=
  md5Encode (foldBlocks 64 md4Block (md5Start 32)
    (padMessage 64 0x80 0 (bytesOf 4 (8 * msg.length) ++ [0, 0, 0, 0]) msg)).words

variable {s : Md5State 32} {data : List u8}

/-- **The loop**, with anything behind the message: what is left is a block at
most. -/
theorem mdfourLoop_eq (s : Md5State 32) (data tail : List u8) :
    (mdfourLoop s data).2.length ≤ 64 ∧
      (mdfourLoop s data).2.length % 64 = data.length % 64 ∧
      foldBlocks 64 md4Block s (data ++ tail) =
        foldBlocks 64 md4Block (mdfourLoop s data).1 ((mdfourLoop s data).2 ++ tail) := by
  fun_induction mdfourLoop s data with
  | case1 s data hgt ih =>
    obtain ⟨hle, hmod, hfold⟩ := ih
    have htake : (data ++ tail).take 64 = data.take 64 := List.take_append_of_le_length hgt.le
    have hdrop : (data ++ tail).drop 64 = data.drop 64 ++ tail :=
      List.drop_append_of_le_length hgt.le
    refine ⟨hle, ?_, ?_⟩
    · rw [hmod, List.length_drop]
      omega
    · rw [← hfold, foldBlocks_block (by omega) (by rw [List.length_append]; omega), htake, hdrop]
  | case2 s data hle => exact ⟨Nat.le_of_not_lt hle, rfl, rfl⟩

/-- The buffer with the mark and, behind zeros, the number of bits. -/
theorem mdfour_buf (data : List u8) {k : ℕ} {bits : List u8} (hbits : bits.length = 4)
    (hle : data.length + 1 + k + 8 ≤ 128) :
    overlay ((overlay (List.replicate 128 0) 0 data).set data.length 0x80)
        (data.length + 1 + k) bits =
      (data ++ (0x80 :: List.replicate k 0 ++ (bits ++ [0, 0, 0, 0]))) ++
        List.replicate (128 - (data.length + 1 + k + 8)) 0 := by
  have hmark : (overlay (List.replicate 128 (0 : u8)) 0 data).set data.length 0x80 =
      data ++ 0x80 :: List.replicate (127 - data.length) 0 := by
    rw [overlay, List.take_zero, List.nil_append, Nat.zero_add, List.drop_replicate,
      show 128 - data.length = 127 - data.length + 1 by omega, List.replicate_succ,
      List.set_append_right _ _ (Nat.le_refl _), Nat.sub_self, List.set_cons_zero]
  have hzeros : List.replicate (127 - data.length) (0 : u8) = List.replicate k 0 ++
      (List.replicate 4 0 ++ (List.replicate 4 0 ++
        List.replicate (128 - (data.length + 1 + k + 8)) 0)) := by
    rw [← List.replicate_add, ← List.replicate_add, ← List.replicate_add]
    congr 1
    omega
  have hfront : (data ++ 0x80 :: List.replicate k (0 : u8)).length = data.length + 1 + k := by
    rw [List.length_append, List.length_cons, List.length_replicate]
    omega
  have hsplit : data ++ 0x80 :: List.replicate (127 - data.length) (0 : u8) =
      (data ++ 0x80 :: List.replicate k 0) ++ (List.replicate 4 0 ++ (List.replicate 4 0 ++
        List.replicate (128 - (data.length + 1 + k + 8)) 0)) := by
    rw [hzeros, List.append_assoc data, List.cons_append]
  have hfour : (List.replicate 4 (0 : u8)).length = bits.length := by
    rw [hbits, List.length_replicate]
  have hover := overlay_between (data ++ 0x80 :: List.replicate k (0 : u8))
    (List.replicate 4 0 ++ List.replicate (128 - (data.length + 1 + k + 8)) 0) hfour
  rw [hfront, ← hsplit, ← hmark] at hover
  rw [hover]
  simp only [List.append_assoc]
  rfl

/-- **What is left**, with the padding behind it: one block, or two. -/
theorem mdfour_rest {rest bits : List u8} (hbits : bits.length = 4) (hle : rest.length ≤ 64)
    {buf : List u8} (hbuf : buf = (overlay (List.replicate 128 0) 0 rest).set rest.length 0x80) :
    (if rest.length ≤ 55 then md4Block s ((overlay buf 56 bits).take 64)
      else md4Block (md4Block s ((overlay buf 120 bits).take 64)) ((overlay buf 120 bits).drop 64)) =
    foldBlocks 64 md4Block s (rest ++ (0x80 :: List.replicate (missing 64 (rest.length + 1 + 8)) 0 ++
      (bits ++ [0, 0, 0, 0]))) := by
  have hlen : ∀ k, (rest ++ (0x80 :: List.replicate k 0 ++ (bits ++ [0, 0, 0, 0]))).length =
      rest.length + 1 + k + 8 := by
    intro k
    rw [List.length_append, List.length_append, List.length_cons, List.length_replicate,
      List.length_append, hbits, List.length_cons, List.length_cons, List.length_cons,
      List.length_singleton]
    omega
  have hnil : ∀ s, foldBlocks 64 md4Block s [] = s := fun _ => rfl
  rw [hbuf]
  split_ifs with hshort
  · -- the mark and the field are in the block
    have hk : missing 64 (rest.length + 1 + 8) = 55 - rest.length := by
      unfold missing
      omega
    have hover := mdfour_buf rest hbits (k := 55 - rest.length) (by omega)
    have hl := hlen (55 - rest.length)
    rw [show rest.length + 1 + (55 - rest.length) = 56 by omega] at hover hl
    rw [hover, List.take_left' hl, hk, foldBlocks_block (by omega) (by omega),
      List.take_of_length_le (Nat.le_of_eq hl), List.drop_of_length_le (Nat.le_of_eq hl), hnil]
  · -- they are in a block behind it
    have hk : missing 64 (rest.length + 1 + 8) = 119 - rest.length := by
      unfold missing
      omega
    have hover := mdfour_buf rest hbits (k := 119 - rest.length) (by omega)
    have hl := hlen (119 - rest.length)
    rw [show rest.length + 1 + (119 - rest.length) = 120 by omega] at hover hl
    rw [Nat.sub_self, List.replicate_zero, List.append_nil] at hover
    rw [hover, hk]
    set msg := rest ++ (0x80 :: List.replicate (119 - rest.length) 0 ++ (bits ++ [0, 0, 0, 0]))
    have hd : (msg.drop 64).length = 64 := by rw [List.length_drop, hl]
    rw [foldBlocks_block (by omega) (by omega), foldBlocks_block (by omega) (by omega),
      List.take_of_length_le (Nat.le_of_eq hd), List.drop_of_length_le (Nat.le_of_eq hd), hnil]

/-- **`mdfour` takes the digest of the padded message.** -/
theorem mdfour_eq (data : List u8) : mdfour data = md4Digest data := by
  have hbits : copy4 (BitVec.ofNat 32 (data.length * 8)) = bytesOf 4 (8 * data.length) := by
    rw [copy4, BitVec.toNat_ofNat, Nat.mul_comm]
    exact bytesOf_mod 4 (8 * data.length)
  have hfield : (bytesOf 4 (8 * data.length) ++ [(0 : u8), 0, 0, 0]).length = 8 := by
    rw [List.length_append, length_bytesOf]
    rfl
  obtain ⟨hle, hmod, hfold⟩ := mdfourLoop_eq (md5Start 32) data
    (0x80 :: List.replicate (missing 64 (data.length + 1 + 8)) 0 ++
      (bytesOf 4 (8 * data.length) ++ [0, 0, 0, 0]))
  have hmiss : missing 64 (data.length + 1 + 8) =
      missing 64 ((mdfourLoop (md5Start 32) data).2.length + 1 + 8) := by
    unfold missing
    omega
  have hrest := mdfour_rest (s := (mdfourLoop (md5Start 32) data).1)
    (length_bytesOf 4 (8 * data.length)) hle rfl
  rw [← hmiss, ← hfold, ← List.append_assoc] at hrest
  have hwords : ∀ s : Md5State 32, copy4 s.a ++ copy4 s.b ++ copy4 s.c ++ copy4 s.d =
      md5Encode s.words := by
    intro s
    simp only [md5Encode, Md5State.words, copy4, List.flatMap_cons, List.flatMap_nil,
      List.append_nil, List.append_assoc]
  unfold mdfour md4Digest
  simp only [hbits]
  rw [padMessage, hfield, hwords, ← hrest]

-- the digest of `abc`
example : md4Digest [97, 98, 99] =
    [0xa4, 0x48, 0x01, 0x7a, 0xaf, 0x21, 0xd8, 0x52,
      0x5f, 0xc1, 0x0a, 0xe8, 0x7a, 0xa6, 0x72, 0x9d] := by decide +kernel

end Radare
