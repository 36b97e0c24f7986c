import Radare.Common.Digest
import Radare.Model.Bytes
/-!
# MD5

`md5c.c`: the bytes come in pieces (`md5Update`), a block at a time is worked
into the state, and the digest is taken behind a padding (`md5Final`). The
digest is that of the padded message, in whatever pieces it came
(`md5_pieces`).

`UINT4` is an `unsigned long int`, and `w` is its width. Where bytes are read
behind the input there is no result.
-/

namespace Radare

open Common

variable {w : ℕ}

/-! ## `MD5Transform` -/

/-- `state`. -/
structure Md5State (w : ℕ) where
  a : BitVec w
  b : BitVec w
  c : BitVec w
  d : BitVec w
deriving DecidableEq

/-- `ROTATE_LEFT`. -/
def md5RotateLeft (x : BitVec w) (n : ℕ) : BitVec w := x <<< n ||| x >>> (32 - n)

/-- `FF`, `GG`, `HH` and `II`, of a function of three words. The words go
round, so that the next one is in front. -/
def md5Step (g : BitVec w → BitVec w → BitVec w → BitVec w) (x : List (BitVec w))
    (r : Md5State w) (op : ℕ × ℕ × ℕ) : Md5State w :=
  let (k, s, ac) := op
  let a := r.a + (g r.b r.c r.d + x.getD k 0 + BitVec.ofNat w ac)
  ⟨r.d, md5RotateLeft a s + r.b, r.b, r.c⟩

/-- The first round: the words, how far to turn, and the constants. -/
def md5Round1 : List (ℕ × ℕ × ℕ) := [
  (0, 7, 0xd76aa478), (1, 12, 0xe8c7b756), (2, 17, 0x242070db), (3, 22, 0xc1bdceee),
  (4, 7, 0xf57c0faf), (5, 12, 0x4787c62a), (6, 17, 0xa8304613), (7, 22, 0xfd469501),
  (8, 7, 0x698098d8), (9, 12, 0x8b44f7af), (10, 17, 0xffff5bb1), (11, 22, 0x895cd7be),
  (12, 7, 0x6b901122), (13, 12, 0xfd987193), (14, 17, 0xa679438e), (15, 22, 0x49b40821)]

def md5Round2 : List (ℕ × ℕ × ℕ) := [
  (1, 5, 0xf61e2562), (6, 9, 0xc040b340), (11, 14, 0x265e5a51), (0, 20, 0xe9b6c7aa),
  (5, 5, 0xd62f105d), (10, 9, 0x2441453), (15, 14, 0xd8a1e681), (4, 20, 0xe7d3fbc8),
  (9, 5, 0x21e1cde6), (14, 9, 0xc33707d6), (3, 14, 0xf4d50d87), (8, 20, 0x455a14ed),
  (13, 5, 0xa9e3e905), (2, 9, 0xfcefa3f8), (7, 14, 0x676f02d9), (12, 20, 0x8d2a4c8a)]

def md5Round3 : List (ℕ × ℕ × ℕ) := [
  (5, 4, 0xfffa3942), (8, 11, 0x8771f681), (11, 16, 0x6d9d6122), (14, 23, 0xfde5380c),
  (1, 4, 0xa4beea44), (4, 11, 0x4bdecfa9), (7, 16, 0xf6bb4b60), (10, 23, 0xbebfbc70),
  (13, 4, 0x289b7ec6), (0, 11, 0xeaa127fa), (3, 16, 0xd4ef3085), (6, 23, 0x4881d05),
  (9, 4, 0xd9d4d039), (12, 11, 0xe6db99e5), (15, 16, 0x1fa27cf8), (2, 23, 0xc4ac5665)]

def md5Round4 : List (ℕ × ℕ × ℕ) := [
  (0, 6, 0xf4292244), (7, 10, 0x432aff97), (14, 15, 0xab9423a7), (5, 21, 0xfc93a039),
  (12, 6, 0x655b59c3), (3, 10, 0x8f0ccc92), (10, 15, 0xffeff47d), (1, 21, 0x85845dd1),
  (8, 6, 0x6fa87e4f), (15, 10, 0xfe2ce6e0), (6, 15, 0xa3014314), (13, 21, 0x4e0811a1),
  (4, 6, 0xf7537e82), (11, 10, 0xbd3af235), (2, 15, 0x2ad7d2bb), (9, 21, 0xeb86d391)]

/-- `Encode`: four bytes of every word, the lowest first. -/
def md5Encode (input : List (BitVec w)) : List u8 := input.flatMap fun x => bytesOf 4 x.toNat

/-- `Decode`. -/
def md5Decode : List u8 → List (BitVec w)
  | b₀ :: b₁ :: b₂ :: b₃ :: input =>
    (BitVec.ofNat w b₀.toNat ||| BitVec.ofNat w b₁.toNat <<< 8 |||
      BitVec.ofNat w b₂.toNat <<< 16 ||| BitVec.ofNat w b₃.toNat <<< 24) :: md5Decode input
  | _ => []

/-- `MD5Transform`. -/
def md5Transform (state : Md5State w) (block : List u8) : Md5State w :=
  let x := md5Decode block
  let r := md5Round1.foldl (md5Step (fun x y z => x &&& y ||| ~~~x &&& z) x) state
  let r := md5Round2.foldl (md5Step (fun x y z => x &&& z ||| y &&& ~~~z) x) r
  let r := md5Round3.foldl (md5Step (fun x y z => x ^^^ y ^^^ z) x) r
  let r := md5Round4.foldl (md5Step (fun x y z => y ^^^ (x ||| ~~~z)) x) r
  ⟨state.a + r.a, state.b + r.b, state.c + r.c, state.d + r.d⟩

/-! ## The context -/

/-- `MD5_CTX`. -/
structure Md5Ctx (w : ℕ) where
  state : Md5State w
  count0 : BitVec w
  count1 : BitVec w
  buffer : List u8

/-- The state that `MD5Init` sets. -/
def md5Start (w : ℕ) : Md5State w where
  a := BitVec.ofNat w 0x67452301
  b := BitVec.ofNat w 0xefcdab89
  c := BitVec.ofNat w 0x98badcfe
  d := BitVec.ofNat w 0x10325476

/-- `MD5Init`. -/
def md5Init (context : Md5Ctx w) : Md5Ctx w :=
  { context with state := md5Start w, count0 := 0, count1 := 0 }

/-- The number of bits, with that of an input added. -/
def Md5Ctx.counted (context : Md5Ctx w) (inputLen : ℕ) : Md5Ctx w :=
  let bits := BitVec.ofNat w inputLen <<< 3
  let count0 := context.count0 + bits
  let count1 := if count0 < bits then context.count1 + 1 else context.count1
  { context with count0, count1 := count1 + BitVec.ofNat w inputLen >>> 29 }

/-- The blocks that are in the input, from a place on: the state, and the
place behind them. `i` is an `unsigned int`. -/
def md5Blocks (input : List u8) (state : Md5State w) (i : ℕ) : Option (Md5State w × ℕ) :=
  if (i + 63) % 2 ^ 32 < input.length then
    if i + 64 ≤ input.length then
      md5Blocks input (md5Transform state ((input.drop i).take 64)) (i + 64)
    else none
  else some (state, i)
termination_by input.length - i

/-- How much of the buffer is full. -/
def Md5Ctx.index (context : Md5Ctx w) : ℕ := (context.count0 >>> 3).toNat % 64

/-- `MD5Update`. -/
def md5Update (context : Md5Ctx w) (input : List u8) : Option (Md5Ctx w) := do
  let index := context.index
  let context := context.counted input.length
  let partLen := 64 - index
  if input.length ≥ partLen then
    let buffer := overlay context.buffer index (input.take partLen)
    let state := md5Transform context.state buffer
    let (state, i) ← md5Blocks input state partLen
    return { context with state, buffer := overlay buffer 0 (input.drop i) }
  else
    return { context with buffer := overlay context.buffer index input }

/-- `PADDING`. -/
def md5Padding : List u8 := 0x80 :: List.replicate 63 0

/-- The words of a state, in order. -/
def Md5State.words (s : Md5State w) : List (BitVec w) := [s.a, s.b, s.c, s.d]

/-- The context with zeros for everything, as `MD5Final` leaves it. -/
def md5Zero (w : ℕ) : Md5Ctx w := ⟨⟨0, 0, 0, 0⟩, 0, 0, List.replicate 64 0⟩

/-- `MD5Final`: the digest, and the context behind. -/
def md5Final (context : Md5Ctx w) : Option (List u8 × Md5Ctx w) := do
  let bits := md5Encode [context.count0, context.count1]
  let index := context.index
  let padLen := if index < 56 then 56 - index else 120 - index
  let context ← md5Update context (md5Padding.take padLen)
  let context ← md5Update context bits
  return (md5Encode context.state.words, md5Zero w)

/-! ## Pieces -/

/-- The digest of a message, padded, from a state on. -/
def md5Digest (iv : Md5State w) (msg : List u8) : List u8 :=
  md5Encode
    (foldBlocks 64 md5Transform iv (padMessage 64 0x80 0 (bytesOf 8 (8 * msg.length)) msg)).words

/-- The context after some bytes, begun with a state. -/
structure Md5Ctx.After (iv : Md5State w) (context : Md5Ctx w) (xs : List u8) : Prop where
  holds : Holds 64 md5Transform iv context.state context.buffer xs
  bits : context.count0.toNat = 8 * xs.length % 2 ^ w

variable {iv : Md5State w} {context : Md5Ctx w} {state : Md5State w} {xs input : List u8} {i : ℕ}

theorem Md5Ctx.After.index_eq (hw : w = 32 ∨ w = 64) (h : context.After iv xs) :
    context.index = xs.length % 64 := by
  unfold Md5Ctx.index
  rw [BitVec.toNat_ushiftRight, Nat.shiftRight_eq_div_pow, h.bits]
  rcases hw with rfl | rfl <;> omega

theorem Md5Ctx.counted_count0 (len : ℕ) (hbits : context.count0.toNat = 8 * xs.length % 2 ^ w) :
    (context.counted len).count0.toNat = 8 * (xs.length + len) % 2 ^ w := by
  have hnew : (context.counted len).count0 = context.count0 + BitVec.ofNat w len <<< 3 := rfl
  rw [hnew, BitVec.toNat_add, hbits, BitVec.toNat_shiftLeft, BitVec.toNat_ofNat,
    Nat.shiftLeft_eq, Nat.mod_mul_mod, Nat.mod_add_mod, Nat.add_mod_mod, Nat.mul_add,
    Nat.mul_comm len]

/-- The number of bits fits into the lower four bytes of the words. -/
def Md5Fits (w total : ℕ) : Prop := w = 32 ∨ w = 64 ∧ total < 2 ^ 29

theorem Md5Ctx.counted_count1 {total len : ℕ} (hfits : Md5Fits w (total + len)) (hlen : len < 2 ^ 32)
    (h₀ : context.count0.toNat = 8 * total % 2 ^ w)
    (h₁ : context.count1.toNat = 8 * total / 2 ^ 32 % 2 ^ 32) :
    (context.counted len).count1.toNat = 8 * (total + len) / 2 ^ 32 % 2 ^ 32 := by
  have hbits : (BitVec.ofNat w len <<< 3).toNat = len * 8 % 2 ^ w := by
    rw [BitVec.toNat_shiftLeft, BitVec.toNat_ofNat, Nat.shiftLeft_eq, Nat.mod_mul_mod]
  have hhigh : (BitVec.ofNat w len >>> 29).toNat = len % 2 ^ w / 2 ^ 29 := by
    rw [BitVec.toNat_ushiftRight, BitVec.toNat_ofNat, Nat.shiftRight_eq_div_pow]
  have hnew : (context.counted len).count1 =
      (if context.count0 + BitVec.ofNat w len <<< 3 < BitVec.ofNat w len <<< 3 then
        context.count1 + 1 else context.count1) + BitVec.ofNat w len >>> 29 := rfl
  have hcarry : context.count0 + BitVec.ofNat w len <<< 3 < BitVec.ofNat w len <<< 3 ↔
      (8 * total % 2 ^ w + len * 8 % 2 ^ w) % 2 ^ w < len * 8 % 2 ^ w := by
    rw [BitVec.lt_def, BitVec.toNat_add, hbits, h₀]
  rw [hnew]
  rcases hfits with rfl | ⟨rfl, hlt⟩
  · split_ifs with hc
    · rw [hcarry] at hc
      rw [BitVec.toNat_add, BitVec.toNat_add, hhigh, h₁]
      have hone : (1 : BitVec 32).toNat = 1 := rfl
      omega
    · rw [hcarry] at hc
      rw [BitVec.toNat_add, hhigh, h₁]
      omega
  · rw [if_neg (by rw [hcarry]; omega), BitVec.toNat_add, hhigh, h₁]
    omega

/-- **The blocks of the input**, behind whole blocks: what is left is no
block. -/
theorem md5Blocks_holds {buf : List u8} (hlen : input.length + 63 < 2 ^ 32)
    (hle : i ≤ input.length) (hmod : (xs.length + i) % 64 = 0)
    (hh : Holds 64 md5Transform iv state buf (xs ++ input.take i)) :
    ∃ state' i', md5Blocks input state i = some (state', i') ∧ i' ≤ input.length ∧
      input.length < i' + 64 ∧ (xs.length + i') % 64 = 0 ∧
      Holds 64 md5Transform iv state' buf (xs ++ input.take i') := by
  fun_induction md5Blocks input state i with
  | case1 state i hlt hle' ih =>
    have hsplit : xs ++ input.take (i + 64) =
        (xs ++ input.take i) ++ (input.drop i).take 64 := by
      rw [List.append_assoc, ← List.take_add]
    have hfront : (xs ++ input.take i).length = xs.length + i := by
      rw [List.length_append, List.length_take_of_le hle]
    have hblock : ((input.drop i).take 64).length = 64 := by
      rw [List.length_take, List.length_drop]
      omega
    refine ih hle' (by omega) ?_
    rw [hsplit]
    exact hh.block (by omega) (by rw [hfront, hmod]) hblock hh.size
  | case2 state i hlt hle' =>
    rw [Nat.mod_eq_of_lt (by omega)] at hlt
    omega
  | case3 state i hlt =>
    rw [Nat.mod_eq_of_lt (by omega)] at hlt
    exact ⟨state, i, rfl, hle, by omega, hmod, hh⟩

/-- **A piece.** -/
theorem md5Update_after (hw : w = 32 ∨ w = 64) (h : context.After iv xs)
    (hlen : input.length + 63 < 2 ^ 32) :
    ∃ context', md5Update context input = some context' ∧ context'.After iv (xs ++ input) ∧
      context'.count1 = (context.counted input.length).count1 := by
  have hindex := h.index_eq hw
  have hlt := Nat.mod_lt xs.length (show 0 < 64 by omega)
  have hbits : (context.counted input.length).count0.toNat =
      8 * (xs ++ input).length % 2 ^ w := by
    rw [Md5Ctx.counted_count0 _ h.bits, List.length_append]
  by_cases hpart : input.length ≥ 64 - context.index
  · -- the buffer gets full, then whole blocks, then the rest
    have htake : (input.take (64 - context.index)).length = 64 - xs.length % 64 := by
      rw [List.length_take_of_le hpart, hindex]
    have hne : input.take (64 - context.index) ≠ [] := by
      intro hnil
      rw [hnil, List.length_nil] at htake
      omega
    set buf := overlay context.buffer context.index (input.take (64 - context.index)) with hbuf
    have hsize : buf.length = 64 := by
      rw [hbuf, length_overlay (by rw [h.holds.size]; omega), h.holds.size]
    have hfirst : Holds 64 md5Transform iv (md5Transform context.state buf) buf
        (xs ++ input.take (64 - context.index)) := by
      have hfull := h.holds.full hne (by omega) hsize
      rwa [← hindex, ← hbuf] at hfull
    obtain ⟨state', i', hblocks, hle, hrest, hmod, hh⟩ :=
      md5Blocks_holds hlen hpart (by omega) hfirst
    have hfront : (xs ++ input.take i').length = xs.length + i' := by
      rw [List.length_append, List.length_take_of_le hle]
    have hdrop : (input.drop i').length = input.length - i' := List.length_drop
    have hmore : Holds 64 md5Transform iv state' (overlay buf 0 (input.drop i')) (xs ++ input) := by
      have hrest' := hh.rest (by rw [hfront, hmod]) (show (input.drop i').length < 64 by omega)
      rwa [List.append_assoc, List.take_append_drop] at hrest'
    refine ⟨{ context.counted input.length with
      state := state', buffer := overlay buf 0 (input.drop i') }, ?_, ⟨hmore, hbits⟩, rfl⟩
    have hstate : (context.counted input.length).state = context.state := rfl
    have hbuffer : (context.counted input.length).buffer = context.buffer := rfl
    unfold md5Update
    simp only [if_pos hpart, hstate, hbuffer, ← hbuf, hblocks]
    rfl
  · have hmore : Holds 64 md5Transform iv context.state
        (overlay context.buffer context.index input) (xs ++ input) := by
      rw [hindex]
      exact h.holds.more (by omega)
    refine ⟨{ context.counted input.length with
      buffer := overlay context.buffer context.index input }, ?_, ⟨hmore, hbits⟩, rfl⟩
    unfold md5Update
    simp only [if_neg hpart]
    rfl

/-! ## The end -/

/-- The bytes that `MD5Final` saves of the number of bits. -/
theorem md5Encode_bits {total : ℕ} (hw : w = 32 ∨ w = 64)
    (h₀ : context.count0.toNat = 8 * total % 2 ^ w)
    (h₁ : context.count1.toNat = 8 * total / 2 ^ 32 % 2 ^ 32) :
    md5Encode [context.count0, context.count1] = bytesOf 8 (8 * total) := by
  have hlow : bytesOf 4 context.count0.toNat = bytesOf 4 (8 * total) := by
    rw [← bytesOf_mod 4 (context.count0.toNat), ← bytesOf_mod 4 (8 * total), h₀]
    congr 1
    rcases hw with rfl | rfl <;> omega
  have hhigh : bytesOf 4 context.count1.toNat = bytesOf 4 (8 * total / 2 ^ 32) := by
    rw [h₁]
    exact bytesOf_mod 4 (8 * total / 2 ^ 32)
  have hsplit : bytesOf 8 (8 * total) = bytesOf 4 (8 * total) ++ bytesOf 4 (8 * total / 2 ^ 32) :=
    bytesOf_add 4 4 (8 * total)
  rw [hsplit, ← hlow, ← hhigh, md5Encode, List.flatMap_cons, List.flatMap_singleton]

/-- The padding, up to the field. -/
theorem md5Padding_take (len : ℕ) :
    md5Padding.take (if len % 64 < 56 then 56 - len % 64 else 120 - len % 64) =
      0x80 :: List.replicate (missing 64 (len + 1 + 8)) 0 := by
  have hlt := Nat.mod_lt len (show 0 < 64 by omega)
  have hpad : (if len % 64 < 56 then 56 - len % 64 else 120 - len % 64) =
      missing 64 (len + 1 + 8) + 1 := by
    unfold missing
    split_ifs <;> omega
  have hmiss : missing 64 (len + 1 + 8) ≤ 63 := by
    have := missing_lt (k := len + 1 + 8) (show 0 < 64 by omega)
    omega
  rw [hpad, md5Padding, List.take_succ_cons, List.take_replicate, Nat.min_eq_left hmiss]

/-- **`MD5Final`** takes the digest of the padded message, and clears the
context. -/
theorem md5Final_eq (hw : w = 32 ∨ w = 64) (h : context.After iv xs)
    (h₁ : context.count1.toNat = 8 * xs.length / 2 ^ 32 % 2 ^ 32) :
    md5Final context = some (md5Digest iv xs, md5Zero w) := by
  have hpad := md5Padding_take xs.length
  rw [← h.index_eq hw] at hpad
  set pad := md5Padding.take
    (if context.index < 56 then 56 - context.index else 120 - context.index) with hpadDef
  have hmiss := missing_lt (k := xs.length + 1 + 8) (show 0 < 64 by omega)
  have hpadLen : pad.length = missing 64 (xs.length + 1 + 8) + 1 := by
    rw [hpad, List.length_cons, List.length_replicate]
  have hbits := md5Encode_bits hw h.bits h₁
  have hbitsLen : (bytesOf 8 (8 * xs.length)).length = 8 := length_bytesOf 8 _
  obtain ⟨context₁, hupdate₁, hafter₁, -⟩ := md5Update_after hw h (show pad.length + 63 < _ by omega)
  obtain ⟨context₂, hupdate₂, hafter₂, -⟩ := md5Update_after hw hafter₁
    (show (bytesOf 8 (8 * xs.length)).length + 63 < _ by omega)
  have hmsg : xs ++ pad ++ bytesOf 8 (8 * xs.length) =
      padMessage 64 0x80 0 (bytesOf 8 (8 * xs.length)) xs := by
    rw [hpad, padMessage, hbitsLen]
  have hstate := hafter₂.holds.foldBlocks_eq (show 0 < 64 by omega)
    (by rw [hmsg]; exact dvd_length_padMessage (by omega))
  rw [hmsg] at hstate
  unfold md5Final
  simp only [hbits, ← hpadDef, hupdate₁, hupdate₂, bind, Option.bind]
  rw [md5Digest, hstate]
  rfl

/-! ## A whole message -/

/-- The pieces of a message, and the end of it. -/
def md5Message (context : Md5Ctx w) (pieces : List (List u8)) : Option (List u8 × Md5Ctx w) := do
  let context ← pieces.foldlM md5Update context
  md5Final context

/-- **The pieces.** -/
theorem md5Updates_after (hw : w = 32 ∨ w = 64) (pieces : List (List u8))
    (hlen : ∀ p ∈ pieces, p.length + 63 < 2 ^ 32) (h : context.After iv xs)
    (hfits : Md5Fits w (xs ++ pieces.flatten).length)
    (h₁ : context.count1.toNat = 8 * xs.length / 2 ^ 32 % 2 ^ 32) :
    ∃ context', pieces.foldlM md5Update context = some context' ∧
      context'.After iv (xs ++ pieces.flatten) ∧
      context'.count1.toNat = 8 * (xs ++ pieces.flatten).length / 2 ^ 32 % 2 ^ 32 := by
  induction pieces generalizing context xs with
  | nil =>
    rw [List.flatten_nil, List.append_nil]
    exact ⟨context, rfl, h, h₁⟩
  | cons p pieces ih =>
    have hp := hlen p List.mem_cons_self
    obtain ⟨context₁, hupdate, hafter, hcount⟩ := md5Update_after hw h hp
    rw [List.flatten_cons, ← List.append_assoc] at hfits ⊢
    have hfits₁ : Md5Fits w (xs.length + p.length) := by
      refine hfits.imp_right fun hlt => ⟨hlt.1, ?_⟩
      rw [List.length_append, List.length_append] at hlt
      omega
    have h₂ : context₁.count1.toNat = 8 * (xs ++ p).length / 2 ^ 32 % 2 ^ 32 := by
      rw [hcount, List.length_append]
      exact Md5Ctx.counted_count1 hfits₁ (by omega) h.bits h₁
    obtain ⟨context', hrest, hend⟩ :=
      ih (fun q hq => hlen q (List.mem_cons_of_mem p hq)) hafter hfits h₂
    refine ⟨context', ?_, hend⟩
    rw [List.foldlM_cons, hupdate]
    exact hrest

theorem Md5Ctx.After.start (hbuffer : context.buffer.length = 64) (h₀ : context.count0 = 0) :
    context.After context.state [] := by
  refine ⟨Holds.start hbuffer, ?_⟩
  rw [h₀, List.length_nil, Nat.mul_zero, Nat.zero_mod]
  rfl

/-- A message in one piece, as long as an `unsigned int` goes. -/
theorem md5_piece (hw : w = 32 ∨ w = 64) (context : Md5Ctx w) (data : List u8)
    (hlen : data.length + 63 < 2 ^ 32) (hbuffer : context.buffer.length = 64)
    (h₀ : context.count0 = 0) (h₁ : context.count1 = 0) :
    ∃ context', md5Update context data = some context' ∧
      md5Final context' = some (md5Digest context.state data, md5Zero w) := by
  obtain ⟨context', hupdate, hafter, hcount⟩ :=
    md5Update_after hw (Md5Ctx.After.start hbuffer h₀) hlen
  refine ⟨context', hupdate, md5Final_eq hw hafter ?_⟩
  have hadd : (context.counted data.length).count1 =
      (if context.count0 + BitVec.ofNat w data.length <<< 3 < BitVec.ofNat w data.length <<< 3 then
        context.count1 + 1 else context.count1) + BitVec.ofNat w data.length >>> 29 := rfl
  have hcarry : ¬context.count0 + BitVec.ofNat w data.length <<< 3 <
      BitVec.ofNat w data.length <<< 3 := by
    rw [h₀, BitVec.ofNat_eq_ofNat, BitVec.zero_add]
    exact BitVec.lt_irrefl _
  rw [hcount, hadd, if_neg hcarry, h₁, BitVec.ofNat_eq_ofNat, BitVec.zero_add,
    BitVec.toNat_ushiftRight, BitVec.toNat_ofNat, Nat.shiftRight_eq_div_pow]
  rcases hw with rfl | rfl <;> omega

/-- **The digest is that of the message, in whatever pieces it comes**, from
the state of the context on, whatever there is in the buffer. -/
theorem md5_pieces (context : Md5Ctx w) (pieces : List (List u8))
    (hfits : Md5Fits w pieces.flatten.length) (hlen : ∀ p ∈ pieces, p.length + 63 < 2 ^ 32)
    (hbuffer : context.buffer.length = 64) (h₀ : context.count0 = 0) (h₁ : context.count1 = 0) :
    md5Message context pieces = some (md5Digest context.state pieces.flatten, md5Zero w) := by
  have hw : w = 32 ∨ w = 64 := hfits.imp_right And.left
  have hstart := Md5Ctx.After.start hbuffer h₀
  obtain ⟨context', hrun, hafter, hcount⟩ := md5Updates_after hw pieces hlen hstart hfits
    (by rw [h₁]; rfl)
  unfold md5Message
  rw [hrun]
  exact md5Final_eq hw hafter hcount

/-- A message in two pieces. -/
theorem md5_pieces_abc : md5Message (md5Init (md5Zero 32)) [[97], [98, 99]] =
    some (md5Digest (md5Start 32) [97, 98, 99], md5Zero 32) :=
  md5_pieces (md5Init (md5Zero 32)) [[97], [98, 99]] (Or.inl rfl)
    (by intro p hp; rcases List.mem_pair.mp hp with rfl | rfl <;> decide) rfl rfl rfl

-- the digest of `abc`, where a `UINT4` has four bytes
example : md5Digest (md5Start 32) [97, 98, 99] =
    [0x90, 0x01, 0x50, 0x98, 0x3c, 0xd2, 0x4f, 0xb0,
      0xd6, 0x96, 0x3f, 0x7d, 0x28, 0xe1, 0x7f, 0x72] := by decide +kernel

end Radare
