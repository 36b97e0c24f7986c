import Radare.Common.Digest
import Radare.Model.Bytes
/-!
# SHA-1

`sha1.c`: every byte is shifted into a word of the block as it comes, and a
full block is worked into the state. The words of the last block are not
cleared, and what is left in them is shifted out (`shaIns_eq`).

The digest is that of the padded message, in whatever pieces it came, and the
context is initialised behind it (`sha1_pieces`).
-/

namespace Radare

open Common

/-! ## The block -/

/-- `H`. -/
structure Sha1State where
  a : BitVec 32
  b : BitVec 32
  c : BitVec 32
  d : BitVec 32
  e : BitVec 32
deriving DecidableEq

/-- `SHA_ROT`. -/
def shaRot (x : BitVec 32) (n : ℕ) : BitVec 32 := x <<< n ||| x >>> (32 - n)

/-- A word of the rest, from those before it. -/
def shaNext (w : List (BitVec 32)) (t : ℕ) : BitVec 32 :=
  shaRot (w.getD (t - 3) 0 ^^^ w.getD (t - 8) 0 ^^^ w.getD (t - 14) 0 ^^^ w.getD (t - 16) 0) 1

/-- The words behind the block, put down over what is there, so many of them. -/
def shaFill (w : List (BitVec 32)) (count : ℕ) : List (BitVec 32) :=
  (List.range' 16 count).foldl (fun w t => w.set t (shaNext w t)) w

/-- Some of the rounds, with a function of three words and a constant. -/
def shaRounds (w : List (BitVec 32)) (g : BitVec 32 → BitVec 32 → BitVec 32 → BitVec 32)
    (k : BitVec 32) (first : ℕ) (s : Sha1State) : Sha1State :=
  (List.range' first 20).foldl (fun s t =>
    ⟨shaRot s.a 5 + g s.b s.c s.d + s.e + w.getD t 0 + k, s.a, shaRot s.b 30, s.c, s.d⟩) s

/-- The rounds, with all the words. -/
def shaWork (h : Sha1State) (w : List (BitVec 32)) : Sha1State :=
  let s := shaRounds w (fun b c d => ((c ^^^ d) &&& b) ^^^ d) 0x5a827999 0 h
  let s := shaRounds w (fun b c d => b ^^^ c ^^^ d) 0x6ed9eba1 20 s
  let s := shaRounds w (fun b c d => b &&& c ||| d &&& (b ||| c)) 0x8f1bbcdc 40 s
  let s := shaRounds w (fun b c d => b ^^^ c ^^^ d) 0xca62c1d6 60 s
  ⟨h.a + s.a, h.b + s.b, h.c + s.c, h.d + s.d, h.e + s.e⟩

/-! ## The context -/

/-- `SHA_CTX`. -/
structure Sha1Ctx where
  H : Sha1State
  W : List (BitVec 32)
  lenW : ℕ
  sizeHi : BitVec 32
  sizeLo : BitVec 32
deriving DecidableEq

/-- The state that `SHA1_Init` sets. -/
def sha1Start : Sha1State := ⟨0x67452301, 0xefcdab89, 0x98badcfe, 0x10325476, 0xc3d2e1f0⟩

/-- `SHA1_Init`. -/
def sha1Init : Sha1Ctx := ⟨sha1Start, List.replicate 80 0, 0, 0, 0⟩

/-- `shaHashBlock`. -/
def shaHashBlock (ctx : Sha1Ctx) : Sha1Ctx :=
  let w := shaFill ctx.W 64
  { ctx with W := w, H := shaWork ctx.H w }

/-- A byte shifted into a word. -/
def shaIn (w : BitVec 32) (b : u8) : BitVec 32 := w <<< 8 ||| BitVec.ofNat 32 b.toNat

/-- One byte of `SHA1_Update`. -/
def sha1Byte (ctx : Sha1Ctx) (b : u8) : Sha1Ctx :=
  let j := ctx.lenW / 4
  let ctx := { ctx with W := ctx.W.set j (shaIn (ctx.W.getD j 0) b), lenW := ctx.lenW + 1 }
  let ctx := if ctx.lenW % 64 = 0 then { shaHashBlock ctx with lenW := 0 } else ctx
  let sizeLo := ctx.sizeLo + 8
  { ctx with sizeLo, sizeHi := ctx.sizeHi + if sizeLo < 8 then 1 else 0 }

/-- `SHA1_Update`. -/
def sha1Update (ctx : Sha1Ctx) (dataIn : List u8) : Sha1Ctx := dataIn.foldl sha1Byte ctx

/-- The loop of `SHA1_Final` that fills the block up to the field. -/
def sha1Zeros : ℕ → Sha1Ctx → Option Sha1Ctx
  | 0, _ => none
  | fuel + 1, ctx => if ctx.lenW ≠ 56 then sha1Zeros fuel (sha1Update ctx [0]) else some ctx

/-- A byte of a word, the highest first. -/
def shaOut (x : BitVec 32) (i : ℕ) : u8 := UInt8.ofNat (x >>> (24 - 8 * i)).toNat

/-- The bytes of a word that `SHA1_Final` takes off it: it shifts the word
after each. -/
def shaOuts (x : BitVec 32) : List u8 := (List.range 4).map fun i => shaOut (x <<< (8 * i)) 0

/-- `SHA1_Final`: the digest, and the context behind. -/
def sha1Final (ctx : Sha1Ctx) : Option (List u8 × Sha1Ctx) := do
  let padlen := (List.range 4).map (shaOut ctx.sizeHi) ++ (List.range 4).map (shaOut ctx.sizeLo)
  let ctx := sha1Update ctx [0x80]
  let ctx ← sha1Zeros 64 ctx
  let ctx := sha1Update ctx padlen
  return ([ctx.H.a, ctx.H.b, ctx.H.c, ctx.H.d, ctx.H.e].flatMap shaOuts, sha1Init)

/-! ## The words of a block -/

/-- Bytes as a word, the highest first. -/
def shaIns (w : BitVec 32) (bs : List u8) : BitVec 32 := bs.foldl shaIn w

theorem shaIns_shift (w : BitVec 32) (bs : List u8) :
    shaIns w bs = w <<< (8 * bs.length) ||| shaIns 0 bs := by
  induction bs generalizing w with
  | nil =>
    rw [List.length_nil, Nat.mul_zero, BitVec.shiftLeft_zero]
    exact (BitVec.or_zero).symm
  | cons b bs ih =>
    have hstep : ∀ w, shaIns w (b :: bs) = shaIns (shaIn w b) bs := fun _ => rfl
    have hzero : shaIn 0 b = BitVec.ofNat 32 b.toNat := by
      rw [shaIn, BitVec.ofNat_eq_ofNat, BitVec.zero_shiftLeft, BitVec.zero_or]
    rw [hstep, hstep, ih, ih (shaIn 0 b), hzero, shaIn, BitVec.shiftLeft_or_distrib,
      ← BitVec.shiftLeft_add, List.length_cons, Nat.mul_succ, Nat.add_comm 8, BitVec.or_assoc]

/-- **What was in the word is shifted out** by four bytes. -/
theorem shaIns_eq (w : BitVec 32) {bs : List u8} (hlen : bs.length = 4) :
    shaIns w bs = shaIns 0 bs := by
  rw [shaIns_shift, hlen, BitVec.shiftLeft_eq_zero (by omega), BitVec.zero_or]

/-- The words of a block. -/
def shaWords (block : List u8) : List (BitVec 32) :=
  (List.range 16).map fun j => shaIns 0 (chunk 4 block j)

/-- So many words more, as the standard has them. -/
def shaExpand (w : List (BitVec 32)) : ℕ → List (BitVec 32)
  | 0 => w
  | count + 1 => shaExpand w count ++ [shaNext (shaExpand w count) (16 + count)]

/-- A block worked into the state. -/
def sha1Compress (h : Sha1State) (block : List u8) : Sha1State :=
  shaWork h (shaExpand (shaWords block) 64)

variable {w : List (BitVec 32)} {count t : ℕ}

theorem length_shaFill : (shaFill w count).length = w.length := by
  induction count with
  | zero => rfl
  | succ count ih =>
    rw [shaFill, List.range'_1_concat, List.foldl_append]
    exact (List.length_set).trans ih

/-- The next word reads only the words before it. -/
theorem shaNext_take (ht : 16 ≤ t) : shaNext (w.take t) t = shaNext w t := by
  have hget : ∀ i, 0 < i → (w.take t).getD (t - i) 0 = w.getD (t - i) 0 := by
    intro i hi
    rw [List.getD_eq_getElem?_getD, List.getD_eq_getElem?_getD,
      List.getElem?_take_of_lt (by omega)]
  unfold shaNext
  rw [hget 3 (by omega), hget 8 (by omega), hget 14 (by omega), hget 16 (by omega)]

/-- **The words put down over what is there** are those the standard has. -/
theorem take_shaFill (hlen : w.length = 80) (hcount : count ≤ 64) :
    (shaFill w count).take (16 + count) = shaExpand (w.take 16) count := by
  induction count with
  | zero => rfl
  | succ count ih =>
    have hstep : shaFill w (count + 1) =
        (shaFill w count).set (16 + count) (shaNext (shaFill w count) (16 + count)) := by
      rw [shaFill, List.range'_1_concat, List.foldl_append]
      rfl
    have hfill : (shaFill w count).length = 80 := length_shaFill.trans hlen
    have hset : ∀ v, ((shaFill w count).set (16 + count) v).take (16 + count + 1) =
        (shaFill w count).take (16 + count) ++ [v] := by
      intro v
      rw [List.take_succ_eq_append_getElem (by rw [List.length_set, hfill]; omega),
        List.take_set_of_le (Nat.le_refl _), List.getElem_set_self]
    rw [hstep, ← Nat.add_assoc, hset, shaExpand, ← ih (by omega),
      shaNext_take (show 16 ≤ 16 + count by omega)]

theorem shaHashBlock_sizeLo (ctx : Sha1Ctx) : (shaHashBlock ctx).sizeLo = ctx.sizeLo := by
  rw [shaHashBlock]

theorem shaHashBlock_sizeHi (ctx : Sha1Ctx) : (shaHashBlock ctx).sizeHi = ctx.sizeHi := by
  rw [shaHashBlock]

theorem shaHashBlock_W (ctx : Sha1Ctx) : (shaHashBlock ctx).W = shaFill ctx.W 64 := by
  rw [shaHashBlock]

/-- `shaHashBlock` reads only the block. -/
theorem shaHashBlock_H {ctx : Sha1Ctx} (hlen : ctx.W.length = 80) :
    (shaHashBlock ctx).H = shaWork ctx.H (shaExpand (ctx.W.take 16) 64) := by
  have hfill := take_shaFill hlen (Nat.le_refl 64)
  rw [List.take_of_length_le (by rw [length_shaFill, hlen])] at hfill
  rw [← hfill]
  rfl

/-! ## Pieces -/

/-- The context after some bytes, begun with a state. -/
structure Sha1Ctx.After (iv : Sha1State) (ctx : Sha1Ctx) (xs : List u8) : Prop where
  state : (absorbs 64 sha1Compress (iv, []) xs).1 = ctx.H
  lenW : ctx.lenW = xs.length % 64
  size : ctx.W.length = 80
  /-- What is left, in words that are not cleared. -/
  words : ∀ j < 16, ∃ w, ctx.W.getD j 0 = shaIns w (chunk 4 (absorbs 64 sha1Compress (iv, []) xs).2 j)
  sizeLo : ctx.sizeLo.toNat = 8 * xs.length % 2 ^ 32
  sizeHi : ctx.sizeHi.toNat = 8 * xs.length / 2 ^ 32 % 2 ^ 32

variable {iv : Sha1State} {ctx : Sha1Ctx} {xs : List u8} {b : u8}

/-- The words with a byte more. -/
theorem words_shaIn {W : List (BitVec 32)} {buf : List u8} (hsize : W.length = 80)
    (h : ∀ j < 16, ∃ w, W.getD j 0 = shaIns w (chunk 4 buf j)) :
    ∀ j < 16, ∃ w, (W.set (buf.length / 4) (shaIn (W.getD (buf.length / 4) 0) b)).getD j 0 =
      shaIns w (chunk 4 (buf ++ [b]) j) := by
  intro j hj
  obtain ⟨w, hw⟩ := h j hj
  refine ⟨w, ?_⟩
  rw [chunk_concat (by omega), List.getD_eq_getElem?_getD, List.getElem?_set]
  by_cases hat : j = buf.length / 4
  · rw [if_pos hat.symm, if_pos (by omega), if_pos hat, ← hat, hw, Option.getD_some, shaIns,
      shaIns, List.foldl_append]
    rfl
  · rw [if_neg (fun h => hat h.symm), if_neg hat, ← hw, List.getD_eq_getElem?_getD]

/-- The words of a full block. -/
theorem take_words {W : List (BitVec 32)} {buf : List u8} (hlen : buf.length = 64)
    (hsize : W.length = 80) (h : ∀ j < 16, ∃ w, W.getD j 0 = shaIns w (chunk 4 buf j)) :
    W.take 16 = shaWords buf := by
  refine List.ext_getElem?' fun j hj => ?_
  rw [List.length_take_of_le (by omega), shaWords, List.length_map, List.length_range,
    Nat.max_self] at hj
  obtain ⟨w, hw⟩ := h j hj
  have hchunk : (chunk 4 buf j).length = 4 := by
    rw [length_chunk]
    omega
  rw [shaIns_eq w hchunk, List.getD_eq_getElem?_getD, List.getElem?_eq_getElem (by omega),
    Option.getD_some] at hw
  rw [List.getElem?_take_of_lt hj, shaWords, List.getElem?_map, List.getElem?_range hj,
    List.getElem?_eq_getElem (by omega), hw]
  rfl

theorem Sha1Ctx.After.sizes (h : ctx.After iv xs) :
    (ctx.sizeLo + 8).toNat = 8 * (xs ++ [b]).length % 2 ^ 32 ∧
      (ctx.sizeHi + if ctx.sizeLo + 8 < 8 then 1 else 0).toNat =
        8 * (xs ++ [b]).length / 2 ^ 32 % 2 ^ 32 := by
  have height : (8 : BitVec 32).toNat = 8 := rfl
  have hlo : (ctx.sizeLo + 8).toNat = 8 * (xs ++ [b]).length % 2 ^ 32 := by
    rw [BitVec.toNat_add, h.sizeLo, height, List.length_append, List.length_singleton]
    omega
  refine ⟨hlo, ?_⟩
  have hcarry : ctx.sizeLo + 8 < 8 ↔ 8 * (xs ++ [b]).length % 2 ^ 32 < 8 := by
    rw [BitVec.lt_def, hlo, height]
  have hhi := h.sizeHi
  rw [List.length_append, List.length_singleton] at hcarry ⊢
  split_ifs with hc
  · rw [hcarry] at hc
    have hone : (1 : BitVec 32).toNat = 1 := rfl
    rw [BitVec.toNat_add, hhi, hone]
    omega
  · rw [hcarry] at hc
    have hzero : (0 : BitVec 32).toNat = 0 := rfl
    rw [BitVec.toNat_add, hhi, hzero]
    omega

/-- A byte that does not make the block full. -/
theorem sha1Byte_short (hne : (ctx.lenW + 1) % 64 ≠ 0) : sha1Byte ctx b =
    ⟨ctx.H, ctx.W.set (ctx.lenW / 4) (shaIn (ctx.W.getD (ctx.lenW / 4) 0) b), ctx.lenW + 1,
      ctx.sizeHi + if ctx.sizeLo + 8 < 8 then 1 else 0, ctx.sizeLo + 8⟩ := by
  unfold sha1Byte
  simp only [if_neg hne]

/-- A byte that makes it full. -/
theorem sha1Byte_full (hfull : (ctx.lenW + 1) % 64 = 0) :
    ∃ c : Sha1Ctx, c.H = ctx.H ∧
      c.W = ctx.W.set (ctx.lenW / 4) (shaIn (ctx.W.getD (ctx.lenW / 4) 0) b) ∧
      sha1Byte ctx b = ⟨(shaHashBlock c).H, (shaHashBlock c).W, 0,
        ctx.sizeHi + if ctx.sizeLo + 8 < 8 then 1 else 0, ctx.sizeLo + 8⟩ := by
  refine ⟨{ ctx with
    W := ctx.W.set (ctx.lenW / 4) (shaIn (ctx.W.getD (ctx.lenW / 4) 0) b)
    lenW := ctx.lenW + 1 }, rfl, rfl, ?_⟩
  unfold sha1Byte
  simp only [if_pos hfull, shaHashBlock_sizeLo, shaHashBlock_sizeHi]

/-- **A byte.** -/
theorem sha1Byte_after (h : ctx.After iv xs) : (sha1Byte ctx b).After iv (xs ++ [b]) := by
  obtain ⟨hlo, hhi⟩ := h.sizes (b := b)
  have hlt := Nat.mod_lt xs.length (show 0 < 64 by omega)
  obtain ⟨hstate, hlenW, hsize, hwords, -, -⟩ := h
  have hrest : (absorbs 64 sha1Compress (iv, []) xs).2.length = (0 + xs.length) % 64 :=
    length_absorbs (Nat.zero_lt_succ 63)
  have hnew : absorbs 64 sha1Compress (iv, []) (xs ++ [b]) =
      absorb 64 sha1Compress (absorbs 64 sha1Compress (iv, []) xs) b := absorbs_append
  rw [Nat.zero_add] at hrest
  generalize absorbs 64 sha1Compress (iv, []) xs = s at hstate hwords hrest hnew
  have hj : s.2.length / 4 = ctx.lenW / 4 := by rw [hlenW, hrest]
  have hwords' := words_shaIn (b := b) hsize hwords
  rw [hj] at hwords'
  have hmod : (xs ++ [b]).length % 64 =
      if xs.length % 64 + 1 = 64 then 0 else xs.length % 64 + 1 := by
    rw [List.length_append, List.length_singleton]
    split_ifs <;> omega
  by_cases hfull : xs.length % 64 + 1 = 64
  · have hblock : (s.2 ++ [b]).length = 64 := by
      rw [List.length_append, List.length_singleton, hrest, hfull]
    have habsorb : absorb 64 sha1Compress s b = (sha1Compress s.1 (s.2 ++ [b]), []) :=
      if_pos (by rw [hrest, hfull])
    obtain ⟨c, hH, hW, hbyte⟩ :=
      sha1Byte_full (b := b) (show (ctx.lenW + 1) % 64 = 0 by rw [hlenW, hfull])
    have hset : c.W.length = 80 := by rw [hW, List.length_set, hsize]
    have htake : c.W.take 16 = shaWords (s.2 ++ [b]) :=
      take_words hblock hset (by rw [hW]; exact hwords')
    rw [hbyte]
    refine ⟨?_, by rw [hmod, if_pos hfull], ?_, ?_, hlo, hhi⟩
    · rw [hnew, habsorb, shaHashBlock_H hset, hH, htake, ← hstate, sha1Compress]
    · rw [shaHashBlock_W, length_shaFill, hset]
    · intro j _
      rw [hnew, habsorb, chunk, List.drop_nil, List.take_nil]
      exact ⟨_, rfl⟩
  · have habsorb : absorb 64 sha1Compress s b = (s.1, s.2 ++ [b]) :=
      if_neg (by rw [hrest]; exact hfull)
    rw [sha1Byte_short (show (ctx.lenW + 1) % 64 ≠ 0 by omega)]
    refine ⟨by rw [hnew, habsorb, hstate], by rw [hmod, if_neg hfull, hlenW],
      List.length_set.trans hsize, ?_, hlo, hhi⟩
    rw [hnew, habsorb]
    exact hwords'

/-- **Any bytes.** -/
theorem sha1Update_after (ys : List u8) (h : ctx.After iv xs) :
    (sha1Update ctx ys).After iv (xs ++ ys) := by
  induction ys generalizing ctx xs with
  | nil => rwa [List.append_nil]
  | cons y ys ih =>
    have hrest := ih (sha1Byte_after (b := y) h)
    rwa [List.append_assoc] at hrest

/-! ## The end -/

/-- The bytes of a word as the standard has them, the highest first. -/
theorem map_shaOut (x : BitVec 32) :
    (List.range 4).map (shaOut x) = (bytesOf 4 x.toNat).reverse := by
  have hout : ∀ i, shaOut x i = UInt8.ofNat (x.toNat / 2 ^ (24 - 8 * i)) := by
    intro i
    rw [shaOut, BitVec.toNat_ushiftRight, Nat.shiftRight_eq_div_pow]
  have hrange : List.range 4 = [0, 1, 2, 3] := rfl
  rw [hrange, List.map_cons, List.map_cons, List.map_cons, List.map_singleton,
    hout, hout, hout, hout]
  simp only [bytesOf, List.reverse_cons, List.reverse_nil, List.nil_append, List.cons_append,
    Nat.div_div_eq_div_mul]
  have hdiv : x.toNat / 2 ^ (24 - 8 * 3) = x.toNat := Nat.div_one x.toNat
  rw [hdiv]
  rfl

theorem shaOuts_eq (x : BitVec 32) : shaOuts x = (bytesOf 4 x.toNat).reverse := by
  rw [← map_shaOut]
  refine List.map_congr_left fun i hi => ?_
  have hlt := x.isLt
  have hi' : i < 4 := List.mem_range.mp hi
  refine UInt8.toNat_inj.mp ?_
  rw [shaOut, shaOut, UInt8.toNat_ofNat', UInt8.toNat_ofNat', BitVec.toNat_ushiftRight,
    BitVec.toNat_ushiftRight, BitVec.toNat_shiftLeft, Nat.shiftLeft_eq,
    Nat.shiftRight_eq_div_pow, Nat.shiftRight_eq_div_pow]
  obtain rfl | rfl | rfl | rfl : i = 0 ∨ i = 1 ∨ i = 2 ∨ i = 3 := by omega
  all_goals omega

/-- **Zeros up to the field.** -/
theorem sha1Zeros_after (fuel : ℕ) (h : ctx.After iv xs)
    (hfuel : missing 64 (xs.length + 8) < fuel) :
    ∃ ctx', sha1Zeros fuel ctx = some ctx' ∧
      ctx'.After iv (xs ++ List.replicate (missing 64 (xs.length + 8)) 0) := by
  induction fuel generalizing ctx xs with
  | zero => omega
  | succ fuel ih =>
    have hlenW := h.lenW
    rw [sha1Zeros]
    unfold missing at *
    split_ifs with hne
    · have hnext := sha1Update_after [0] h
      have hlen : (xs ++ [(0 : u8)]).length = xs.length + 1 := List.length_append
      obtain ⟨ctx', hrun, hafter⟩ := ih hnext (by rw [hlen]; omega)
      refine ⟨ctx', hrun, ?_⟩
      have hcount : (64 - (xs.length + 8) % 64) % 64 =
          (64 - ((xs ++ [(0 : u8)]).length + 8) % 64) % 64 + 1 := by
        rw [hlen]
        omega
      rw [hcount, List.replicate_succ]
      rwa [List.append_assoc, List.singleton_append] at hafter
    · have hcount : (64 - (xs.length + 8) % 64) % 64 = 0 := by omega
      rw [hcount, List.replicate_zero, List.append_nil]
      exact ⟨ctx, rfl, h⟩

/-- The bytes of a state. -/
def Sha1State.bytes (h : Sha1State) : List u8 :=
  [h.a, h.b, h.c, h.d, h.e].flatMap fun x => (bytesOf 4 x.toNat).reverse

/-- The digest of a message, padded, from a state on. -/
def sha1Digest (iv : Sha1State) (msg : List u8) : List u8 :=
  (foldBlocks 64 sha1Compress iv
    (padMessage 64 0x80 0 (bytesOf 8 (8 * msg.length)).reverse msg)).bytes

/-- **`SHA1_Final`** takes the digest of the padded message. -/
theorem sha1Final_eq (h : ctx.After iv xs) :
    sha1Final ctx = some (sha1Digest iv xs, sha1Init) := by
  have hfield : (List.range 4).map (shaOut ctx.sizeHi) ++ (List.range 4).map (shaOut ctx.sizeLo) =
      (bytesOf 8 (8 * xs.length)).reverse := by
    have hsplit := bytesOf_add 4 4 (8 * xs.length)
    have hlow : bytesOf 4 ctx.sizeLo.toNat = bytesOf 4 (8 * xs.length) := by
      rw [h.sizeLo]
      exact bytesOf_mod 4 (8 * xs.length)
    have hhigh : bytesOf 4 ctx.sizeHi.toNat = bytesOf 4 (8 * xs.length / 256 ^ 4) := by
      rw [h.sizeHi]
      exact bytesOf_mod 4 (8 * xs.length / 2 ^ 32)
    rw [map_shaOut, map_shaOut, hlow, hhigh, ← List.reverse_append, ← hsplit]
  have hmark := sha1Update_after [0x80] h
  have hlen : (xs ++ [(0x80 : u8)]).length = xs.length + 1 := List.length_append
  have hmiss := missing_lt (k := xs.length + 1 + 8) (show 0 < 64 by omega)
  obtain ⟨ctx₁, hzeros, hafter⟩ := sha1Zeros_after 64 hmark (by rw [hlen]; exact hmiss)
  have hlast := (sha1Update_after (bytesOf 8 (8 * xs.length)).reverse hafter).state
  have hmsg : xs ++ [0x80] ++ List.replicate (missing 64 ((xs ++ [(0x80 : u8)]).length + 8)) 0 ++
      (bytesOf 8 (8 * xs.length)).reverse =
      padMessage 64 0x80 0 (bytesOf 8 (8 * xs.length)).reverse xs := by
    rw [padMessage, hlen, List.length_reverse, length_bytesOf, List.append_assoc xs,
      List.singleton_append]
  rw [hmsg, absorbs_blocks (by omega) (dvd_length_padMessage (by omega))] at hlast
  unfold sha1Final
  simp only [hfield, hzeros, bind, Option.bind]
  rw [← hlast, sha1Digest, Sha1State.bytes, funext shaOuts_eq]
  rfl

/-! ## A whole message -/

/-- The pieces of a message, and the end of it. -/
def sha1Message (ctx : Sha1Ctx) (pieces : List (List u8)) : Option (List u8 × Sha1Ctx) :=
  sha1Final (pieces.foldl sha1Update ctx)

/-- The context of `SHA1_Init`. -/
theorem sha1Init_after : sha1Init.After sha1Start [] where
  state := rfl
  lenW := rfl
  size := rfl
  words := by
    intro j _
    have hnil : chunk 4 (absorbs 64 sha1Compress (sha1Start, []) ([] : List u8)).2 j = [] := by
      rw [absorbs, List.foldl_nil, chunk, List.drop_nil, List.take_nil]
    rw [hnil]
    exact ⟨_, rfl⟩
  sizeLo := rfl
  sizeHi := rfl

/-- **The digest is that of the message, in whatever pieces it comes**, and
the context is as new behind it. -/
theorem sha1_pieces (pieces : List (List u8)) :
    sha1Message sha1Init pieces = some (sha1Digest sha1Start pieces.flatten, sha1Init) := by
  have hrun : ∀ (ctx : Sha1Ctx) (xs : List u8), ctx.After sha1Start xs →
      (pieces.foldl sha1Update ctx).After sha1Start (xs ++ pieces.flatten) := by
    induction pieces with
    | nil => intro ctx xs h; rwa [List.flatten_nil, List.append_nil]
    | cons p pieces ih =>
      intro ctx xs h
      rw [List.flatten_cons, ← List.append_assoc]
      exact ih _ _ (sha1Update_after p h)
  exact sha1Final_eq (hrun sha1Init [] sha1Init_after)

-- the digest of `abc`
example : sha1Digest sha1Start [97, 98, 99] =
    [0xa9, 0x99, 0x3e, 0x36, 0x47, 0x06, 0x81, 0x6a, 0xba, 0x3e,
      0x25, 0x71, 0x78, 0x50, 0xc2, 0x6c, 0x9c, 0xd0, 0xd8, 0x9d] := by decide +kernel

end Radare
