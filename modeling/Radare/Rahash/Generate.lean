import Radare.Common.Chunks
import Radare.Rahash.Model
import Radare.Rio.Frame
/-!
# The blocks that are hashed

`radare_hash_generate` never seeks to the begin of the range. It reads the
file from its start, and takes from each block what is as far in it as the
range is in the file; it does not cut the last block at the end of the range;
and it goes on with what `htonl` leaves of the header. So the digests are
those of the blocks of the range exactly where these make no difference
(`hashes_range_iff`).
-/

namespace Radare

open Common

variable {H : Hashes} {m : Machine} {h : Header} {a : Algo} {fuel i j n : ℕ} {ptr : ut64}
variable {src rest rest' buffer data : List u8} {blocks blocks' : List (List u8)} {ok : Bool}
variable {fresh : ℕ → u8}

/-! ## The digests of blocks -/

/-- The context is not initialised again behind a digest. -/
def Algo.carries (a : Algo) : Bool := a.hasContext ∧ a ≠ .sha1

/-- The digests of blocks, one after the other. -/
def Hashes.digests (H : Hashes) (a : Algo) : H.Ctx → List (List u8) → List (List u8)
  | _, [] => []
  | ctx, data :: blocks => (H.turn a ctx data).1 :: H.digests a (H.turn a ctx data).2 blocks

/-- A digest is that of its block, if it is the first or the context is
fresh for each. -/
theorem digests_init (h : a.carries → blocks.length ≤ 1) :
    H.digests a (H.init a) blocks = blocks.map (H.digest a) := by
  induction blocks with
  | nil => rfl
  | cons data blocks ih =>
    rw [Hashes.digests, List.map_cons]
    congr 1
    cases blocks with
    | nil => rfl
    | cons data' blocks =>
      have hcarries : ¬a.carries := fun hc => by simpa using h hc
      have hfresh : (H.turn a (H.init a) data).2 = H.init a := by
        unfold Hashes.turn
        split_ifs with hctx
        · have hsha : a = .sha1 := by
            by_contra hne
            exact hcarries (decide_eq_true ⟨hctx, hne⟩)
          subst hsha
          exact H.sha1_final _
        · rfl
      rw [hfresh]
      exact ih fun hc => absurd hc hcarries

/-- Algorithms that tell one block from the others. -/
def markHashes (block : List u8) : Hashes where
  sum _ data := if data = block then [1] else [0]
  Ctx := List u8
  init _ := []
  update _ _ data := data
  final _ data := (if data = block then [1] else [0], [])
  sha1_final _ := rfl

/-- Algorithms that tell a fresh context from a used one. -/
def ageHashes : Hashes where
  sum _ _ := []
  Ctx := Bool
  init _ := false
  update _ used _ := used
  final a used := (if used then [1] else [0], a ≠ .sha1)
  sha1_final _ := rfl

theorem digestArray_ne : digestArray a [1] ≠ digestArray a [0] := by
  cases a <;> decide

theorem markHashes_turn (block : List u8) (ctx : (markHashes block).Ctx) :
    ((markHashes block).turn a ctx data).1 =
      digestArray a (if data = block then [1] else [0]) := by
  unfold Hashes.turn
  by_cases hctx : a.hasContext
  · rw [if_pos hctx]
    rfl
  · rw [if_neg hctx]
    rfl

theorem markHashes_digests (block : List u8) (ctx : (markHashes block).Ctx) :
    (markHashes block).digests a ctx blocks =
      blocks.map fun data => digestArray a (if data = block then [1] else [0]) := by
  induction blocks generalizing ctx with
  | nil => rfl
  | cons data blocks ih => rw [Hashes.digests, markHashes_turn, ih, List.map_cons]

theorem markHashes_digest (block : List u8) :
    (markHashes block).digest a data = digestArray a (if data = block then [1] else [0]) := by
  rw [Hashes.digest, markHashes_turn]

/-- **The digests are those of the blocks, whatever the algorithms compute,
exactly if the blocks are the same** and the algorithm is fresh for each. -/
theorem forall_digests_iff :
    (∀ H : Hashes, H.digests a (H.init a) blocks = blocks'.map (H.digest a)) ↔
      blocks = blocks' ∧ (a.carries → blocks.length ≤ 1) := by
  constructor
  · intro hall
    have hsame : blocks = blocks' := by
      have hlength : blocks.length = blocks'.length := by
        -- as many, and each of them the one that only its own block gives
        have hmark := congrArg List.length (hall (markHashes []))
        rw [markHashes_digests, List.length_map, List.length_map] at hmark
        exact hmark
      refine List.ext_getElem hlength fun i hi hi' => ?_
      have hmark := hall (markHashes (blocks'[i]))
      rw [markHashes_digests] at hmark
      have hget := List.getElem_of_eq hmark (i := i) (by simpa using hi)
      rw [List.getElem_map, List.getElem_map, markHashes_digest, if_pos rfl] at hget
      by_contra hne
      rw [if_neg hne] at hget
      exact digestArray_ne hget.symm
    refine ⟨hsame, fun hcarries => ?_⟩
    obtain ⟨hctx, hsha⟩ := of_decide_eq_true hcarries
    -- a context that is used shows in the second digest
    have hage := hall ageHashes
    rw [← hsame] at hage
    match blocks, hage with
    | [], _ => exact Nat.zero_le 1
    | [_], _ => exact Nat.le_refl 1
    | x :: y :: rest, hage =>
      -- the second digest has the context that the first one left
      have hturn : ∀ (used : Bool) (data : List u8), ageHashes.turn a used data =
          (digestArray a (if used then [1] else [0]), true) := by
        intro used data
        unfold Hashes.turn
        rw [if_pos hctx]
        show (digestArray a (if used then [1] else [0]), decide (a ≠ .sha1)) = _
        rw [decide_eq_true hsha]
      have hsecond := List.getElem_of_eq hage (i := 1) (by simp [Hashes.digests])
      simp only [Hashes.digests, List.getElem_cons_succ, List.getElem_cons_zero,
        List.map_cons] at hsecond
      have hfirst : (ageHashes.turn a (ageHashes.init a) x).2 = true :=
        congrArg Prod.snd (hturn _ _)
      rw [hfirst, hturn, Hashes.digest] at hsecond
      rw [show ageHashes.init a = false from rfl, hturn] at hsecond
      exact absurd hsecond digestArray_ne
  · rintro ⟨rfl, hcarries⟩ H
    exact digests_init hcarries

/-! ## The loop, of blocks alone -/

/-- The blocks of `generateLoop`. -/
def blocksLoop (h : Header) : ℕ → ut64 → List u8 → List u8 → Option (List (List u8) × Bool)
  | 0, _, _, _ => none
  | fuel + 1, ptr, rest, buffer =>
    if h.fileSize ≠ -1 ∧ h.to_ ≤ ptr then some ([], true)
    else
      let data := rest.take h.blockSize.toNat
      if data = [] then some ([], true)
      else if negativeInt data.length then some ([], false)
      else
        let len := if h.length ≠ -1 ∧ h.blockSize > h.length then h.length.toNat else data.length
        let buffer := overlay buffer data
        if h.from_.toNat + len ≤ buffer.length then
          (blocksLoop h fuel (ptr + h.blockSize) (rest.drop h.blockSize.toNat) buffer).map
            fun (blocks, ok) => ((buffer.drop h.from_.toNat).take len :: blocks, ok)
        else none

/-- **What the loop hashes does not depend on the algorithms.** -/
theorem generateLoop_eq (ctx : H.Ctx) :
    generateLoop H h fuel ptr rest buffer ctx =
      (blocksLoop h fuel ptr rest buffer).map fun (blocks, ok) =>
        (H.digests h.algorithm ctx blocks, ok) := by
  induction fuel generalizing ptr rest buffer ctx with
  | zero => rfl
  | succ fuel ih =>
    unfold generateLoop blocksLoop
    dsimp only
    split_ifs
    · rfl
    · rfl
    · rfl
    · rw [ih, Option.map_map, Option.map_map]
      rfl
    · rfl
    · rw [ih, Option.map_map, Option.map_map]
      rfl
    · rfl

/-! ## The blocks of a header -/

/-- A header of a range that is in a file of a size. -/
structure Header.InFile (h : Header) (size : ℕ) : Prop where
  fileSize : h.fileSize ≠ -1
  length : h.length = h.to_ - h.from_
  lt : h.from_.toNat < h.to_.toNat
  le : h.to_.toNat ≤ size
  small : size < 2 ^ 63

theorem Header.InFile.length_toNat (hh : h.InFile n) :
    h.length.toNat = h.to_.toNat - h.from_.toNat := by
  rw [hh.length, UInt64.toNat_sub_of_le _ _ (UInt64.le_iff_toNat_le.mpr hh.lt.le)]

theorem Header.InFile.length_ne (hh : h.InFile n) : h.length ≠ -1 := by
  intro hlength
  have htoNat := hh.length_toNat
  have hle := hh.le
  have hsmall := hh.small
  rw [hlength, show (-1 : ut64).toNat = 2 ^ 64 - 1 from rfl] at htoNat
  omega

/-- How many bytes of a block are hashed. -/
theorem Header.InFile.clamp (hh : h.InFile n) :
    (if h.length ≠ -1 ∧ h.blockSize > h.length then h.length.toNat else data.length) =
      if h.to_.toNat - h.from_.toNat < h.blockSize.toNat then h.to_.toNat - h.from_.toNat
      else data.length := by
  have hiff : (h.length ≠ -1 ∧ h.blockSize > h.length) ↔
      h.to_.toNat - h.from_.toNat < h.blockSize.toNat := by
    rw [← hh.length_toNat, ← UInt64.lt_iff_toNat_lt]
    exact ⟨fun hlt => hlt.2, fun hlt => ⟨hh.length_ne, hlt⟩⟩
  rw [if_congr hiff hh.length_toNat rfl]

/-- The loop is over. -/
theorem blocksLoop_done (hh : h.InFile n) (hptr : h.to_ ≤ ptr) :
    blocksLoop h (fuel + 1) ptr rest buffer = some ([], true) := by
  rw [blocksLoop, if_pos ⟨hh.fileSize, hptr⟩]

theorem blocksLoop_eof : blocksLoop h (fuel + 1) ptr [] buffer = some ([], true) := by
  rw [blocksLoop]
  simp

theorem take_ne_nil {k : ℕ} (hk : k ≠ 0) (hrest : rest ≠ []) : rest.take k ≠ [] := fun hnil =>
  (List.take_eq_nil_iff.mp hnil).elim hk hrest

/-- The first of the blocks that are left. -/
theorem blocksLoop_turn (hh : h.InFile n) (hptr : ptr < h.to_) (hbs : h.blockSize.toNat ≠ 0)
    (hrest : rest ≠ []) (hneg : ¬negativeInt (min h.blockSize.toNat rest.length)) {len : ℕ}
    (hlen : len = if h.to_.toNat - h.from_.toNat < h.blockSize.toNat then
      h.to_.toNat - h.from_.toNat else min h.blockSize.toNat rest.length) :
    blocksLoop h (fuel + 1) ptr rest buffer =
      if h.from_.toNat + len ≤ (overlay buffer (rest.take h.blockSize.toNat)).length then
        (blocksLoop h fuel (ptr + h.blockSize) (rest.drop h.blockSize.toNat)
          (overlay buffer (rest.take h.blockSize.toNat))).map fun (blocks, ok) =>
            (((overlay buffer (rest.take h.blockSize.toNat)).drop h.from_.toNat).take len :: blocks,
              ok)
      else none := by
  have hdata := take_ne_nil hbs hrest
  have hlength : (rest.take h.blockSize.toNat).length = min h.blockSize.toNat rest.length :=
    List.length_take
  rw [← hlength] at hneg hlen
  rw [blocksLoop, if_neg (fun hdone => absurd hptr (UInt64.not_lt.mpr hdone.2))]
  simp only [if_neg hdata, if_neg hneg, hh.clamp, ← hlen]

theorem blocksLoop_negative (hptr : ptr < h.to_) (hbs : h.blockSize.toNat ≠ 0)
    (hrest : rest ≠ []) (hneg : negativeInt (min h.blockSize.toNat rest.length)) :
    blocksLoop h (fuel + 1) ptr rest buffer = some ([], false) := by
  have hdata := take_ne_nil hbs hrest
  rw [← List.length_take] at hneg
  rw [blocksLoop, if_neg (fun hdone => absurd hptr (UInt64.not_lt.mpr hdone.2))]
  simp only [if_neg hdata, if_pos hneg]

theorem length_overlay_take {k : ℕ} (hbuffer : buffer.length = k) :
    (overlay buffer (rest.take k)).length = k := by
  unfold overlay
  rw [List.length_append, List.length_drop, List.length_take]
  omega

theorem Header.InFile.src_ne (hh : h.InFile src.length) : src ≠ [] := by
  have hlt := hh.lt
  have hle := hh.le
  rintro rfl
  simp only [List.length_nil] at hle
  omega

/-- **The range in the first block of the file.** -/
theorem blocksLoop_first (hh : h.InFile src.length) (hto : h.to_.toNat ≤ h.blockSize.toNat)
    (hneg : ¬negativeInt (min h.blockSize.toNat src.length))
    (hbuffer : buffer.length = h.blockSize.toNat) :
    blocksLoop h (src.length + 1) h.from_ src buffer =
      some ([src.extract h.from_.toNat h.to_.toNat], true) := by
  have hlt := hh.lt
  have hle := hh.le
  have hsrc := hh.src_ne
  have hlen : h.to_.toNat - h.from_.toNat =
      if h.to_.toNat - h.from_.toNat < h.blockSize.toNat then h.to_.toNat - h.from_.toNat
      else min h.blockSize.toNat src.length := by
    split_ifs with hlt'
    · rfl
    · omega
  rw [blocksLoop_turn hh (UInt64.lt_iff_toNat_lt.mpr hlt) (by omega) hsrc hneg hlen,
    length_overlay_take hbuffer, if_pos (by omega)]
  -- nothing is left of the file, or the range is over
  have hover : blocksLoop h src.length (h.from_ + h.blockSize) (src.drop h.blockSize.toNat)
      (overlay buffer (src.take h.blockSize.toNat)) = some ([], true) := by
    obtain ⟨fuel, hfuel⟩ := Nat.exists_eq_succ_of_ne_zero (List.length_pos_iff.mpr hsrc).ne'
    rw [hfuel]
    by_cases hshort : src.length ≤ h.blockSize.toNat
    · rw [List.drop_of_length_le hshort]
      exact blocksLoop_eof
    · refine blocksLoop_done hh ?_
      have hsmall := hh.small
      rw [UInt64.le_iff_toNat_le, UInt64.toNat_add]
      omega
  have hblock : ((overlay buffer (src.take h.blockSize.toNat)).drop h.from_.toNat).take
      (h.to_.toNat - h.from_.toNat) = src.extract h.from_.toNat h.to_.toNat := by
    unfold overlay
    rw [List.extract_eq_take_drop, List.drop_append_of_le_length (by rw [List.length_take]; omega),
      List.take_append_of_le_length (by rw [List.length_drop, List.length_take]; omega),
      List.drop_take, List.take_take]
    congr 1
    omega
  rw [hover, hblock]
  rfl

/-- A range that goes on behind the first block, and does not begin with the
file, is read from behind the buffer. -/
theorem blocksLoop_far (hh : h.InFile src.length) (hfrom : h.from_.toNat ≠ 0)
    (hto : h.blockSize.toNat < h.to_.toNat) (hbs : h.blockSize.toNat ≠ 0)
    (hbuffer : buffer.length = h.blockSize.toNat) :
    blocksLoop h (src.length + 1) h.from_ src buffer ≠ some (blocks, true) := by
  have hlt := hh.lt
  have hle := hh.le
  have hsrc := hh.src_ne
  have hptr := UInt64.lt_iff_toNat_lt.mpr hlt
  by_cases hneg : negativeInt (min h.blockSize.toNat src.length)
  · rw [blocksLoop_negative hptr hbs hsrc hneg]
    intro hsome
    cases hsome
  · rw [blocksLoop_turn hh hptr hbs hsrc hneg rfl, length_overlay_take hbuffer, if_neg]
    · exact fun hsome => by cases hsome
    · split_ifs <;> omega

/-- A range that begins with the file, and goes on behind the first block. -/
structure Header.FromStart (h : Header) (size : ℕ) : Prop extends h.InFile size where
  from_ : h.from_.toNat = 0
  blockSize_ne : h.blockSize.toNat ≠ 0
  blockSize_lt : h.blockSize.toNat < h.to_.toNat

/-- It is hashed by whole blocks of the file. -/
theorem blocksLoop_start (hh : h.FromStart n) (hptr : ptr < h.to_) (hrest : rest ≠ [])
    (hneg : ¬negativeInt (min h.blockSize.toNat rest.length))
    (hbuffer : buffer.length = h.blockSize.toNat) :
    blocksLoop h (fuel + 1) ptr rest buffer =
      (blocksLoop h fuel (ptr + h.blockSize) (rest.drop h.blockSize.toNat)
        (overlay buffer (rest.take h.blockSize.toNat))).map fun (blocks, ok) =>
          (rest.take h.blockSize.toNat :: blocks, ok) := by
  have hfrom := hh.from_
  have hto := hh.blockSize_lt
  have hlen : min h.blockSize.toNat rest.length =
      if h.to_.toNat - h.from_.toNat < h.blockSize.toNat then h.to_.toNat - h.from_.toNat
      else min h.blockSize.toNat rest.length := by
    rw [if_neg (by omega)]
  have hblock : ((overlay buffer (rest.take h.blockSize.toNat)).drop h.from_.toNat).take
      (min h.blockSize.toNat rest.length) = rest.take h.blockSize.toNat := by
    unfold overlay
    rw [hfrom, List.drop_zero, ← List.length_take, List.take_left]
  rw [blocksLoop_turn hh.toInFile hptr hh.blockSize_ne hrest hneg hlen,
    length_overlay_take hbuffer, if_pos (by omega), hblock]

/-- A chunk in front of the end of the range has something of the file. -/
theorem Header.InFile.drop_ne_nil (hh : h.InFile src.length)
    (hin : i * h.blockSize.toNat < h.to_.toNat) : src.drop (i * h.blockSize.toNat) ≠ [] := by
  have hle := hh.le
  rw [ne_eq, List.drop_eq_nil_iff]
  omega

theorem Header.FromStart.toNat_next (hh : h.FromStart n)
    (hptr : ptr.toNat = i * h.blockSize.toNat) (hin : i * h.blockSize.toNat < h.to_.toNat) :
    (ptr + h.blockSize).toNat = (i + 1) * h.blockSize.toNat := by
  have hto := hh.blockSize_lt
  have hle := hh.le
  have hsmall := hh.small
  rw [UInt64.toNat_add, hptr, Nat.succ_mul]
  omega

/-- **From the begin of the file on the blocks are its chunks**, as long as
each is read. -/
theorem blocksLoop_chunks (hh : h.FromStart src.length)
    (hneg : ∀ j, j * h.blockSize.toNat < h.to_.toNat →
      ¬negativeInt (min h.blockSize.toNat (src.length - j * h.blockSize.toNat)))
    (hptr : ptr.toNat = i * h.blockSize.toNat) (hbuffer : buffer.length = h.blockSize.toNat)
    (hfuel : chunkCount h.blockSize.toNat h.to_.toNat - i < fuel) :
    blocksLoop h fuel ptr (src.drop (i * h.blockSize.toNat)) buffer =
      some (chunksFrom h.blockSize.toNat src i
        (chunkCount h.blockSize.toNat h.to_.toNat - i), true) := by
  have hpos : 0 < h.blockSize.toNat := Nat.pos_of_ne_zero hh.blockSize_ne
  induction fuel generalizing ptr i buffer with
  | zero => exact absurd hfuel (Nat.not_lt_zero _)
  | succ fuel ih =>
    by_cases hover : h.to_.toNat ≤ i * h.blockSize.toNat
    · have hcount := (chunkCount_le_iff hpos).mpr hover
      rw [blocksLoop_done hh.toInFile (UInt64.le_iff_toNat_le.mpr (hptr ▸ hover)),
        Nat.sub_eq_zero_of_le hcount]
      rfl
    · have hin : i * h.blockSize.toNat < h.to_.toNat := Nat.not_le.mp hover
      have hcount := (lt_chunkCount_iff hpos).mpr hin
      -- this block is read, and the loop comes to the next
      have hread : ¬negativeInt (min h.blockSize.toNat (src.drop (i * h.blockSize.toNat)).length) :=
        List.length_drop ▸ hneg i hin
      have hsub : chunkCount h.blockSize.toNat h.to_.toNat - i =
          chunkCount h.blockSize.toNat h.to_.toNat - (i + 1) + 1 := by omega
      rw [blocksLoop_start hh (UInt64.lt_iff_toNat_lt.mpr (hptr ▸ hin)) (hh.drop_ne_nil hin) hread
        hbuffer, drop_succ_mul,
        ih (i := i + 1) (hh.toNat_next hptr hin) (length_overlay_take hbuffer) (by omega), hsub,
        chunksFrom_succ]
      rfl

/-- Where the loop goes through, each of them was read. -/
theorem Header.FromStart.of_blocksLoop (hh : h.FromStart src.length)
    (hptr : ptr.toNat = i * h.blockSize.toNat) (hbuffer : buffer.length = h.blockSize.toNat)
    (hsome : blocksLoop h fuel ptr (src.drop (i * h.blockSize.toNat)) buffer =
      some (blocks, true)) {j : ℕ} (hij : i ≤ j) (hin : j * h.blockSize.toNat < h.to_.toNat) :
    ¬negativeInt (min h.blockSize.toNat (src.length - j * h.blockSize.toNat)) := by
  induction fuel generalizing ptr i buffer blocks with
  | zero => cases hsome
  | succ fuel ih =>
    have hlt : i * h.blockSize.toNat < h.to_.toNat := (Nat.mul_le_mul_right _ hij).trans_lt hin
    have hptr' := UInt64.lt_iff_toNat_lt.mpr (hptr ▸ hlt)
    have hrest := hh.drop_ne_nil hlt
    by_cases hneg : negativeInt (min h.blockSize.toNat (src.drop (i * h.blockSize.toNat)).length)
    · rw [blocksLoop_negative hptr' hh.blockSize_ne hrest hneg] at hsome
      cases hsome
    · rcases hij.eq_or_lt with rfl | hij
      · exact List.length_drop ▸ hneg
      · rw [blocksLoop_start hh hptr' hrest hneg hbuffer, drop_succ_mul] at hsome
        obtain ⟨⟨blocks', ok⟩, hblocks, heq⟩ := Option.map_eq_some_iff.mp hsome
        obtain ⟨-, rfl⟩ := Prod.mk.inj heq
        exact ih (i := i + 1) (hh.toNat_next hptr hlt) (length_overlay_take hbuffer) hblocks hij

/-! ## The blocks asked for -/

/-- The blocks of a range of a file. -/
def rangeBlocks (src : List u8) (from_ to_ bs : ℕ) : List (List u8) :=
  (List.range (chunkCount bs (to_ - from_))).map fun i =>
    src.extract (from_ + i * bs) (min (from_ + (i + 1) * bs) to_)

theorem length_rangeBlocks {from_ to_ bs : ℕ} :
    (rangeBlocks src from_ to_ bs).length = chunkCount bs (to_ - from_) := by
  rw [rangeBlocks, List.length_map, List.length_range]

theorem chunkCount_eq_one {k size : ℕ} (hsize : 0 < size) (hk : size ≤ k) :
    chunkCount k size = 1 := by
  have hpos : 0 < k := by omega
  have hzero : 0 < chunkCount k size := (lt_chunkCount_iff hpos).mpr (by rwa [Nat.zero_mul])
  have hone : chunkCount k size ≤ 1 := (chunkCount_le_iff hpos).mpr (by rwa [Nat.one_mul])
  omega

/-- A range of one block. -/
theorem rangeBlocks_one {from_ to_ bs : ℕ} (hlt : from_ < to_) (hle : to_ - from_ ≤ bs) :
    rangeBlocks src from_ to_ bs = [src.extract from_ to_] := by
  have hstop : min (from_ + (0 + 1) * bs) to_ = to_ := by omega
  rw [rangeBlocks, chunkCount_eq_one (by omega) hle, List.range_one, List.map_singleton, hstop,
    Nat.zero_mul, Nat.add_zero]

/-- **The chunks of the file are the blocks of the range** if the range ends
with a chunk or with the file. -/
theorem chunksFrom_eq_iff {to_ k : ℕ} (hk : 0 < k) (hle : to_ ≤ src.length) :
    chunksFrom k src 0 (chunkCount k to_) = rangeBlocks src 0 to_ k ↔
      k ∣ to_ ∨ to_ = src.length := by
  have heq : chunksFrom k src 0 (chunkCount k to_) = rangeBlocks src 0 to_ k ↔
      ∀ i, i * k < to_ → chunk k src i = src.extract (i * k) (min ((i + 1) * k) to_) := by
    rw [chunksFrom, rangeBlocks, ← List.range_eq_range', Nat.sub_zero, List.map_inj_left]
    refine forall_congr' fun i => ?_
    rw [List.mem_range, lt_chunkCount_iff hk, Nat.zero_add, Nat.zero_add]
  rw [heq]
  constructor
  · intro hall
    by_contra hnot
    obtain ⟨hdvd, hend⟩ := not_or.mp hnot
    have hmod : to_ % k ≠ 0 := fun hzero => hdvd (Nat.dvd_of_mod_eq_zero hzero)
    have hdiv : to_ / k * k + to_ % k = to_ := Nat.div_add_mod' to_ k
    have hlt : to_ % k < k := Nat.mod_lt _ hk
    -- the last chunk goes on behind the range, unless the file ends there
    have hlast := congrArg List.length (hall (to_ / k) (by omega))
    rw [length_chunk, List.extract_eq_take_drop, List.length_take, List.length_drop,
      Nat.succ_mul] at hlast
    omega
  · intro hor i hi
    have hnext : (i + 1) * k = i * k + k := Nat.succ_mul i k
    rw [chunk, List.extract_eq_take_drop]
    by_cases hle' : (i + 1) * k ≤ to_
    · rw [Nat.min_eq_left hle', hnext, Nat.add_sub_cancel_left]
    · rcases hor with ⟨c, rfl⟩ | rfl
      · -- no multiple lies between two that follow each other
        have hic : i < c := by
          rw [Nat.mul_comm] at hi
          exact Nat.lt_of_mul_lt_mul_left hi
        exact absurd (Nat.mul_comm k c ▸ Nat.mul_le_mul_right k hic) hle'
      · rw [List.take_of_length_le (by rw [List.length_drop]; omega),
          List.take_of_length_le (by rw [List.length_drop]; omega)]

/-- Every read of a block, for a range of a file, gives a number of bytes that
is not negative as an `int`. -/
def ReadsFit (size from_ to_ read : ℕ) : Prop :=
  ∀ i, i * read < to_ - from_ → ¬negativeInt (min read (size - i * read))

theorem readsFit_one {size from_ to_ read : ℕ} (hlt : from_ < to_) (hle : to_ ≤ read) :
    ReadsFit size from_ to_ read ↔ ¬negativeInt (min read size) := by
  constructor
  · intro hfit
    have hzero := hfit 0 (by omega)
    rwa [Nat.zero_mul, Nat.sub_zero] at hzero
  · intro hneg i hi
    rcases Nat.eq_zero_or_pos i with rfl | hpos
    · rwa [Nat.zero_mul, Nat.sub_zero]
    · have hread : read ≤ i * read := Nat.le_mul_of_pos_left read hpos
      omega

/-- Blocks of no bytes: the loop ends before the first. -/
theorem blocksLoop_no_bytes (buffer : List u8) (hh : h.InFile src.length)
    (hzero : h.blockSize.toNat = 0) :
    blocksLoop h (src.length + 1) h.from_ src buffer = some ([], true) := by
  have hptr := UInt64.lt_iff_toNat_lt.mpr hh.lt
  rw [blocksLoop, if_neg (fun hdone => absurd hptr (UInt64.not_lt.mpr hdone.2)), hzero,
    List.take_zero]
  rfl

/-- The chunks of a file are the blocks of a range that begins with it. -/
theorem chunks_eq_rangeBlocks_iff (hh : h.FromStart src.length) {bs : ℕ} (hbs : 0 < bs)
    (hsame : h.blockSize.toNat = bs ∨ h.to_.toNat < bs) :
    chunksFrom h.blockSize.toNat src 0 (chunkCount h.blockSize.toNat h.to_.toNat) =
        rangeBlocks src h.from_.toNat h.to_.toNat bs ↔
      h.to_.toNat ≤ h.blockSize.toNat ∨ h.blockSize.toNat = bs ∧ h.from_.toNat = 0 ∧
        (bs ∣ h.to_.toNat ∨ h.to_.toNat = src.length) := by
  have hto := hh.blockSize_lt
  have hfrom := hh.from_
  rcases hsame with rfl | hsmall
  · rw [hfrom, chunksFrom_eq_iff hbs hh.le]
    exact ⟨fun hor => Or.inr ⟨rfl, rfl, hor⟩, fun hor => (hor.resolve_left hto.not_ge).2.2⟩
  · -- one block was asked for, and there is a second chunk
    refine iff_of_false (fun heq => ?_) fun hor => by omega
    have hlength := congrArg List.length heq
    have hone : chunkCount bs (h.to_.toNat - h.from_.toNat) = 1 :=
      chunkCount_eq_one (by omega) (by omega)
    have hsecond : 1 < chunkCount h.blockSize.toNat h.to_.toNat :=
      (lt_chunkCount_iff (Nat.pos_of_ne_zero hh.blockSize_ne)).mpr (by omega)
    rw [length_rangeBlocks, hone, chunksFrom, List.length_map, List.length_range'] at hlength
    omega

/-- From the start of the file the loop hashes its chunks, if each can be
read. -/
theorem blocksLoop_start_iff (hh : h.FromStart src.length)
    (hbuffer : buffer.length = h.blockSize.toNat) :
    blocksLoop h (src.length + 1) h.from_ src buffer = some (blocks, true) ↔
      chunksFrom h.blockSize.toNat src 0 (chunkCount h.blockSize.toNat h.to_.toNat) = blocks ∧
        ReadsFit src.length h.from_.toNat h.to_.toNat h.blockSize.toNat := by
  have hpos := Nat.pos_of_ne_zero hh.blockSize_ne
  have hat : h.from_.toNat = 0 * h.blockSize.toNat := by rw [hh.from_, Nat.zero_mul]
  have hdrop : src.drop (0 * h.blockSize.toNat) = src := by rw [Nat.zero_mul, List.drop_zero]
  have hcount : chunkCount h.blockSize.toNat h.to_.toNat ≤ src.length :=
    (chunkCount_le_iff hpos).mpr (hh.le.trans (Nat.le_mul_of_pos_right _ hpos))
  have hturns : chunkCount h.blockSize.toNat h.to_.toNat - 0 < src.length + 1 := by omega
  have hchunks := fun hfit => blocksLoop_chunks hh hfit hat hbuffer hturns
  rw [hdrop, Nat.sub_zero] at hchunks
  rw [ReadsFit, hh.from_, Nat.sub_zero]
  constructor
  · intro heq
    have hreads := fun j hj => hh.of_blocksLoop hat hbuffer (hdrop.symm ▸ heq) (Nat.zero_le j) hj
    exact ⟨(Prod.mk.inj (Option.some.inj ((hchunks hreads).symm.trans heq))).1, hreads⟩
  · rintro ⟨heq, hreads⟩
    rw [hchunks hreads, heq]

/-- **What is hashed is the range**, read in blocks that are as large as asked
for or else larger than the range. -/
theorem blocksLoop_eq_iff (hh : h.InFile src.length) {bs : ℕ} (hbs : 0 < bs)
    (hle : h.blockSize.toNat ≤ bs) (hsame : h.blockSize.toNat = bs ∨ h.to_.toNat < bs)
    (hbuffer : buffer.length = h.blockSize.toNat) :
    blocksLoop h (src.length + 1) h.from_ src buffer =
        some (rangeBlocks src h.from_.toNat h.to_.toNat bs, true) ↔
      (h.to_.toNat ≤ h.blockSize.toNat ∨ h.blockSize.toNat = bs ∧ h.from_.toNat = 0 ∧
        (bs ∣ h.to_.toNat ∨ h.to_.toNat = src.length)) ∧
      ReadsFit src.length h.from_.toNat h.to_.toNat h.blockSize.toNat := by
  have hlt := hh.lt
  have hptr := UInt64.lt_iff_toNat_lt.mpr hlt
  by_cases hzero : h.blockSize.toNat = 0
  · refine iff_of_false (fun heq => ?_) (fun hor => by omega)
    have hnil := (blocksLoop_no_bytes buffer hh hzero).symm.trans heq
    have hlength := congrArg List.length (Prod.mk.inj (Option.some.inj hnil)).1
    have hfirst : 0 < chunkCount bs (h.to_.toNat - h.from_.toNat) :=
      (lt_chunkCount_iff hbs).mpr (by omega)
    rw [length_rangeBlocks, List.length_nil] at hlength
    omega
  by_cases hto : h.to_.toNat ≤ h.blockSize.toNat
  · rw [readsFit_one hlt hto]
    by_cases hneg : negativeInt (min h.blockSize.toNat src.length)
    · rw [blocksLoop_negative hptr hzero hh.src_ne hneg]
      refine iff_of_false (fun heq => ?_) fun hand => hand.2 hneg
      exact Bool.false_ne_true (Prod.mk.inj (Option.some.inj heq)).2
    · rw [blocksLoop_first hh hto hneg hbuffer, rangeBlocks_one hlt (by omega)]
      exact iff_of_true rfl ⟨Or.inl hto, hneg⟩
  have hto := Nat.not_le.mp hto
  by_cases hfrom : h.from_.toNat = 0
  · have hstart : h.FromStart src.length := ⟨hh, hfrom, hzero, hto⟩
    rw [blocksLoop_start_iff hstart hbuffer, chunks_eq_rangeBlocks_iff hstart hbs hsame]
  · refine iff_of_false (blocksLoop_far hh hfrom hto hzero hbuffer) fun hand => ?_
    rcases hand.1 with hle | ⟨-, hzero, -⟩
    · omega
    · exact hfrom hzero

/-! ## The header of the loop -/

/-- Where the range that is asked for ends, in a file of a size. -/
def Header.stop (h : Header) (size : ℕ) : ut64 :=
  let to_ := if h.length ≠ 0 then h.from_ + h.length else h.to_
  if to_ = 0 then UInt64.ofNat size else to_

/-- The header for a range that is in the file. -/
def Header.ranged (m : Machine) (h : Header) (size : ℕ) (fileName : List u8) : Header :=
  { h with
    headerSize := m.headerSize
    fileSize := UInt64.ofNat size
    to_ := h.stop size
    length := h.stop size - h.from_
    fileName := fileName }

theorem toNat_size (hsize : n < 2 ^ 63) : (UInt64.ofNat n).toNat = n := by
  rw [UInt64.toNat_ofNat']
  omega

theorem hashRange_eq (hsize : n < 2 ^ 63) (hlt : h.from_.toNat < (h.stop n).toNat)
    (hle : (h.stop n).toNat ≤ n) :
    hashRange m h (UInt64.ofNat n) = some (h.ranged m n h.fileName) := by
  have hsizeNat := toNat_size hsize
  have hne : UInt64.ofNat n ≠ 0 := by
    intro hzero
    rw [hzero, UInt64.toNat_zero] at hsizeNat
    omega
  have hin : ¬(h.from_ ≠ 0 ∧ h.from_ > UInt64.ofNat n) := fun hand => by
    have hgt := UInt64.lt_iff_toNat_lt.mp hand.2
    omega
  have hnotOver : ¬h.stop n > UInt64.ofNat n := by
    rw [gt_iff_lt, UInt64.lt_iff_toNat_lt]
    omega
  have hrange : ¬(h.from_ ≠ 0 ∧ h.from_ ≥ h.stop n) := fun hand => by
    have hge := UInt64.le_iff_toNat_le.mp hand.2
    omega
  unfold hashRange Header.ranged
  by_cases hlength : h.length = 0
  · have hstop : h.stop n = if h.to_ = 0 then UInt64.ofNat n else h.to_ := by
      rw [Header.stop, if_neg (not_not_intro hlength)]
    by_cases hto : h.to_ = 0
    · rw [if_pos hto] at hstop
      rw [hstop] at hrange ⊢
      simp only [ne_eq, hlength, not_true_eq_false, if_false, hto, if_neg hin, if_neg hrange, if_neg hne]
    · rw [if_neg hto] at hstop
      rw [hstop] at hrange hnotOver ⊢
      simp only [ne_eq, hlength, not_true_eq_false, if_false, hto, not_false_eq_true, if_true,
        if_neg hin, if_neg hnotOver, if_neg hrange, if_neg hne]
  · have hstop : h.stop n = if h.from_ + h.length = 0 then UInt64.ofNat n else h.from_ + h.length := by
      rw [Header.stop, if_pos hlength]
    by_cases hto : h.from_ + h.length = 0
    · rw [if_pos hto] at hstop
      rw [hstop] at hrange ⊢
      simp only [ne_eq, hlength, not_true_eq_false, not_false_eq_true, if_true, if_false, hto,
        if_neg hin, if_neg hrange, if_neg hne]
    · rw [if_neg hto] at hstop
      rw [hstop] at hrange hnotOver ⊢
      simp only [ne_eq, hlength, not_false_eq_true, if_true, hto,
        if_neg hin, if_neg hnotOver, if_neg hrange, if_neg hne]

/-- A number turned twice keeps 32 bits. -/
theorem htonl_htonl (x : ut64) : htonl m (htonl m x) = UInt64.ofNat (x.toNat % 2 ^ 32) := by
  have hlength := length_bytesOf 4 x.toNat
  have hmod : ofBytes (bytesOf 4 x.toNat) = x.toNat % 2 ^ 32 := ofBytes_bytesOf 4 x.toNat
  have htwice : ∀ bytes : List u8, bytes.length = 4 →
      bytesOf 4 (UInt64.ofNat (ofBytes bytes)).toNat = bytes := by
    intro bytes hbytes
    have hlt : ofBytes bytes < 256 ^ bytes.length := ofBytes_lt
    rw [hbytes] at hlt
    rw [UInt64.toNat_ofNat', Nat.mod_eq_of_lt (by omega), ← hbytes, bytesOf_ofBytes]
  unfold htonl
  cases m.bigEndian
  · simp only [Bool.false_eq_true, if_false]
    rw [htwice _ (by rw [List.length_reverse, hlength]), List.reverse_reverse, hmod]
  · simp only [if_true]
    rw [htwice _ hlength, hmod]

/-- A number as the loop has it. -/
def cut (dst : Bool) (k : ℕ) : ℕ := if dst then k % 2 ^ 32 else k

/-- The header that the loop goes on with. -/
def loopHeader (m : Machine) (h : Header) (dst : Bool) : Header :=
  if dst then endianHeader m (endianHeader m h) else h

theorem cut_of_lt {dst : Bool} {k : ℕ} (hk : dst → k < 2 ^ 32) : cut dst k = k := by
  unfold cut
  split_ifs with hdst
  · exact Nat.mod_eq_of_lt (hk hdst)
  · rfl

section Loop

variable {dst : Bool}

theorem toNat_cut (x : ut64) :
    (if dst then htonl m (htonl m x) else x).toNat = cut dst x.toNat := by
  unfold cut
  split_ifs
  · rw [htonl_htonl, UInt64.toNat_ofNat']
    omega
  · rfl

theorem loopHeader_from : (loopHeader m h dst).from_.toNat = cut dst h.from_.toNat := by
  rw [← toNat_cut (m := m)]
  cases dst <;> rfl

theorem loopHeader_to : (loopHeader m h dst).to_.toNat = cut dst h.to_.toNat := by
  rw [← toNat_cut (m := m)]
  cases dst <;> rfl

theorem loopHeader_length : (loopHeader m h dst).length.toNat = cut dst h.length.toNat := by
  rw [← toNat_cut (m := m)]
  cases dst <;> rfl

theorem loopHeader_blockSize :
    (loopHeader m h dst).blockSize.toNat = cut dst h.blockSize.toNat := by
  rw [← toNat_cut (m := m)]
  cases dst <;> rfl

theorem loopHeader_algorithm : (loopHeader m h dst).algorithm = h.algorithm := by
  cases dst <;> rfl

theorem loopHeader_fileSize (hsize : h.fileSize.toNat < 2 ^ 63) :
    (loopHeader m h dst).fileSize ≠ -1 := by
  have hcut : (loopHeader m h dst).fileSize.toNat = cut dst h.fileSize.toNat := by
    rw [← toNat_cut (m := m)]
    cases dst <;> rfl
  intro hneg
  rw [hneg, show (-1 : ut64).toNat = 2 ^ 64 - 1 from rfl, cut] at hcut
  split_ifs at hcut <;> omega

/-- **The header of the loop is of the range** if its numbers have 32 bits,
or nothing is written. -/
theorem loopHeader_inFile (name : List u8) (hsize : n < 2 ^ 63) (hlt : h.from_.toNat < (h.stop n).toNat)
    (hle : (h.stop n).toNat ≤ n) (hto : dst → (h.stop n).toNat < 2 ^ 32) :
    (loopHeader m (h.ranged m n name) dst).InFile n := by
  have hfrom : (loopHeader m (h.ranged m n name) dst).from_.toNat = h.from_.toNat :=
    loopHeader_from.trans (cut_of_lt fun hdst => hlt.trans (hto hdst))
  have hstop : (loopHeader m (h.ranged m n name) dst).to_.toNat = (h.stop n).toNat :=
    loopHeader_to.trans (cut_of_lt hto)
  have hlength : (h.ranged m n name).length.toNat = (h.stop n).toNat - h.from_.toNat :=
    UInt64.toNat_sub_of_le _ _ (UInt64.le_iff_toNat_le.mpr hlt.le)
  refine ⟨loopHeader_fileSize ((toNat_size hsize).symm ▸ hsize), ?_, by omega, by omega, hsize⟩
  refine UInt64.toNat_inj.mp ?_
  rw [loopHeader_length, hlength, UInt64.toNat_sub_of_le _ _ (UInt64.le_iff_toNat_le.mpr (by omega)),
    hfrom, hstop]
  exact cut_of_lt fun hdst => by
    have hlt32 := hto hdst
    omega

end Loop

/-! ## Numbers of more than 32 bits -/

/-- The loop reads no further than a block behind the end of its range. -/
theorem blocksLoop_congr (hfile : h.fileSize ≠ -1) (hto : h.to_.toNat < 2 ^ 32)
    (hbs : h.blockSize.toNat < 2 ^ 32) {k : ℕ}
    (hk : ptr < h.to_ → h.to_.toNat - ptr.toNat + h.blockSize.toNat ≤ k)
    (hlength : rest.length = rest'.length) (hagree : rest.take k = rest'.take k) :
    blocksLoop h fuel ptr rest buffer = blocksLoop h fuel ptr rest' buffer := by
  induction fuel generalizing ptr rest rest' buffer k with
  | zero => rfl
  | succ fuel ih =>
    by_cases hptr : h.to_ ≤ ptr
    · rw [blocksLoop, blocksLoop, if_pos ⟨hfile, hptr⟩, if_pos ⟨hfile, hptr⟩]
    · have hlt : ptr < h.to_ := UInt64.not_le.mp hptr
      have hk' := hk hlt
      rw [UInt64.lt_iff_toNat_lt] at hlt
      have hblock : rest.take h.blockSize.toNat = rest'.take h.blockSize.toNat := by
        have htake := congrArg (List.take h.blockSize.toNat) hagree
        rwa [List.take_take, List.take_take, Nat.min_eq_left (by omega)] at htake
      have hrest : (rest.drop h.blockSize.toNat).take (k - h.blockSize.toNat) =
          (rest'.drop h.blockSize.toNat).take (k - h.blockSize.toNat) := by
        rw [← List.drop_take, ← List.drop_take, hagree]
      -- what is read from the next block on is one block less
      have hnext : ptr + h.blockSize < h.to_ → h.to_.toNat - (ptr + h.blockSize).toNat +
          h.blockSize.toNat ≤ k - h.blockSize.toNat := by
        intro hlt'
        rw [UInt64.lt_iff_toNat_lt] at hlt'
        rw [UInt64.toNat_add] at hlt' ⊢
        omega
      have hdrop : (rest.drop h.blockSize.toNat).length = (rest'.drop h.blockSize.toNat).length := by
        rw [List.length_drop, List.length_drop, hlength]
      rw [blocksLoop, blocksLoop, hblock]
      simp only [ih hnext hdrop hrest]

/-- A file of zeros, and one with another byte at the end of the range. -/
theorem rangeBlocks_ne {from_ to_ bs : ℕ} (hlt : from_ < to_) (hle : to_ ≤ n) (hbs : 0 < bs) :
    rangeBlocks (List.replicate n 0) from_ to_ bs ≠
      rangeBlocks ((List.replicate n 0).set (to_ - 1) 1) from_ to_ bs := by
  intro heq
  -- the last block
  obtain ⟨i, hi⟩ := Nat.exists_eq_succ_of_ne_zero
    ((lt_chunkCount_iff (i := 0) hbs).mpr (by omega : 0 * bs < to_ - from_)).ne'
  have hin : i * bs < to_ - from_ := (lt_chunkCount_iff hbs).mp (by omega)
  have hover : to_ - from_ ≤ (i + 1) * bs := (chunkCount_le_iff hbs).mp (by omega)
  have hlast := List.map_inj_left.mp heq i (List.mem_range.mpr (by omega))
  have hend : min (from_ + (i + 1) * bs) to_ = to_ := by omega
  rw [hend] at hlast
  have hget := congrArg (·[to_ - 1 - (from_ + i * bs)]?) hlast
  simp only [List.extract_eq_take_drop] at hget
  rw [List.getElem?_take_of_lt (by omega), List.getElem?_take_of_lt (by omega),
    List.getElem?_drop, List.getElem?_drop,
    show from_ + i * bs + (to_ - 1 - (from_ + i * bs)) = to_ - 1 by omega,
    List.getElem?_set_self (by rw [List.length_replicate]; omega), List.getElem?_replicate,
    if_pos (by omega)] at hget
  exact absurd (Option.some.inj hget) (by decide)

/-! ## The digests of a range -/

/-- Whatever the algorithms compute, the digests of any file of a size are
those of the blocks of the range, and as many. -/
def HashesRange (m : Machine) (h : Header) (size : ℕ) (dst : Bool) : Prop :=
  ∀ (H : Hashes) (fresh : ℕ → u8) (src name : List u8), src.length = size →
    ∃ g, radareHashGenerate H m fresh (H.init h.algorithm) h src name dst = some g ∧ g.ret = 0 ∧
      g.digests = (rangeBlocks src h.from_.toNat (h.stop size).toNat h.blockSize.toNat).map
        (H.digest h.algorithm)

/-- The range is in the first block, or begins with the file and ends with a
block or the file; its blocks can be read; and an algorithm whose context is
not initialised again has one block. What is written is cut to 32 bits. -/
def Header.Covered (h : Header) (size : ℕ) (dst : Bool) : Prop :=
  let from_ := h.from_.toNat
  let to_ := (h.stop size).toNat
  let bs := h.blockSize.toNat
  let read := cut dst bs
  (dst → to_ < 2 ^ 32) ∧
    (to_ ≤ read ∨ read = bs ∧ from_ = 0 ∧ (bs ∣ to_ ∨ to_ = size)) ∧
    ReadsFit size from_ to_ read ∧
    (h.algorithm.carries → to_ - from_ ≤ bs)

/-- The header of the loop, for a file with a name. -/
def Header.looped (m : Machine) (h : Header) (size : ℕ) (dst : Bool) (name : List u8) : Header :=
  loopHeader m (h.ranged m size (name.take 128)) dst

section Range

variable {dst : Bool}

theorem radareHashGenerate_eq (hsize : n < 2 ^ 63) (hlt : h.from_.toNat < (h.stop n).toNat)
    (hle : (h.stop n).toNat ≤ n) (hbs : h.blockSize ≠ 0) (hsrc : src.length = n) (name : List u8)
    (ctx : H.Ctx) :
    radareHashGenerate H m fresh ctx h src name dst =
      (blocksLoop (h.looped m n dst name) (n + 1) (h.looped m n dst name).from_ src
        (malloc fresh (h.looped m n dst name).blockSize.toNat)).map fun (blocks, ok) =>
          ⟨h.ranged m n (name.take 128), H.digests h.algorithm ctx blocks, if ok then 0 else 1⟩ := by
  have hne : ¬({ h.ranged m n h.fileName with fileName := name.take 128 } : Header).blockSize = 0 :=
    hbs
  have halgorithm : (h.looped m n dst name).algorithm = h.algorithm := loopHeader_algorithm
  unfold radareHashGenerate
  rw [hsrc, hashRange_eq hsize hlt hle]
  dsimp only
  rw [if_neg hne]
  show (generateLoop H (h.looped m n dst name) (n + 1) (h.looped m n dst name).from_ src
    (malloc fresh (h.looped m n dst name).blockSize.toNat) ctx).map _ = _
  rw [generateLoop_eq, Option.map_map, halgorithm]
  rfl

/-- The blocks of the loop are those of the range. -/
theorem hashesRange_iff_blocks (hsize : n < 2 ^ 63) (hlt : h.from_.toNat < (h.stop n).toNat)
    (hle : (h.stop n).toNat ≤ n) (hbs : h.blockSize ≠ 0) :
    HashesRange m h n dst ↔
      (∀ (fresh : ℕ → u8) (src name : List u8), src.length = n →
        blocksLoop (h.looped m n dst name) (n + 1) (h.looped m n dst name).from_ src
            (malloc fresh (h.looped m n dst name).blockSize.toNat) =
          some (rangeBlocks src h.from_.toNat (h.stop n).toNat h.blockSize.toNat, true)) ∧
      (h.algorithm.carries → (h.stop n).toNat - h.from_.toNat ≤ h.blockSize.toNat) := by
  have hpos : 0 < h.blockSize.toNat :=
    Nat.pos_of_ne_zero fun hzero => hbs (UInt64.toNat_inj.mp hzero)
  have hone : ∀ src : List u8,
      (rangeBlocks src h.from_.toNat (h.stop n).toNat h.blockSize.toNat).length ≤ 1 ↔
        (h.stop n).toNat - h.from_.toNat ≤ h.blockSize.toNat := by
    intro src
    rw [length_rangeBlocks, chunkCount_le_iff hpos, Nat.one_mul]
  constructor
  · intro hall
    have hboth : ∀ (fresh : ℕ → u8) (src name : List u8), src.length = n →
        blocksLoop (h.looped m n dst name) (n + 1) (h.looped m n dst name).from_ src
            (malloc fresh (h.looped m n dst name).blockSize.toNat) =
          some (rangeBlocks src h.from_.toNat (h.stop n).toNat h.blockSize.toNat, true) ∧
        (h.algorithm.carries → (h.stop n).toNat - h.from_.toNat ≤ h.blockSize.toNat) := by
      intro fresh src name hsrc
      -- the blocks do not depend on the algorithms, so that any of them will do here
      obtain ⟨g, hg, hret, -⟩ := hall ageHashes fresh src name hsrc
      rw [radareHashGenerate_eq hsize hlt hle hbs hsrc] at hg
      obtain ⟨⟨blocks, ok⟩, hblocks, rfl⟩ := Option.map_eq_some_iff.mp hg
      have hok : ok = true := by
        cases ok with
        | true => rfl
        | false => exact absurd hret Nat.one_ne_zero
      subst hok
      have hdigests : ∀ H : Hashes, H.digests h.algorithm (H.init h.algorithm) blocks =
          (rangeBlocks src h.from_.toNat (h.stop n).toNat h.blockSize.toNat).map
            (H.digest h.algorithm) := by
        intro H
        obtain ⟨g', hg', -, hdigests⟩ := hall H fresh src name hsrc
        rw [radareHashGenerate_eq hsize hlt hle hbs hsrc, hblocks] at hg'
        obtain rfl := Option.some.inj hg'
        exact hdigests
      obtain ⟨rfl, hcarries⟩ := forall_digests_iff.mp hdigests
      exact ⟨hblocks, fun hc => (hone src).mp (hcarries hc)⟩
    refine ⟨fun fresh src name hsrc => (hboth fresh src name hsrc).1, ?_⟩
    exact (hboth (fun _ => 0) (List.replicate n 0) [] List.length_replicate).2
  · rintro ⟨hblocks, hcarries⟩ H fresh src name hsrc
    rw [radareHashGenerate_eq hsize hlt hle hbs hsrc, hblocks fresh src name hsrc]
    exact ⟨_, rfl, rfl, digests_init fun hc => (hone src).mpr (hcarries hc)⟩

/-- Where the end is not cut the loop hashes the range, or it does not. -/
theorem blocksLoop_looped_iff (hsize : n < 2 ^ 63) (hlt : h.from_.toNat < (h.stop n).toNat)
    (hle : (h.stop n).toNat ≤ n) (hpos : 0 < h.blockSize.toNat)
    (hto : dst → (h.stop n).toNat < 2 ^ 32) (hsrc : src.length = n) (name : List u8) :
    blocksLoop (h.looped m n dst name) (n + 1) (h.looped m n dst name).from_ src
        (malloc fresh (h.looped m n dst name).blockSize.toNat) =
      some (rangeBlocks src h.from_.toNat (h.stop n).toNat h.blockSize.toNat, true) ↔
    ((h.stop n).toNat ≤ cut dst h.blockSize.toNat ∨
      cut dst h.blockSize.toNat = h.blockSize.toNat ∧ h.from_.toNat = 0 ∧
        (h.blockSize.toNat ∣ (h.stop n).toNat ∨ (h.stop n).toNat = n)) ∧
    ReadsFit n h.from_.toNat (h.stop n).toNat (cut dst h.blockSize.toNat) := by
  have hin : (h.looped m n dst name).InFile n := loopHeader_inFile _ hsize hlt hle hto
  have hfrom : (h.looped m n dst name).from_.toNat = h.from_.toNat :=
    loopHeader_from.trans (cut_of_lt fun hdst => hlt.trans (hto hdst))
  have hstop : (h.looped m n dst name).to_.toNat = (h.stop n).toNat :=
    loopHeader_to.trans (cut_of_lt hto)
  have hread : (h.looped m n dst name).blockSize.toNat = cut dst h.blockSize.toNat :=
    loopHeader_blockSize
  -- a block size that is cut was larger than the range
  have hsame : cut dst h.blockSize.toNat = h.blockSize.toNat ∨
      (h.stop n).toNat < h.blockSize.toNat := by
    unfold cut
    split_ifs with hdst
    · have hto' := hto hdst
      omega
    · exact Or.inl rfl
  have hcut : cut dst h.blockSize.toNat ≤ h.blockSize.toNat := by
    unfold cut
    split_ifs
    · exact Nat.mod_le _ _
    · exact Nat.le_refl _
  subst hsrc
  have hiff := blocksLoop_eq_iff hin hpos (hread ▸ hcut) (by rw [hread, hstop]; exact hsame)
    (length_malloc fresh _)
  rw [hread, hfrom, hstop] at hiff
  rwa [hread]

/-- Where the end is cut the byte in front of it is not read, and one block
has it. -/
theorem not_hashed_behind_cut (hsize : n < 2 ^ 63) (hlt : h.from_.toNat < (h.stop n).toNat)
    (hle : (h.stop n).toNat ≤ n) (hpos : 0 < h.blockSize.toNat)
    (hto : ¬(h.stop n).toNat < 2 ^ 32)
    (hblocks : ∀ src : List u8, src.length = n →
      blocksLoop (h.looped m n true []) (n + 1) (h.looped m n true []).from_ src
          (malloc (fun _ => 0) (h.looped m n true []).blockSize.toNat) =
        some (rangeBlocks src h.from_.toNat (h.stop n).toNat h.blockSize.toNat, true)) : False := by
  have hzeros := hblocks (List.replicate n 0) List.length_replicate
  have hother := hblocks ((List.replicate n 0).set ((h.stop n).toNat - 1) 1)
    (by rw [List.length_set, List.length_replicate])
  have hfrom : (h.looped m n true []).from_.toNat = h.from_.toNat % 2 ^ 32 := loopHeader_from
  have hstop : (h.looped m n true []).to_.toNat = (h.stop n).toNat % 2 ^ 32 := loopHeader_to
  have hread : (h.looped m n true []).blockSize.toNat = h.blockSize.toNat % 2 ^ 32 :=
    loopHeader_blockSize
  -- two files that differ in the byte only are read alike
  have hagree : blocksLoop (h.looped m n true []) (n + 1) (h.looped m n true []).from_
        (List.replicate n 0) (malloc (fun _ => 0) (h.looped m n true []).blockSize.toNat) =
      blocksLoop (h.looped m n true []) (n + 1) (h.looped m n true []).from_
        ((List.replicate n 0).set ((h.stop n).toNat - 1) 1)
        (malloc (fun _ => 0) (h.looped m n true []).blockSize.toNat) :=
    blocksLoop_congr (k := (h.stop n).toNat - 1)
      (loopHeader_fileSize ((toNat_size hsize).symm ▸ hsize)) (by omega) (by omega)
      (fun _ => by omega) (by rw [List.length_set]) (List.take_set_of_le (Nat.le_refl _)).symm
  rw [hagree, hother] at hzeros
  exact rangeBlocks_ne hlt hle hpos (Prod.mk.inj (Option.some.inj hzeros)).1.symm

/-- **The digests are those of the blocks of the range exactly if it is
covered.** -/
theorem hashes_range_iff (m : Machine) (h : Header) (size : ℕ) (dst : Bool) (hsize : size < 2 ^ 63)
    (hlt : h.from_.toNat < (h.stop size).toNat) (hle : (h.stop size).toNat ≤ size)
    (hbs : h.blockSize ≠ 0) : HashesRange m h size dst ↔ h.Covered size dst := by
  have hpos : 0 < h.blockSize.toNat :=
    Nat.pos_of_ne_zero fun hzero => hbs (UInt64.toNat_inj.mp hzero)
  rw [hashesRange_iff_blocks hsize hlt hle hbs]
  unfold Header.Covered
  by_cases hto : dst → (h.stop size).toNat < 2 ^ 32
  · constructor
    · rintro ⟨hblocks, hcarries⟩
      obtain ⟨hor, hfit⟩ := (blocksLoop_looped_iff hsize hlt hle hpos hto
        List.length_replicate []).mp (hblocks (fun _ => 0) (List.replicate size 0) []
          List.length_replicate)
      exact ⟨hto, hor, hfit, hcarries⟩
    · rintro ⟨-, hor, hfit, hcarries⟩
      refine ⟨fun fresh src name hsrc => ?_, hcarries⟩
      exact (blocksLoop_looped_iff hsize hlt hle hpos hto hsrc name).mpr ⟨hor, hfit⟩
  · refine iff_of_false (fun hand => ?_) fun hand => hto hand.1
    -- with a digest file, a range that ends at `2 ^ 32` or behind
    obtain ⟨rfl, hcut⟩ := Classical.not_imp.mp hto
    exact not_hashed_behind_cut hsize hlt hle hpos hcut fun src => hand.1 (fun _ => 0) src []

end Range

/-- A machine of 64 bits. -/
def lp64 : Machine := ⟨false, true, 8, Nat.le_refl 8⟩

/-- The second half of a file of 4 bytes, in the one block that it has. -/
theorem second_half_hashed :
    HashesRange lp64 (mainHeader lp64 .md5 2 4 0 8) 4 true := by
  refine (hashes_range_iff lp64 (mainHeader lp64 .md5 2 4 0 8) 4 true
    (by decide) (by decide) (by decide) (by decide)).mpr ⟨fun _ => by decide, Or.inl (by decide), ?_,
      fun _ => by decide⟩
  exact (readsFit_one (by decide) (by decide)).mpr (by decide)

/-- Nothing from elsewhere. -/
def noVendored : Vendored where
  mdfour _ := []
  crc16 _ := []
  crc32 _ := []
  entropy _ := []
  Ctx := Unit
  init _ := ()
  update _ _ _ := ()
  final _ _ := ([], ())
  sha1_final _ := rfl

/-- **The block goes on behind the range**: of 3 bytes in blocks of 2, the
second digest has the byte behind them too. -/
theorem block_behind_range :
    ¬∃ g, radareHashGenerate noVendored.hashes lp64 (fun _ => 0) () (mainHeader lp64 .xor 0 3 0 2)
        [1, 2, 3, 4] [] false = some g ∧ g.ret = 0 ∧
      g.digests = (rangeBlocks [1, 2, 3, 4] 0 3 2).map (noVendored.hashes.digest .xor) := by
  rintro ⟨g, hg, -, hdigests⟩
  obtain rfl := Option.some.inj hg
  exact absurd hdigests (by decide)

end Radare
