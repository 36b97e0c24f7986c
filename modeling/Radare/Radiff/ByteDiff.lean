import Radare.Common.Differ
import Radare.Common.Overlay
import Radare.Model.Text
/-!
# Differences of bytes

`radiff` without displacements reads two files in blocks of 4096 bytes and
prints every byte that differs: as a command that writes it (`wx`), or beside
the other with three bytes of what is around it, which a ring keeps.

The commands are a patch (`radiffBytediff_patch`), wherever the blocks end.
The differences are counted in an `int`: there is no result where it cannot.
-/

namespace Radare

open Common

/-- `BS`. -/
def diffBS : ℕ := 4096

/-- `CTXMAXB`. -/
def ctxMaxB : ℕ := 3

/-- A file, of a size that `lseek` can return. -/
structure DiffFile where
  data : List u8
  fits : data.length < 2 ^ 63

/-- What is printed and counted, and what is known of the bytes around: the ring
of those that are equal. -/
structure DiffCtx where
  bufb : List u8
  atbufb : ℕ
  k : ℕ
  outctx : ℕ
  inctx : Bool
  cf : ℕ
  /-- The lines, without the newline at their end. -/
  out : List (List u8)

/-- The blocks, and where the files stand. -/
structure DiffRead where
  block1 : List u8
  block2 : List u8
  pos1 : ℕ
  pos2 : ℕ

/-- The next place of the ring. -/
def ringNext (l : ℕ) : ℕ := if l + 1 ≥ ctxMaxB then 0 else l + 1

/-- `------`. -/
def dashLine : List u8 := List.replicate 6 45

/-- `%8.8llx %2.2x`. -/
def equalLine (off : ut64) (x : u8) : List u8 := hexText 8 off ++ 32 :: hexText 2 x.toUInt64

/-- `%8.8llx %2.2x   |   %2.2x `. -/
def bothLine (off : ut64) (x y : u8) : List u8 :=
  hexText 8 off ++ 32 :: hexText 2 x.toUInt64 ++ [32, 32, 32, 124, 32, 32, 32] ++
    hexText 2 y.toUInt64 ++ [32]

/-- `wx %02x @ 0x%llx`. -/
def wxLine (y : u8) (off : ut64) : List u8 :=
  [119, 120, 32] ++ hexText 2 y.toUInt64 ++ [32, 64, 32, 48, 120] ++ hexText 1 off

/-- The lines of the ring, from the place `l` on. -/
def ringLines (bufb : List u8) (off : ut64) (l : ℕ) : List (List u8) :=
  let at2 := ringNext l
  [equalLine (off - 3) (bufb.getD l 0), equalLine (off - 3 + 1) (bufb.getD at2 0),
    equalLine (off - 3 + 2) (bufb.getD (ringNext at2) 0)]

/-- The context in front of a difference. -/
def DiffCtx.enter (radareFmt : Bool) (off : ut64) (c : DiffCtx) : DiffCtx :=
  if c.inctx then c
  else
    { c with
      inctx := true
      k := ctxMaxB
      out := c.out ++
        if radareFmt then [] else dashLine :: ringLines c.bufb off (ringNext c.atbufb) }

/-- A byte that differs. -/
def DiffCtx.differ (radareFmt : Bool) (off : ut64) (x y : u8) (c : DiffCtx) : Option DiffCtx :=
  let c := c.enter radareFmt off
  if c.cf + 1 < 2 ^ 31 then
    some { c with
      out := c.out ++ [if radareFmt then wxLine y off else bothLine off x y]
      outctx := ctxMaxB
      cf := c.cf + 1 }
  else none

/-- A byte that does not. -/
def DiffCtx.same (radareFmt : Bool) (off : ut64) (x : u8) (c : DiffCtx) : DiffCtx :=
  let c := { c with bufb := c.bufb.set c.atbufb x, atbufb := ringNext c.atbufb }
  if 0 < c.outctx then
    { c with
      out := c.out ++
        if radareFmt then [] else [equalLine (off - 3 + UInt64.ofNat c.k) x]
      outctx := c.outctx - 1 }
  else { c with inctx := false }

/-- One round of the inner loop. -/
def diffByte (radareFmt : Bool) (off : ut64) (x y : u8) (c : DiffCtx) : Option DiffCtx :=
  if x ≠ y then c.differ radareFmt off x y else some (c.same radareFmt off x)

/-- The inner loop from `i` on. -/
def diffBlock (radareFmt : Bool) (bproc : ℕ) (block1 block2 : List u8) :
    ℕ → ℕ → DiffCtx → Option DiffCtx
  | _, 0, c => some c
  | i, n + 1, c =>
    (diffByte radareFmt (UInt64.ofNat (bproc + i)) (block1.getD i 0) (block2.getD i 0) c).bind
      (diffBlock radareFmt bproc block1 block2 (i + 1) n)

/-- `read`: what there is of the file goes over the front of the block. -/
def readBlock (file : List u8) (pos nr : ℕ) (block : List u8) : List u8 :=
  overlay block 0 ((file.drop pos).take nr)

/-- The two reads of a round. -/
def DiffRead.next (file1 file2 : List u8) (nr : ℕ) (r : DiffRead) : DiffRead where
  block1 := readBlock file1 r.pos1 nr r.block1
  block2 := readBlock file2 r.pos2 nr r.block2
  pos1 := r.pos1 + ((file1.drop r.pos1).take nr).length
  pos2 := r.pos2 + ((file2.drop r.pos2).take nr).length

/-- The length of the next block. -/
def diffNr (bytes bproc : ℕ) : ℕ := if bytes - bproc < diffBS then bytes - bproc else diffBS

theorem diffNr_bounds {bytes bproc : ℕ} (h : bproc < bytes) :
    0 < diffNr bytes bproc ∧ diffNr bytes bproc ≤ diffBS ∧
      bproc + diffNr bytes bproc ≤ bytes := by
  unfold diffNr diffBS
  split <;> omega

/-- The loop of `do_byte_diff`. -/
def diffLoop (radareFmt : Bool) (file1 file2 : List u8) (bytes bproc : ℕ) (r : DiffRead)
    (c : DiffCtx) : Option DiffCtx :=
  if _h : bproc < bytes then
    let r := r.next file1 file2 (diffNr bytes bproc)
    (diffBlock radareFmt bproc r.block1 r.block2 0 (diffNr bytes bproc) c).bind fun c =>
      diffLoop radareFmt file1 file2 bytes (bproc + diffNr bytes bproc) r c
  else some c
termination_by bytes - bproc
decreasing_by
  have := diffNr_bounds _h
  omega

/-- What lies in the arrays before anything is put there. -/
structure DiffFresh where
  block1 : List u8
  block2 : List u8
  bufb : List u8
  length1 : block1.length = diffBS
  length2 : block2.length = diffBS

/-- `do_byte_diff`, with the files at `from_`: the lines and the count. -/
def doByteDiff (radareFmt : Bool) (fresh : DiffFresh) (from_ : ℕ) (file1 file2 : List u8)
    (bytes : ℕ) : Option (List (List u8) × ℕ) :=
  (diffLoop radareFmt file1 file2 bytes from_ ⟨fresh.block1, fresh.block2, from_, from_⟩
    ⟨fresh.bufb, 0, 0, 0, false, 0, []⟩).map fun c => (c.out, c.cf)

/-- What `radiff_bytediff` prints. -/
structure DiffRun where
  out : List (List u8)
  /-- What `do_byte_diff` returns. -/
  r : ℕ
  /-- The warning that the sizes differ. -/
  warning : Bool
  /-- The message that the files are the same. -/
  same : Bool

/-- `radiff_bytediff` without `count`, on files that can be opened. -/
def radiffBytediff (radareFmt : Bool) (fresh : DiffFresh) (from_ to_ : ℕ) (a b : DiffFile) :
    Option DiffRun :=
  let size1 := a.data.length
  let size2 := b.data.length
  let sizes := if to_ ≠ 0 then if size1 > size2 then (size1, to_) else (to_, size2)
    else (size1, size2)
  (doByteDiff radareFmt fresh from_ a.data b.data
    (if sizes.1 > sizes.2 then sizes.2 else sizes.1)).map fun (out, r) =>
      ⟨out, r, size1 ≠ size2, r = 0 ∧ sizes.1 = sizes.2⟩

/-! ## The commands -/

/-- A `wx` command as it is read: the offset and the byte. -/
def wxRead (line : List u8) : Option (ℕ × u8) :=
  if line.take 3 = [119, 120, 32] ∧ (line.drop 5).take 5 = [32, 64, 32, 48, 120] then
    (hexValue ((line.drop 3).take 2)).bind fun y =>
      (hexValue (line.drop 10)).map fun off => (off.toNat, UInt8.ofNat y.toNat)
  else none

variable {fresh : DiffFresh} {a b : DiffFile} {file1 file2 : List u8} {c : DiffCtx} {off : ut64}
  {x y : u8} {i n : ℕ}

/-- **A command is read back.** -/
theorem wxRead_wxLine : wxRead (wxLine y off) = some (off.toNat, y) := by
  have hy : hexValue (hexText 2 y.toUInt64) = some y.toUInt64 :=
    hexValue_hexText (by omega) (by omega)
  have hoff : hexValue (hexText 1 off) = some off := hexValue_hexText (by omega) (by omega)
  have hback : UInt8.ofNat y.toUInt64.toNat = y := by
    rw [UInt8.toNat_toUInt64, UInt8.ofNat_toNat]
  rw [hexText_two] at hy
  rw [wxLine, wxRead, hexText_two]
  simp only [List.cons_append, List.nil_append, List.take_succ_cons, List.take_zero,
    List.drop_succ_cons, List.drop_zero, and_self, if_true, hy, hoff, Option.bind_some,
    Option.map_some, hback]

/-! ## What is printed -/

/-- So many lines more, and as many counted, where they can be counted. -/
def Shown (c : DiffCtx) (lines : List (List u8)) (o : Option DiffCtx) : Prop :=
  if c.cf + lines.length < 2 ^ 31 then
    ∃ c', o = some c' ∧ c'.out = c.out ++ lines ∧ c'.cf = c.cf + lines.length
  else o = none

/-- **One stretch behind the other.** -/
theorem Shown.bind {lines more : List (List u8)} {o : Option DiffCtx}
    {f : DiffCtx → Option DiffCtx} (h : Shown c lines o)
    (hf : ∀ c', c'.cf < 2 ^ 31 → Shown c' more (f c')) : Shown c (lines ++ more) (o.bind f) := by
  unfold Shown at h
  by_cases hlt : c.cf + lines.length < 2 ^ 31
  · rw [if_pos hlt] at h
    obtain ⟨c', rfl, hout, hcf⟩ := h
    have hnext := hf c' (by omega)
    unfold Shown at hnext ⊢
    rw [List.length_append, ← Nat.add_assoc, ← hcf]
    rw [Option.bind_some]
    by_cases hmore : c'.cf + more.length < 2 ^ 31
    · rw [if_pos hmore] at hnext ⊢
      obtain ⟨c'', heq, hout', hcf'⟩ := hnext
      exact ⟨c'', heq, by rw [hout', hout, List.append_assoc], hcf'⟩
    · rw [if_neg hmore] at hnext ⊢
      exact hnext
  · rw [if_neg hlt] at h
    have hmore : ¬c.cf + (lines ++ more).length < 2 ^ 31 := by
      rw [List.length_append]
      omega
    rw [Shown, if_neg hmore, h, Option.bind_none]

/-- Nothing is printed. -/
theorem shown_nil {c' : DiffCtx} (hcf : c.cf < 2 ^ 31) (hout : c'.out = c.out)
    (hsame : c'.cf = c.cf) : Shown c [] (some c') := by
  rw [Shown, List.length_nil, Nat.add_zero, if_pos hcf, List.append_nil]
  exact ⟨c', rfl, hout, hsame⟩

/-- In commands the context is not seen. -/
theorem enter_radareFmt (c : DiffCtx) (off : ut64) :
    (c.enter true off).out = c.out ∧ (c.enter true off).cf = c.cf := by
  rw [DiffCtx.enter]
  split
  · exact ⟨rfl, rfl⟩
  · exact ⟨List.append_nil _, rfl⟩

theorem shown_same (hcf : c.cf < 2 ^ 31) : Shown c [] (some (c.same true off x)) := by
  rw [DiffCtx.same]
  split
  · exact shown_nil hcf (List.append_nil _) rfl
  · exact shown_nil hcf rfl rfl

theorem shown_differ : Shown c [wxLine y off] (c.differ true off x y) := by
  obtain ⟨hout, hcf⟩ := enter_radareFmt c off
  rw [Shown, List.length_singleton]
  simp only [DiffCtx.differ, hcf, hout]
  by_cases hlt : c.cf + 1 < 2 ^ 31
  · rw [if_pos hlt, if_pos hlt]
    exact ⟨_, rfl, rfl, rfl⟩
  · rw [if_neg hlt, if_neg hlt]

/-- The command for a place. -/
def wxAt (file2 : List u8) (x : ℕ) : List u8 := wxLine (file2.getD x 0) (UInt64.ofNat x)

/-- **One round prints the command where the bytes differ.** -/
theorem shown_diffByte (hcf : c.cf < 2 ^ 31) :
    Shown c (if file1.getD n 0 ≠ file2.getD n 0 then [wxAt file2 n] else [])
      (diffByte true (UInt64.ofNat n) (file1.getD n 0) (file2.getD n 0) c) := by
  rw [diffByte]
  split
  · exact shown_differ
  · exact shown_same hcf

/-- The commands of a stretch. -/
def wxLines (file1 file2 : List u8) (n k : ℕ) : List (List u8) :=
  (differing 0 file1 file2 n k).map (wxAt file2)

theorem wxLines_cons :
    wxLines file1 file2 n (i + 1) =
      (if file1.getD n 0 ≠ file2.getD n 0 then [wxAt file2 n] else []) ++
        wxLines file1 file2 (n + 1) i := by
  rw [wxLines, differing_cons, List.map_append]
  split <;> rfl

/-- A block that holds a stretch of a file. -/
def HoldsPart (block file : List u8) (bproc nr : ℕ) : Prop :=
  ∀ i < nr, block.getD i 0 = file.getD (bproc + i) 0

/-- **A block**, from `i` on. -/
theorem shown_diffBlock {block1 block2 : List u8} {bproc nr : ℕ} (h1 : HoldsPart block1 file1 bproc nr)
    (h2 : HoldsPart block2 file2 bproc nr) (hcf : c.cf < 2 ^ 31) (hle : i + n ≤ nr) :
    Shown c (wxLines file1 file2 (bproc + i) n) (diffBlock true bproc block1 block2 i n c) := by
  induction n generalizing i c with
  | zero => exact shown_nil hcf rfl rfl
  | succ n ih =>
    rw [diffBlock, wxLines_cons, h1 i (by omega), h2 i (by omega)]
    exact (shown_diffByte hcf).bind fun c' hcf' => ih (i := i + 1) hcf' (by omega)

theorem holds_readBlock {file block : List u8} {pos nr : ℕ} (hle : pos + nr ≤ file.length)
    (hnr : nr ≤ block.length) : HoldsPart (readBlock file pos nr block) file pos nr := by
  intro i hi
  have hlen : ((file.drop pos).take nr).length = nr := by
    rw [List.length_take, List.length_drop]
    omega
  rw [readBlock, List.getD_eq_getElem?_getD, getElem?_overlay (by omega), if_pos (by omega),
    Nat.sub_zero, List.getElem?_take_of_lt hi, List.getElem?_drop, List.getD_eq_getElem?_getD]

/-- The files stand where the loop is. -/
structure DiffRead.At (bproc : ℕ) (r : DiffRead) : Prop where
  pos1 : r.pos1 = bproc
  pos2 : r.pos2 = bproc
  length1 : r.block1.length = diffBS
  length2 : r.block2.length = diffBS

theorem length_readBlock {file block : List u8} {pos nr : ℕ} (hnr : nr ≤ block.length) :
    (readBlock file pos nr block).length = block.length := by
  have hle : ((file.drop pos).take nr).length ≤ nr := List.length_take_le _ _
  exact length_overlay (by omega)

theorem DiffRead.At.next {r : DiffRead} {bproc nr : ℕ} (h : r.At bproc)
    (h1 : bproc + nr ≤ file1.length) (h2 : bproc + nr ≤ file2.length) (hnr : nr ≤ diffBS) :
    (r.next file1 file2 nr).At (bproc + nr) ∧
      HoldsPart (r.next file1 file2 nr).block1 file1 bproc nr ∧
      HoldsPart (r.next file1 file2 nr).block2 file2 bproc nr := by
  obtain ⟨rfl, hpos2, hlen1, hlen2⟩ := h
  refine ⟨⟨?_, ?_, ?_, ?_⟩, ?_, ?_⟩
  · show r.pos1 + ((file1.drop r.pos1).take nr).length = r.pos1 + nr
    rw [List.length_take, List.length_drop]
    omega
  · show r.pos2 + ((file2.drop r.pos2).take nr).length = r.pos1 + nr
    rw [List.length_take, List.length_drop]
    omega
  · exact (length_readBlock (by omega)).trans hlen1
  · exact (length_readBlock (by omega)).trans hlen2
  · exact holds_readBlock h1 (by omega)
  · rw [← hpos2]
    exact holds_readBlock (by omega) (by omega)

/-- **The blocks one after the other**, the last one short. -/
theorem shown_diffLoop {bytes bproc : ℕ} {r : DiffRead} (hr : r.At bproc)
    (h1 : bytes ≤ file1.length) (h2 : bytes ≤ file2.length) (hle : bproc ≤ bytes)
    (hcf : c.cf < 2 ^ 31) :
    Shown c (wxLines file1 file2 bproc (bytes - bproc))
      (diffLoop true file1 file2 bytes bproc r c) := by
  induction hk : bytes - bproc using Nat.strong_induction_on generalizing bproc r c with
  | _ k ih =>
    rw [diffLoop]
    by_cases hlt : bproc < bytes
    · rw [dif_pos hlt]
      obtain ⟨hpos, hbs, hend⟩ := diffNr_bounds hlt
      obtain ⟨nr, hnr⟩ : ∃ nr, nr = diffNr bytes bproc := ⟨_, rfl⟩
      rw [← hnr] at hpos hbs hend ⊢
      obtain ⟨hat, hblock1, hblock2⟩ := hr.next (show bproc + nr ≤ file1.length by omega)
        (show bproc + nr ≤ file2.length by omega) hbs
      have hsplit : wxLines file1 file2 bproc k =
          wxLines file1 file2 bproc nr ++ wxLines file1 file2 (bproc + nr) (k - nr) := by
        have hsum : k = nr + (k - nr) := by omega
        conv => lhs; rw [hsum]
        rw [wxLines, differing_add, List.map_append]
        rfl
      rw [hsplit]
      have hblock := shown_diffBlock (i := 0) hblock1 hblock2 hcf (show 0 + nr ≤ nr by omega)
      rw [Nat.add_zero] at hblock
      exact hblock.bind fun c' hcf' => ih (k - nr) (by omega) hat hend hcf' (by omega)
    · have hzero : k = 0 := by omega
      rw [dif_neg hlt, hzero]
      exact shown_nil hcf rfl rfl

/-! ## The patch -/

/-- How far the files are compared. -/
def diffBytes (a b : DiffFile) : ℕ := min a.data.length b.data.length

/-- The offsets, so far, where they differ. -/
def diffOffsets (a b : DiffFile) : List ℕ := differing 0 a.data b.data 0 (diffBytes a b)

theorem mem_diffOffsets {n : ℕ} :
    n ∈ diffOffsets a b ↔ n < diffBytes a b ∧ a.data.getD n 0 ≠ b.data.getD n 0 := by
  rw [diffOffsets, mem_differing]
  simp

/-- **What is run on two files**: the command for every offset where they
differ, in order, as long as an `int` counts them. -/
theorem radiffBytediff_eq :
    radiffBytediff true fresh 0 0 a b =
      if (diffOffsets a b).length < 2 ^ 31 then
        some ⟨(diffOffsets a b).map (wxAt b.data), (diffOffsets a b).length,
          a.data.length ≠ b.data.length,
          (diffOffsets a b).length = 0 ∧ a.data.length = b.data.length⟩
      else none := by
  have hbytes : (if a.data.length > b.data.length then b.data.length else a.data.length) =
      diffBytes a b := by
    unfold diffBytes
    split <;> omega
  have hat : (⟨fresh.block1, fresh.block2, 0, 0⟩ : DiffRead).At 0 :=
    ⟨rfl, rfl, fresh.length1, fresh.length2⟩
  have hloop := shown_diffLoop (c := ⟨fresh.bufb, 0, 0, 0, false, 0, []⟩) hat
    (Nat.min_le_left a.data.length b.data.length) (Nat.min_le_right a.data.length b.data.length)
    (Nat.zero_le _) (show 0 < 2 ^ 31 by omega)
  have hlines : wxLines a.data b.data 0 (diffBytes a b - 0) = (diffOffsets a b).map (wxAt b.data) :=
    rfl
  change Shown _ (wxLines a.data b.data 0 (diffBytes a b - 0)) _ at hloop
  rw [hlines, Shown, List.length_map, Nat.zero_add] at hloop
  simp only [radiffBytediff, doByteDiff, ne_eq, not_true_eq_false, if_false, hbytes]
  by_cases hlt : (diffOffsets a b).length < 2 ^ 31
  · rw [if_pos hlt] at hloop ⊢
    obtain ⟨c', heq, hout, hcf⟩ := hloop
    change diffLoop true a.data b.data (diffBytes a b) 0 _ _ = some c' at heq
    rw [heq, Option.map_some, Option.map_some, hout, hcf, List.nil_append]
  · rw [if_neg hlt] at hloop ⊢
    change diffLoop true a.data b.data (diffBytes a b) 0 _ _ = none at hloop
    rw [hloop, Option.map_none, Option.map_none]

/-- The commands name their offsets and have the bytes of the second file. -/
theorem mapM_wxRead {file : List u8} {offs : List ℕ} (h : ∀ n ∈ offs, n < 2 ^ 64) :
    (offs.map (wxAt file)).mapM wxRead = some (offs.map fun n => (n, file.getD n 0)) := by
  induction offs with
  | nil => rfl
  | cons n offs ih =>
    have hn : (UInt64.ofNat n).toNat = n := UInt64.toNat_ofNat_of_lt' (h n List.mem_cons_self)
    rw [List.map_cons, List.mapM_cons, ih fun m hm => h m (List.mem_cons_of_mem n hm), wxAt,
      wxRead_wxLine, hn]
    rfl

/-- **A byte diff is a patch**: applied to the first file the commands make it
equal to the second as far as both go, each differing offset is printed once
and the count is theirs, exactly when there are not more than an `int` counts. -/
theorem radiffBytediff_patch (fresh : DiffFresh) (a b : DiffFile) :
    (∃ run ps, radiffBytediff true fresh 0 0 a b = some run ∧ run.out.mapM wxRead = some ps ∧
      (putEach a.data ps).take (diffBytes a b) = b.data.take (diffBytes a b) ∧
      (ps.map Prod.fst).Nodup ∧ (∀ n, n ∈ ps.map Prod.fst ↔ n ∈ diffOffsets a b) ∧
      run.r = (diffOffsets a b).length) ↔ (diffOffsets a b).length < 2 ^ 31 := by
  rw [radiffBytediff_eq]
  by_cases hlt : (diffOffsets a b).length < 2 ^ 31
  · rw [if_pos hlt]
    refine iff_of_true ⟨_, (diffOffsets a b).map fun n => (n, b.data.getD n 0), rfl, ?_, ?_, ?_,
      ?_, rfl⟩ hlt
    · refine mapM_wxRead fun n hn => ?_
      have hsize := a.fits
      have hin := (mem_diffOffsets.mp hn).1
      have hle : diffBytes a b ≤ a.data.length := Nat.min_le_left _ _
      omega
    · have hput := putEach_differing (d := 0) (Nat.min_le_left a.data.length b.data.length)
        (Nat.min_le_right a.data.length b.data.length)
      change putEach a.data ((diffOffsets a b).map fun n => (n, b.data.getD n 0)) =
        b.data.take (diffBytes a b) ++ a.data.drop (diffBytes a b) at hput
      have hfront : (b.data.take (diffBytes a b)).length = diffBytes a b :=
        List.length_take_of_le (Nat.min_le_right _ _)
      rw [hput, List.take_append_of_le_length (by omega), List.take_of_length_le (by omega)]
    · rw [List.map_map]
      exact (List.map_id (diffOffsets a b)).symm ▸ nodup_differing
    · intro n
      rw [List.map_map]
      exact iff_of_eq (congrArg (n ∈ ·) (List.map_id (diffOffsets a b)))
  · rw [if_neg hlt]
    refine iff_of_false ?_ hlt
    rintro ⟨run, ps, h, -⟩
    cases h

theorem length_filled (v : u8) : (List.replicate (2 ^ 31) v).length < 2 ^ 63 := by
  rw [List.length_replicate]
  omega

/-- Two gigabytes of one value. -/
def filledFile (v : u8) : DiffFile := ⟨List.replicate (2 ^ 31) v, length_filled v⟩

/-- Arrays of zeros. -/
def zeroFresh : DiffFresh :=
  ⟨List.replicate diffBS 0, List.replicate diffBS 0, List.replicate ctxMaxB 0,
    List.length_replicate, List.length_replicate⟩

theorem getD_filledFile {v : u8} {n : ℕ} (hn : n < 2 ^ 31) : (filledFile v).data.getD n 0 = v := by
  rw [filledFile, List.getD_eq_getElem?_getD, List.getElem?_replicate_of_lt hn, Option.getD_some]

theorem length_diffOffsets_filled :
    (diffOffsets (filledFile 0) (filledFile 1)).length = 2 ^ 31 := by
  have hbytes : diffBytes (filledFile 0) (filledFile 1) = 2 ^ 31 := by
    rw [diffBytes, filledFile, filledFile, List.length_replicate, List.length_replicate,
      Nat.min_self]
  have hall : ∀ n ∈ List.range' 0 (2 ^ 31),
      decide ((filledFile 0).data.getD n 0 ≠ (filledFile 1).data.getD n 0) = true := by
    intro n hn
    have hlt : n < 2 ^ 31 := by
      have := (List.mem_range'_1.mp hn).2
      omega
    rw [getD_filledFile hlt, getD_filledFile hlt]
    decide
  rw [diffOffsets, hbytes, differing, List.filter_eq_self.mpr hall, List.length_range']

/-- No count is returned of two gigabytes that all differ. -/
theorem filled_not_counted :
    ¬∃ run ps, radiffBytediff true zeroFresh 0 0 (filledFile 0) (filledFile 1) = some run ∧
      run.out.mapM wxRead = some ps ∧
      (putEach (filledFile 0).data ps).take (diffBytes (filledFile 0) (filledFile 1)) =
        (filledFile 1).data.take (diffBytes (filledFile 0) (filledFile 1)) ∧
      (ps.map Prod.fst).Nodup ∧
      (∀ n, n ∈ ps.map Prod.fst ↔ n ∈ diffOffsets (filledFile 0) (filledFile 1)) ∧
      run.r = (diffOffsets (filledFile 0) (filledFile 1)).length := by
  rintro ⟨run, ps, h, -⟩
  have hmany : ¬(diffOffsets (filledFile 0) (filledFile 1)).length < 2 ^ 31 := by
    rw [length_diffOffsets_filled]
    omega
  rw [radiffBytediff_eq, if_neg hmany] at h
  cases h

end Radare
