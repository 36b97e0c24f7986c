import Radare.Radiff.ByteDiff
/-!
# Counting the differences of bytes

With `count`, `radiff_bytediff` prints only how many bytes differ. `do_byte_diff_count` goes
over as many bytes as there are in front of the bound, but from `from` on, so it reads on
behind the bound, and behind the end of a file the block keeps what it held
(`heldByte`).

So it counts what the other mode lists just where nothing differs there
(`radiffBytediff_count_iff`).
-/

namespace Radare

open Common

/-- `count ++`, of an `int`. -/
def countUp (count : ℕ) : Option ℕ := if count + 1 < 2 ^ 31 then some (count + 1) else none

/-- The inner loop of `do_byte_diff_count` from `i` on. -/
def diffCountBlock (block1 block2 : List u8) : ℕ → ℕ → ℕ → Option ℕ
  | _, 0, count => some count
  | i, n + 1, count =>
    (if block1.getD i 0 ≠ block2.getD i 0 then countUp count else some count).bind
      (diffCountBlock block1 block2 (i + 1) n)

/-- The loop of `do_byte_diff_count`. -/
def diffCountLoop (file1 file2 : List u8) (bytes bproc : ℕ) (r : DiffRead) (count : ℕ) :
    Option ℕ :=
  if _h : bproc < bytes then
    let r := r.next file1 file2 (diffNr bytes bproc)
    (diffCountBlock r.block1 r.block2 0 (diffNr bytes bproc) count).bind fun count =>
      diffCountLoop file1 file2 bytes (bproc + diffNr bytes bproc) r count
  else some count
termination_by bytes - bproc
decreasing_by
  have := diffNr_bounds _h
  omega

/-- `do_byte_diff_count`, with the files at `from_`: what is printed and returned. -/
def doByteDiffCount (fresh : DiffFresh) (from_ : ℕ) (file1 file2 : List u8) (bytes : ℕ) :
    Option (List (List u8) × ℕ) :=
  (diffCountLoop file1 file2 bytes 0 ⟨fresh.block1, fresh.block2, from_, from_⟩ 0).map
    fun count => ([decText 0 count], count)

/-- `radiff_bytediff` with `count`, on files that can be opened. -/
def radiffBytediffCount (fresh : DiffFresh) (from_ to_ : ℕ) (a b : DiffFile) : Option DiffRun :=
  let size1 := a.data.length
  let size2 := b.data.length
  let sizes := if to_ ≠ 0 then if size1 > size2 then (size1, to_) else (to_, size2)
    else (size1, size2)
  (doByteDiffCount fresh from_ a.data b.data
    (if sizes.1 > sizes.2 then sizes.2 else sizes.1)).map fun (out, r) =>
      ⟨out, r, size1 ≠ size2, r = 0 ∧ sizes.1 = sizes.2⟩

/-! ## What the blocks hold -/

/-- A byte of a block after so many reads of it, the file at `from_` at first. -/
def heldByte (file block : List u8) (from_ i : ℕ) : ℕ → u8
  | 0 => block.getD i 0
  | q + 1 =>
    if from_ + diffBS * q + i < file.length then file.getD (from_ + diffBS * q + i) 0
    else heldByte file block from_ i q

/-- The byte that is compared, so far behind `from_`. -/
def comparedByte (file block : List u8) (from_ j : ℕ) : u8 :=
  heldByte file block from_ (j % diffBS) (j / diffBS + 1)

variable {file block file1 file2 : List u8} {from_ bytes bproc nr q i j n k count : ℕ}
  {r : DiffRead} {fresh : DiffFresh} {a b : DiffFile}

/-- In the file it is the byte of the file. -/
theorem comparedByte_of_lt (hlt : from_ + j < file.length) :
    comparedByte file block from_ j = file.getD (from_ + j) 0 := by
  have hj : from_ + diffBS * (j / diffBS) + j % diffBS = from_ + j := by
    rw [Nat.add_assoc, Nat.div_add_mod]
  rw [comparedByte, heldByte, hj, if_pos hlt]

/-- A block that holds what is compared. -/
def HoldsCompared (file fresh : List u8) (from_ bproc nr : ℕ) (block : List u8) : Prop :=
  ∀ i < nr, block.getD i 0 = comparedByte file fresh from_ (bproc + i)

/-- A file and its block after so many full reads. -/
structure Standing (file fresh : List u8) (from_ q : ℕ) (block : List u8) (pos : ℕ) : Prop where
  pos : pos = min (from_ + diffBS * q) file.length
  length : block.length = diffBS
  held : ∀ i < diffBS, block.getD i 0 = heldByte file fresh from_ i q

/-- **A read**: what is compared then, and where it stands if the read was full. -/
theorem Standing.read {old : List u8} {pos : ℕ} (h : Standing file old from_ q block pos)
    (hnr : nr ≤ diffBS) :
    HoldsCompared file old from_ (diffBS * q) nr (readBlock file pos nr block) ∧
      (nr = diffBS → Standing file old from_ (q + 1) (readBlock file pos nr block)
        (pos + ((file.drop pos).take nr).length)) := by
  obtain ⟨hpos, hlength, hheld⟩ := h
  have hgot : ((file.drop pos).take nr).length = min nr (file.length - pos) := by
    rw [List.length_take, List.length_drop]
  have hread : ∀ i < nr,
      (readBlock file pos nr block).getD i 0 = heldByte file old from_ i (q + 1) := by
    intro i hi
    rw [readBlock, List.getD_eq_getElem?_getD, getElem?_overlay (by omega), heldByte]
    by_cases hin : from_ + diffBS * q + i < file.length
    · have hat : pos = from_ + diffBS * q := by omega
      rw [if_pos (by omega), if_pos hin, Nat.sub_zero, List.getElem?_take_of_lt hi,
        List.getElem?_drop, hat, List.getD_eq_getElem?_getD]
    · rw [if_neg (by omega), if_neg hin, ← hheld i (by omega), List.getD_eq_getElem?_getD]
  refine ⟨fun i hi => ?_, ?_⟩
  · rw [comparedByte, Nat.mul_add_mod, Nat.mod_eq_of_lt (by omega), Nat.mul_add_div (by omega),
      Nat.div_eq_of_lt (by omega)]
    exact hread i hi
  · rintro rfl
    refine ⟨?_, (length_readBlock (by omega)).trans hlength, hread⟩
    rw [hgot, Nat.mul_succ]
    omega

/-! ## What is counted -/

/-- So much more, where an `int` counts it. -/
def addCount (count k : ℕ) : Option ℕ := if count + k < 2 ^ 31 then some (count + k) else none

theorem addCount_bind :
    (addCount count k).bind (fun c => addCount c n) = addCount count (k + n) := by
  unfold addCount
  by_cases hk : count + k < 2 ^ 31
  · rw [if_pos hk, Option.bind_some, Nat.add_assoc]
  · rw [if_neg hk, Option.bind_none, if_neg (by omega)]

theorem addCount_zero (hcount : count < 2 ^ 31) : addCount count 0 = some count := if_pos hcount

theorem addCount_eq_some : addCount count k = some n ↔ count + k < 2 ^ 31 ∧ n = count + k := by
  rw [addCount, Option.ite_none_right_eq_some, Option.some.injEq, eq_comm (b := n)]

/-- What is counted is less than `2 ^ 31`. -/
theorem lt_of_addCount (h : addCount count k = some n) : n < 2 ^ 31 := by
  obtain ⟨hlt, rfl⟩ := addCount_eq_some.mp h
  exact hlt

/-- The places from `n` on, so many behind `from_`, where what is compared differs. -/
def countedAt (a b : DiffFile) (fresh : DiffFresh) (from_ n k : ℕ) : List ℕ :=
  (List.range' n k).filter fun j =>
    comparedByte a.data fresh.block1 from_ j ≠ comparedByte b.data fresh.block2 from_ j

theorem mem_countedAt : j ∈ countedAt a b fresh from_ n k ↔ (n ≤ j ∧ j < n + k) ∧
    comparedByte a.data fresh.block1 from_ j ≠ comparedByte b.data fresh.block2 from_ j := by
  rw [countedAt, List.mem_filter, List.mem_range'_1, decide_eq_true_iff]

theorem length_countedAt_cons : (countedAt a b fresh from_ n (k + 1)).length =
    (if comparedByte a.data fresh.block1 from_ n ≠ comparedByte b.data fresh.block2 from_ n then 1
      else 0) + (countedAt a b fresh from_ (n + 1) k).length := by
  rw [countedAt, List.range'_succ, List.filter_cons]
  simp only [decide_eq_true_eq]
  split_ifs
  · rw [List.length_cons, Nat.add_comm]
    rfl
  · rw [Nat.zero_add]
    rfl

theorem countedAt_add (m : ℕ) :
    countedAt a b fresh from_ n (k + m) =
      countedAt a b fresh from_ n k ++ countedAt a b fresh from_ (n + k) m := by
  rw [countedAt, ← List.range'_append_1, List.filter_append]
  rfl

/-- **A block**, from `i` on. -/
theorem diffCountBlock_eq {block1 block2 : List u8}
    (h1 : HoldsCompared a.data fresh.block1 from_ bproc nr block1)
    (h2 : HoldsCompared b.data fresh.block2 from_ bproc nr block2) (hcount : count < 2 ^ 31)
    (hle : i + n ≤ nr) :
    diffCountBlock block1 block2 i n count =
      addCount count (countedAt a b fresh from_ (bproc + i) n).length := by
  induction n generalizing i count with
  | zero => exact (addCount_zero hcount).symm
  | succ n ih =>
    have hstep : (if block1.getD i 0 ≠ block2.getD i 0 then countUp count else some count) =
        addCount count (if block1.getD i 0 ≠ block2.getD i 0 then 1 else 0) := by
      split_ifs
      · rfl
      · exact (addCount_zero hcount).symm
    rw [diffCountBlock, hstep, length_countedAt_cons, ← h1 i (by omega), ← h2 i (by omega),
      ← addCount_bind]
    refine Option.bind_congr fun c hc => ?_
    exact ih (lt_of_addCount hc) (by omega)

/-- **The blocks one after the other.** -/
theorem diffCountLoop_eq
    (h1 : bproc < bytes → Standing a.data fresh.block1 from_ q r.block1 r.pos1)
    (h2 : bproc < bytes → Standing b.data fresh.block2 from_ q r.block2 r.pos2)
    (hq : bproc < bytes → bproc = diffBS * q) (hcount : count < 2 ^ 31) :
    diffCountLoop a.data b.data bytes bproc r count =
      addCount count (countedAt a b fresh from_ bproc (bytes - bproc)).length := by
  induction hk : bytes - bproc using Nat.strong_induction_on generalizing bproc q r count with
  | _ k ih =>
    rw [diffCountLoop]
    by_cases hlt : bproc < bytes
    · rw [dif_pos hlt]
      obtain ⟨hpos, hbs, hend⟩ := diffNr_bounds hlt
      have hnext : bproc + diffNr bytes bproc < bytes → diffNr bytes bproc = diffBS := by
        unfold diffNr
        split <;> omega
      obtain ⟨nr, hnr⟩ : ∃ nr, nr = diffNr bytes bproc := ⟨_, rfl⟩
      rw [← hnr] at hpos hbs hend hnext ⊢
      have hbproc := hq hlt
      obtain ⟨hread1, hfull1⟩ := (h1 hlt).read hbs
      obtain ⟨hread2, hfull2⟩ := (h2 hlt).read hbs
      rw [← hbproc] at hread1 hread2
      have hsum : k = nr + (k - nr) := by omega
      conv => rhs; rw [hsum]
      rw [countedAt_add, List.length_append, ← addCount_bind]
      have hblock := diffCountBlock_eq (i := 0) hread1 hread2 hcount (show 0 + nr ≤ nr by omega)
      rw [Nat.add_zero] at hblock
      change (diffCountBlock (readBlock a.data r.pos1 nr r.block1)
        (readBlock b.data r.pos2 nr r.block2) 0 nr count).bind _ = _
      rw [hblock]
      refine Option.bind_congr fun c hc => ?_
      refine ih (k - nr) (by omega) (q := q + 1) (fun h => hfull1 (hnext h))
        (fun h => hfull2 (hnext h)) (fun h => ?_) (lt_of_addCount hc) (by omega)
      rw [hnext h, hbproc, Nat.mul_succ]
    · have hzero : k = 0 := by omega
      rw [dif_neg hlt, hzero]
      exact (addCount_zero hcount).symm

/-- How far it goes is all that the bound says. -/
theorem diffCountLoop_sub (hk : k ≤ bproc) (hle : bproc ≤ bytes) :
    diffCountLoop file1 file2 bytes bproc r count =
      diffCountLoop file1 file2 (bytes - k) (bproc - k) r count := by
  induction hd : bytes - bproc using Nat.strong_induction_on generalizing bproc r count with
  | _ d ih =>
    conv_lhs => rw [diffCountLoop]
    conv_rhs => rw [diffCountLoop]
    have hnr : diffNr (bytes - k) (bproc - k) = diffNr bytes bproc := by
      have hsub : bytes - k - (bproc - k) = bytes - bproc := by omega
      unfold diffNr
      rw [hsub]
    by_cases hlt : bproc < bytes
    · obtain ⟨hpos, hbs, hend⟩ := diffNr_bounds hlt
      have hnext : bproc + diffNr bytes bproc - k = bproc - k + diffNr bytes bproc := by omega
      rw [dif_pos hlt, dif_pos (show bproc - k < bytes - k by omega), hnr]
      refine Option.bind_congr fun c _ => ?_
      rw [← hnext]
      exact ih (bytes - (bproc + diffNr bytes bproc)) (by omega) (by omega) hend rfl
    · rw [dif_neg hlt, dif_neg (by omega)]

/-! ## What is listed -/

variable {radareFmt : Bool} {off : ut64} {x y : u8} {c c' : DiffCtx}

/-- **The lists count as `do_byte_diff_count` does**, from where they start. -/
theorem cf_diffByte (radareFmt : Bool) :
    (diffByte radareFmt off x y c).map (·.cf) = if x ≠ y then countUp c.cf else some c.cf := by
  rw [diffByte]
  split_ifs with hxy
  · have hcf : (c.enter radareFmt off).cf = c.cf := by
      rw [DiffCtx.enter]
      split_ifs <;> rfl
    rw [DiffCtx.differ, countUp]
    simp only [hcf]
    split_ifs <;> rfl
  · rw [Option.map_some, DiffCtx.same]
    split_ifs <;> rfl

theorem cf_diffBlock (radareFmt : Bool) (bproc : ℕ) {block1 block2 : List u8} :
    (diffBlock radareFmt bproc block1 block2 i n c).map (·.cf) =
      diffCountBlock block1 block2 i n c.cf := by
  induction n generalizing i c with
  | zero => rfl
  | succ n ih =>
    rw [diffBlock, diffCountBlock, ← cf_diffByte radareFmt, Option.map_bind,
      Option.bind_map]
    exact Option.bind_congr fun c _ => ih

theorem cf_diffLoop (radareFmt : Bool) :
    (diffLoop radareFmt file1 file2 bytes bproc r c).map (·.cf) =
      diffCountLoop file1 file2 bytes bproc r c.cf := by
  induction hd : bytes - bproc using Nat.strong_induction_on generalizing bproc r c with
  | _ d ih =>
    rw [diffLoop, diffCountLoop]
    by_cases hlt : bproc < bytes
    · obtain ⟨hpos, hbs, hend⟩ := diffNr_bounds hlt
      rw [dif_pos hlt, dif_pos hlt]
      dsimp only
      rw [← cf_diffBlock radareFmt bproc, Option.map_bind, Option.bind_map]
      exact Option.bind_congr fun c _ => ih _ (by omega) rfl
    · rw [dif_neg hlt, dif_neg hlt]
      rfl

/-- A line that shows a difference: a command, or both bytes with a bar. -/
def showsDifference (radareFmt : Bool) (line : List u8) : Bool :=
  if radareFmt then line.head? = some 119 else 124 ∈ line

/-- How many differences the lines show. -/
def listedDiffs (radareFmt : Bool) (out : List (List u8)) : ℕ :=
  out.countP (showsDifference radareFmt)

theorem listedDiffs_append (out more : List (List u8)) :
    listedDiffs radareFmt (out ++ more) = listedDiffs radareFmt out + listedDiffs radareFmt more :=
  List.countP_append

theorem bar_not_mem_hexText {w : ℕ} {m : ut64} : 124 ∉ hexText w m := by
  intro h
  obtain ⟨-, hle⟩ | ⟨-, hle⟩ := of_mem_hexText h <;> exact absurd hle (by decide)

theorem bar_not_mem_equalLine : 124 ∉ equalLine off x := by
  rw [equalLine, List.mem_append, List.mem_cons]
  rintro (h | h | h)
  · exact bar_not_mem_hexText h
  · exact absurd h (by decide)
  · exact bar_not_mem_hexText h

/-- What is around a difference shows none. -/
theorem listed_around {lines : List (List u8)} (h : ∀ line ∈ lines, 124 ∉ line) :
    listedDiffs radareFmt (if radareFmt then [] else lines) = 0 := by
  cases radareFmt with
  | true => rfl
  | false =>
    exact List.countP_eq_zero.mpr fun line hline hbar => h line hline (of_decide_eq_true hbar)

theorem listed_difference :
    listedDiffs radareFmt [if radareFmt then wxLine y off else bothLine off x y] = 1 := by
  cases radareFmt with
  | true => rfl
  | false =>
    have hbar : (124 : u8) ∈ bothLine off x y := by simp [bothLine]
    exact List.countP_eq_length.mpr fun line hline => by
      rw [List.mem_singleton.mp hline]
      exact decide_eq_true hbar

/-- What is counted is listed. -/
def Tallied (radareFmt : Bool) (c : DiffCtx) : Prop := listedDiffs radareFmt c.out = c.cf

theorem Tallied.enter (h : Tallied radareFmt c) : Tallied radareFmt (c.enter radareFmt off) := by
  rw [DiffCtx.enter]
  split
  · exact h
  · have hring : ∀ line ∈ dashLine :: ringLines c.bufb off (ringNext c.atbufb), 124 ∉ line := by
      intro line hline
      obtain rfl | hline := List.mem_cons.mp hline
      · decide
      · simp only [ringLines, List.mem_cons, List.not_mem_nil, or_false] at hline
        obtain rfl | rfl | rfl := hline <;> exact bar_not_mem_equalLine
    exact ((listedDiffs_append ..).trans (congrArg _ (listed_around hring))).trans h

theorem Tallied.diffByte (h : Tallied radareFmt c)
    (hrun : diffByte radareFmt off x y c = some c') : Tallied radareFmt c' := by
  rw [Radare.diffByte] at hrun
  split at hrun
  · rw [DiffCtx.differ] at hrun
    split at hrun
    · obtain rfl := Option.some.inj hrun
      exact (listedDiffs_append ..).trans (congrArg₂ (· + ·) h.enter listed_difference)
    · exact absurd hrun.symm (Option.some_ne_none _)
  · obtain rfl := Option.some.inj hrun
    rw [DiffCtx.same]
    split
    · exact ((listedDiffs_append ..).trans (congrArg _ (listed_around fun line hline =>
        List.mem_singleton.mp hline ▸ bar_not_mem_equalLine))).trans h
    · exact h

theorem Tallied.diffBlock {block1 block2 : List u8} (h : Tallied radareFmt c)
    (hrun : diffBlock radareFmt bproc block1 block2 i n c = some c') : Tallied radareFmt c' := by
  induction n generalizing i c with
  | zero => exact Option.some.inj hrun ▸ h
  | succ n ih =>
    obtain ⟨c₁, hbyte, hrun⟩ := Option.bind_eq_some_iff.mp hrun
    exact ih (h.diffByte hbyte) hrun

theorem Tallied.diffLoop (h : Tallied radareFmt c)
    (hrun : diffLoop radareFmt file1 file2 bytes bproc r c = some c') : Tallied radareFmt c' := by
  induction hd : bytes - bproc using Nat.strong_induction_on generalizing bproc r c with
  | _ d ih =>
    rw [Radare.diffLoop] at hrun
    by_cases hlt : bproc < bytes
    · obtain ⟨hpos, hbs, hend⟩ := diffNr_bounds hlt
      rw [dif_pos hlt] at hrun
      obtain ⟨c₁, hblock, hrun⟩ := Option.bind_eq_some_iff.mp hrun
      exact ih _ (by omega) (h.diffBlock hblock) hrun rfl
    · rw [dif_neg hlt] at hrun
      exact Option.some.inj hrun ▸ h

/-! ## Both modes -/

/-- A number is known by its text. -/
theorem value_decText {m : ℕ} (hm : m < 10 ^ 20) :
    value 10 ((decText 0 m).map fun c => c.toNat - 48) = m := by
  have hdigit : ∀ d : Fin 10, (digitChar d).toNat - 48 = d.val := by decide
  have hds : ∀ d ∈ padded 0 (digits 10 20 m), (digitChar d).toNat - 48 = d := fun d hd =>
    hdigit ⟨d, lt_of_mem_padded (by omega) hd⟩
  rw [decText, List.map_map]
  change value 10 (List.map (fun d => (digitChar d).toNat - 48) _) = m
  rw [List.map_congr_left hds, List.map_id', value_padded hm]

/-- How far the files are compared, with `to`. -/
def diffBound (to_ : ℕ) (a b : DiffFile) : ℕ :=
  if to_ = 0 then diffBytes a b else min (diffBytes a b) to_

/-- The offsets from `from` up to there where the files differ. -/
def diffOffsetsIn (from_ to_ : ℕ) (a b : DiffFile) : List ℕ :=
  differing 0 a.data b.data from_ (diffBound to_ a b - from_)

/-- The number of these is printed, and they are listed in the other mode. -/
def CountAgrees (radareFmt : Bool) (fresh fresh' : DiffFresh) (from_ to_ : ℕ) (a b : DiffFile) :
    Prop :=
  (∃ run, radiffBytediffCount fresh from_ to_ a b = some run ∧
    run.out = [decText 0 (diffOffsetsIn from_ to_ a b).length]) ∧
  ∃ run, radiffBytediff radareFmt fresh' from_ to_ a b = some run ∧
    listedDiffs radareFmt run.out = (diffOffsetsIn from_ to_ a b).length

/-- An `int` counts them, and behind the bound nothing differs that is compared up to `from`
bytes further on. -/
def CountSafe (fresh : DiffFresh) (from_ to_ : ℕ) (a b : DiffFile) : Prop :=
  (diffOffsetsIn from_ to_ a b).length < 2 ^ 31 ∧
    ∀ j < diffBound to_ a b, diffBound to_ a b ≤ from_ + j →
      comparedByte a.data fresh.block1 from_ j = comparedByte b.data fresh.block2 from_ j

section Bounds

variable {to_ : ℕ} {fresh' : DiffFresh}

/-- The bound that `to` gives, within the files. -/
theorem diffSizes_eq (hto : to_ ≤ diffBytes a b) :
    let sizes := if to_ ≠ 0 then
        if a.data.length > b.data.length then (a.data.length, to_) else (to_, b.data.length)
      else (a.data.length, b.data.length)
    (if sizes.1 > sizes.2 then sizes.2 else sizes.1) = diffBound to_ a b := by
  unfold diffBound diffBytes at *
  by_cases hzero : to_ = 0
  · simp only [hzero, ne_eq, not_true_eq_false, if_false, if_true]
    split <;> omega
  · by_cases hsize : a.data.length > b.data.length
    · simp only [hzero, hsize, ne_eq, not_false_eq_true, if_true, if_false]
      split <;> omega
    · simp only [hzero, hsize, ne_eq, not_false_eq_true, if_true, if_false]
      split <;> omega

theorem standing_fresh (hfrom : from_ ≤ file.length) (hlength : block.length = diffBS) :
    Standing file block from_ 0 block from_ :=
  ⟨by omega, hlength, fun _ _ => rfl⟩

/-- From the first block on. -/
theorem diffCountLoop_start (fresh : DiffFresh) (hfrom : from_ ≤ diffBytes a b) :
    diffCountLoop a.data b.data bytes 0 ⟨fresh.block1, fresh.block2, from_, from_⟩ 0 =
      addCount 0 (countedAt a b fresh from_ 0 bytes).length := by
  have hle : diffBytes a b ≤ a.data.length ∧ diffBytes a b ≤ b.data.length :=
    ⟨Nat.min_le_left .., Nat.min_le_right ..⟩
  exact diffCountLoop_eq (q := 0) (fun _ => standing_fresh (by omega) fresh.length1)
    (fun _ => standing_fresh (by omega) fresh.length2) (fun _ => rfl) (by omega)

/-- So far behind `from_` as the files go, what is compared is theirs. -/
theorem length_countedAt_front (hk : from_ + k ≤ diffBytes a b) :
    (countedAt a b fresh from_ 0 k).length = (differing 0 a.data b.data from_ k).length := by
  have hle : diffBytes a b ≤ a.data.length ∧ diffBytes a b ≤ b.data.length :=
    ⟨Nat.min_le_left .., Nat.min_le_right ..⟩
  have hsame : ∀ j ∈ List.range' 0 k,
      (decide (comparedByte a.data fresh.block1 from_ j ≠ comparedByte b.data fresh.block2 from_ j))
        = decide (a.data.getD (from_ + j) 0 ≠ b.data.getD (from_ + j) 0) := by
    intro j hj
    have hlt := (List.mem_range'_1.mp hj).2
    rw [comparedByte_of_lt (by omega), comparedByte_of_lt (by omega)]
  have hrange : List.range' from_ k = (List.range' 0 k).map (from_ + ·) := by
    rw [List.map_add_range', Nat.add_zero]
  rw [countedAt, List.filter_congr hsame, differing, hrange, List.filter_map, List.length_map]
  rfl

/-- **In count mode** as many are counted as are compared from `from` on. -/
theorem radiffBytediffCount_eq (fresh : DiffFresh) (hfrom : from_ ≤ diffBytes a b)
    (hto : to_ ≤ diffBytes a b) :
    (radiffBytediffCount fresh from_ to_ a b).map (·.out) =
      (addCount 0 (countedAt a b fresh from_ 0 (diffBound to_ a b)).length).map
        fun n => [decText 0 n] := by
  rw [radiffBytediffCount]
  dsimp only
  rw [diffSizes_eq hto, doByteDiffCount, diffCountLoop_start fresh hfrom, Option.map_map,
    Option.map_map]
  rfl

/-- **In the other mode** the offsets up to the bound are listed where they differ. -/
theorem listed_radiffBytediff (radareFmt : Bool) (fresh : DiffFresh) (from_ : ℕ)
    (hto : to_ ≤ diffBytes a b) :
    (radiffBytediff radareFmt fresh from_ to_ a b).map (fun run => listedDiffs radareFmt run.out) =
      addCount 0 (diffOffsetsIn from_ to_ a b).length := by
  have hbound : diffBound to_ a b ≤ diffBytes a b := by
    unfold diffBound
    split <;> omega
  have hcount : diffCountLoop a.data b.data (diffBound to_ a b) from_
      ⟨fresh.block1, fresh.block2, from_, from_⟩ 0 =
        addCount 0 (diffOffsetsIn from_ to_ a b).length := by
    by_cases hlt : from_ ≤ diffBound to_ a b
    · rw [diffCountLoop_sub le_rfl hlt, Nat.sub_self]
      rw [diffCountLoop_start fresh (by omega), length_countedAt_front (by omega)]
      rfl
    · have hnone : diffBound to_ a b - from_ = 0 := by omega
      rw [diffCountLoop, dif_neg (by omega), diffOffsetsIn, hnone]
      rfl
  rw [← hcount, ← cf_diffLoop radareFmt (c := ⟨fresh.bufb, 0, 0, 0, false, 0, []⟩),
    radiffBytediff]
  dsimp only
  rw [diffSizes_eq hto, doByteDiff, Option.map_map, Option.map_map]
  refine Option.map_congr fun c hc => ?_
  have htallied : Tallied radareFmt ⟨fresh.bufb, 0, 0, 0, false, 0, []⟩ := rfl
  exact htallied.diffLoop hc

/-- What is counted behind the bound. -/
theorem length_countedAt (hto : to_ ≤ diffBytes a b) :
    (countedAt a b fresh from_ 0 (diffBound to_ a b)).length =
      (diffOffsetsIn from_ to_ a b).length + (countedAt a b fresh from_ (diffBound to_ a b - from_)
        (diffBound to_ a b - (diffBound to_ a b - from_))).length := by
  have hbound : diffBound to_ a b ≤ diffBytes a b := by
    unfold diffBound
    split <;> omega
  obtain ⟨n, hn⟩ : ∃ n, n = diffBound to_ a b := ⟨_, rfl⟩
  rw [diffOffsetsIn]
  rw [← hn] at hbound ⊢
  have hsum : n = n - from_ + (n - (n - from_)) := by omega
  conv_lhs => rw [hsum]
  rw [countedAt_add, List.length_append, Nat.zero_add]
  by_cases hlt : from_ ≤ n
  · rw [length_countedAt_front (by omega)]
  · have hnone : n - from_ = 0 := by omega
    rw [hnone]
    rfl

/-- **The counts agree just where an `int` counts the differences and nothing differs in what
is compared behind the bound.** -/
theorem radiffBytediff_count_iff (radareFmt : Bool) (fresh fresh' : DiffFresh) (from_ to_ : ℕ)
    (a b : DiffFile) (hfrom : from_ ≤ diffBytes a b) (hto : to_ ≤ diffBytes a b) :
    CountAgrees radareFmt fresh fresh' from_ to_ a b ↔ CountSafe fresh from_ to_ a b := by
  have hcount := radiffBytediffCount_eq fresh hfrom hto
  have hlist := listed_radiffBytediff radareFmt fresh' from_ hto
  have hbehind : (countedAt a b fresh from_ (diffBound to_ a b - from_)
      (diffBound to_ a b - (diffBound to_ a b - from_))).length = 0 ↔
        ∀ j < diffBound to_ a b, diffBound to_ a b ≤ from_ + j →
          comparedByte a.data fresh.block1 from_ j = comparedByte b.data fresh.block2 from_ j := by
    rw [List.length_eq_zero_iff, List.eq_nil_iff_forall_not_mem]
    refine forall_congr' fun j => ?_
    rw [mem_countedAt, not_and, Classical.not_not]
    constructor
    · intro h hlt hle
      exact h ⟨by omega, by omega⟩
    · intro h hin
      exact h (by omega) (by omega)
  rw [CountSafe, ← hbehind]
  rw [length_countedAt hto] at hcount
  have hsmall : ∀ {k : ℕ}, k < 2 ^ 31 → k < 10 ^ 20 := by omega
  obtain ⟨n, hn⟩ : ∃ n, n = (diffOffsetsIn from_ to_ a b).length := ⟨_, rfl⟩
  rw [CountAgrees, ← hn]
  rw [← hn] at hcount hlist
  constructor
  · rintro ⟨⟨run, hrun, hout⟩, run', hrun', -⟩
    rw [hrun', Option.map_some, eq_comm, addCount_eq_some] at hlist
    rw [hrun, Option.map_some, hout] at hcount
    obtain ⟨m, hm, htext⟩ := Option.map_eq_some_iff.mp hcount.symm
    obtain ⟨hmlt, hmeq⟩ := addCount_eq_some.mp hm
    have hvalue := congrArg (fun text : List u8 => value 10 (text.map fun c => c.toNat - 48))
      (List.singleton_inj.mp htext)
    have hmn : m = n := by
      rwa [value_decText (hsmall (by omega)), value_decText (hsmall (by omega))] at hvalue
    exact ⟨by omega, by omega⟩
  · rintro ⟨hlt, hzero⟩
    rw [hzero, Nat.add_zero, addCount, if_pos (by omega), Nat.zero_add] at hcount
    rw [addCount, if_pos (by omega), Nat.zero_add] at hlist
    obtain ⟨run, hrun, hout⟩ := Option.map_eq_some_iff.mp hcount
    obtain ⟨run', hrun', hlisted⟩ := Option.map_eq_some_iff.mp hlist
    exact ⟨⟨run, hrun, hout⟩, run', hrun', hlisted⟩

theorem length_threeBytes (x y z : u8) : [x, y, z].length < 2 ^ 63 := by
  change 3 < 2 ^ 63
  omega

/-- A file of three bytes. -/
def threeBytes (x y z : u8) : DiffFile := ⟨[x, y, z], length_threeBytes x y z⟩

/-- From the start, nothing is compared behind the bound. -/
theorem count_agrees_threeBytes :
    CountAgrees false zeroFresh zeroFresh 0 2 (threeBytes 1 2 3) (threeBytes 1 9 3) := by
  refine (radiffBytediff_count_iff false zeroFresh zeroFresh 0 2 (threeBytes 1 2 3)
    (threeBytes 1 9 3) (by decide) (by decide)).mpr ⟨by decide +kernel, fun j hj hle => ?_⟩
  have hbound : diffBound 2 (threeBytes 1 2 3) (threeBytes 1 9 3) = 2 := by decide
  omega

/-- Nothing differs at the offset 1, and one difference is counted: that at 2. -/
theorem count_behind_bound :
    let a := threeBytes 0 0 0
    let b := threeBytes 0 0 1
    1 ≤ diffBytes a b ∧ 2 ≤ diffBytes a b ∧ diffOffsetsIn 1 2 a b = [] ∧
      ¬ CountAgrees true zeroFresh zeroFresh 1 2 a b := by
  refine ⟨by decide, by decide, by decide +kernel, ?_⟩
  rintro ⟨⟨run, hrun, hout⟩, -⟩
  have hcount := radiffBytediffCount_eq zeroFresh
    (show 1 ≤ diffBytes (threeBytes 0 0 0) (threeBytes 0 0 1) by decide)
    (show 2 ≤ diffBytes (threeBytes 0 0 0) (threeBytes 0 0 1) by decide)
  have hone : (countedAt (threeBytes 0 0 0) (threeBytes 0 0 1) zeroFresh 1 0
      (diffBound 2 (threeBytes 0 0 0) (threeBytes 0 0 1))).length = 1 := by decide +kernel
  rw [hrun, hone, Option.map_some, hout] at hcount
  exact absurd hcount (by decide +kernel)

end Bounds

end Radare
