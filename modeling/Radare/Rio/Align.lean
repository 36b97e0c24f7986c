import Mathlib.Dynamics.PeriodicPts.Defs
import Radare.Rio.SeekHistory
/-!
# Steps to aligned blocks

`<` takes a block off the seek, and goes up to the next multiple of the block
size if what is left is none (`prev_align`). The seek has no sign: of a seek
below the first block the step goes around to the end of the addresses, and the
test for less than zero does not see it. The seeks that are right are those that
stop at zero in time, and some that come around to zero again
(`prevAlign_iff`).
-/

namespace Radare

/-- What the two commands read of the configuration. The block size is an `int`
that is not below one. -/
structure AlignConfig where
  blockSize : ℕ
  size : ut64
  unksize : Bool
  pos : 0 < blockSize
  lt : blockSize < 2 ^ 31

variable (c : AlignConfig) (outside : ℤ → ut64)

/-! ## The code -/

/-- `config.block_size`, where it meets the seek. -/
def AlignConfig.block : ut64 := UInt64.ofNat c.blockSize

/-- `for(times=1; input[times-1]==c; times++)` -/
def repeatTimes (ch : u8) (input : List u8) : ℕ := (input.takeWhile (· = ch)).length + 1

/-- The loop of `next_align`. -/
def nextAlignLoop : ℕ → ut64 → ut64
  | 0, seek => seek
  | times + 1, seek =>
    if !c.unksize ∧ seek > c.size then c.size
    else nextAlignLoop times (seek + (c.block - seek % c.block))

/-- `next_align`. -/
def nextAlign (input : List u8) (h : SeekHistory) : SeekHistory :=
  undoPush outside { h with seek := nextAlignLoop c (repeatTimes 62 input) h.seek }

/-- The loop of `prev_align`. -/
def prevAlignLoop : ℕ → SeekHistory → SeekHistory
  | 0, h => h
  | times + 1, h =>
    let h := { h with seek := h.seek - c.block }
    if h.seek < 0 then { h with seek := 0 }
    else if h.seek % c.block ≠ 0 then prevAlignLoop times (nextAlign c outside [] h)
    else prevAlignLoop times h

/-- `prev_align`. -/
def prevAlign (input : List u8) (h : SeekHistory) : SeekHistory :=
  undoPush outside (prevAlignLoop c outside (repeatTimes 60 input) h)

/-! ## What it is for -/

/-- The greatest multiple of `b` below `s`, or zero. -/
def prevMultiple (b s : ℕ) : ℕ := (s - 1) / b * b

/-- `<` so many times goes so many blocks back, or to zero, and never up. -/
def AlignsBack (h : SeekHistory) (k : ℕ) : Prop :=
  (prevAlign c outside (List.replicate (k - 1) 60) h).seek.toNat =
      (prevMultiple c.blockSize)^[k] h.seek.toNat ∧
    (prevAlign c outside (List.replicate (k - 1) 60) h).seek ≤ h.seek

/-! ## The step -/

/-- A turn of the loop, on numbers. -/
def alignStep (s : ℕ) : ℕ :=
  let s := (2 ^ 64 - c.blockSize + s) % 2 ^ 64
  if s % c.blockSize = 0 then s
  else if !c.unksize ∧ s > c.size.toNat then c.size.toNat
  else (s + (c.blockSize - s % c.blockSize)) % 2 ^ 64

variable {c} {outside} {h : SeekHistory} {b q r s x j k m : ℕ}

theorem AlignConfig.toNat_block : c.block.toNat = c.blockSize :=
  UInt64.toNat_ofNat_of_lt' (lt_trans c.lt (by decide))

theorem seek_undoShift (outside : ℤ → ut64) (h : SeekHistory) :
    (undoShift outside h).seek = h.seek := by
  unfold undoShift
  induction List.range (undosSize - 1) generalizing h with
  | nil => rfl
  | cons k ks ih => exact ih _

/-- A push leaves the seek. -/
theorem seek_undoPush (outside : ℤ → ut64) (h : SeekHistory) :
    (undoPush outside h).seek = h.seek := by
  have hadvance : ∀ h : SeekHistory, (undoAdvance outside h).seek = h.seek := by
    intro h
    unfold undoAdvance
    split_ifs
    · exact seek_undoShift outside h
    · rfl
  unfold undoPush
  dsimp only
  split_ifs
  · rfl
  · exact hadvance _
  · exact hadvance _

theorem toNat_alignStep (seek : ut64) :
    alignStep c seek.toNat =
      if (seek - c.block) % c.block = 0 then (seek - c.block).toNat
      else (nextAlignLoop c 1 (seek - c.block)).toNat := by
  have hsub : (seek - c.block).toNat = (2 ^ 64 - c.blockSize + seek.toNat) % 2 ^ 64 := by
    rw [UInt64.toNat_sub, c.toNat_block]
  have hmod : ((seek - c.block) % c.block).toNat =
      (2 ^ 64 - c.blockSize + seek.toNat) % 2 ^ 64 % c.blockSize := by
    rw [UInt64.toNat_mod, hsub, c.toNat_block]
  have hzero : (seek - c.block) % c.block = 0 ↔
      (2 ^ 64 - c.blockSize + seek.toNat) % 2 ^ 64 % c.blockSize = 0 := by
    rw [← hmod, ← UInt64.toNat_inj]
    rfl
  unfold alignStep
  dsimp only
  refine if_congr hzero.symm hsub.symm ?_
  rw [nextAlignLoop, nextAlignLoop, apply_ite UInt64.toNat]
  refine if_congr ?_ rfl ?_
  · rw [gt_iff_lt, gt_iff_lt, UInt64.lt_iff_toNat_lt, hsub]
  · have hle : (seek - c.block) % c.block ≤ c.block := by
      rw [UInt64.le_iff_toNat_le, hmod, c.toNat_block]
      exact (Nat.mod_lt _ c.pos).le
    rw [UInt64.toNat_add, UInt64.toNat_sub_of_le _ _ hle, hmod, hsub, c.toNat_block]

/-- **The loop takes so many steps.** -/
theorem toNat_prevAlignLoop (outside : ℤ → ut64) (k : ℕ) (h : SeekHistory) :
    (prevAlignLoop c outside k h).seek.toNat = (alignStep c)^[k] h.seek.toNat := by
  induction k generalizing h with
  | zero => rfl
  | succ k ih =>
    have hneg : ¬h.seek - c.block < 0 := by
      rw [UInt64.lt_iff_toNat_lt]
      exact Nat.not_lt_zero _
    rw [Function.iterate_succ_apply, toNat_alignStep, prevAlignLoop]
    dsimp only
    rw [if_neg hneg]
    by_cases hmod : (h.seek - c.block) % c.block = 0
    · rw [if_neg (not_not_intro hmod), if_pos hmod, ih]
    · rw [if_pos hmod, if_neg hmod, ih, nextAlign, seek_undoPush]
      rfl

/-! ## Multiples -/

/-- A number that is not zero has a multiple below it. -/
theorem exists_block (hb : 0 < b) (hs : 0 < s) : ∃ q r, s = q * b + r ∧ 0 < r ∧ r ≤ b := by
  have hdiv := Nat.div_add_mod' (s - 1) b
  have hmod := Nat.mod_lt (s - 1) hb
  exact ⟨(s - 1) / b, (s - 1) % b + 1, by omega, by omega, by omega⟩

theorem prevMultiple_add (hr : 0 < r) (hrb : r ≤ b) : prevMultiple b (q * b + r) = q * b := by
  have hone : q * b + r - 1 = (r - 1) + q * b := by omega
  rw [prevMultiple, hone, Nat.add_mul_div_right _ _ (by omega), Nat.div_eq_of_lt (by omega),
    Nat.zero_add]

/-- **The greatest multiple below.** -/
theorem isGreatest_prevMultiple (hb : 0 < b) (hs : 0 < s) :
    b ∣ prevMultiple b s ∧ prevMultiple b s < s ∧ ∀ m, b ∣ m → m < s → m ≤ prevMultiple b s := by
  obtain ⟨q, r, rfl, hr, hrb⟩ := exists_block hb hs
  rw [prevMultiple_add hr hrb]
  refine ⟨Nat.dvd_mul_left b q, by omega, ?_⟩
  rintro m ⟨i, rfl⟩ hlt
  have hi : b * i < b * (q + 1) := by
    rw [Nat.mul_succ, Nat.mul_comm b q]
    omega
  rw [Nat.mul_comm q b]
  exact Nat.mul_le_mul_left b (Nat.le_of_lt_succ (Nat.lt_of_mul_lt_mul_left hi))

theorem prevMultiple_zero (b : ℕ) : prevMultiple b 0 = 0 := by
  rw [prevMultiple, Nat.zero_sub, Nat.zero_div, Nat.zero_mul]

theorem prevMultiple_le (b s : ℕ) : prevMultiple b s ≤ s :=
  (Nat.div_mul_le_self (s - 1) b).trans (Nat.sub_le s 1)

theorem prevMultiple_mul (hb : 0 < b) (q : ℕ) : prevMultiple b (q * b) = (q - 1) * b := by
  rcases q with _ | q
  · rw [Nat.zero_mul, prevMultiple_zero]
  · rw [Nat.succ_mul, prevMultiple_add hb le_rfl, Nat.add_sub_cancel]

/-- Steps back from a multiple. -/
theorem iterate_prevMultiple (hb : 0 < b) (k q : ℕ) :
    (prevMultiple b)^[k] (q * b) = (q - k) * b := by
  induction k generalizing q with
  | zero => rfl
  | succ k ih =>
    rw [Function.iterate_succ_apply, prevMultiple_mul hb, ih, Nat.sub_sub, Nat.add_comm 1 k]

theorem iterate_prevMultiple_le (b k s : ℕ) : (prevMultiple b)^[k] s ≤ s := by
  induction k generalizing s with
  | zero => exact le_rfl
  | succ k ih => exact (ih _).trans (prevMultiple_le b s)

/-- So many blocks have an address below the seek. -/
def blocks (b s : ℕ) : ℕ := (s + b - 1) / b

theorem blocks_add (hr : 0 < r) (hrb : r ≤ b) : blocks b (q * b + r) = q + 1 := by
  have hone : q * b + r + b - 1 = (r - 1) + (q + 1) * b := by
    rw [Nat.succ_mul]
    omega
  rw [blocks, hone, Nat.add_mul_div_right _ _ (by omega), Nat.div_eq_of_lt (by omega),
    Nat.zero_add]

/-! ## Steps from a block on -/

/-- **A step from a block on is right.** -/
theorem alignStep_back (hs : c.blockSize ≤ s) (hsize : s ≤ c.size.toNat) :
    alignStep c s = prevMultiple c.blockSize s := by
  have hb := c.pos
  have hlt := c.size.toNat_lt
  have hwrap : (2 ^ 64 - c.blockSize + s) % 2 ^ 64 = s - c.blockSize := by
    have hsum : 2 ^ 64 - c.blockSize + s = s - c.blockSize + 2 ^ 64 := by omega
    rw [hsum, Nat.add_mod_right, Nat.mod_eq_of_lt (by omega)]
  obtain ⟨q, r, rfl, hr, hrb⟩ := exists_block hb (by omega : 0 < s)
  rw [prevMultiple_add hr hrb]
  unfold alignStep
  rw [hwrap]
  dsimp only
  rcases hrb.eq_or_lt with rfl | hrlt
  · rw [Nat.add_sub_cancel, Nat.mul_mod_left, if_pos rfl]
  · obtain ⟨q, rfl⟩ : ∃ i, q = i + 1 := by
      rcases q with _ | q
      · omega
      · exact ⟨q, rfl⟩
    rw [Nat.succ_mul] at hsize ⊢
    have hleft : q * c.blockSize + c.blockSize + r - c.blockSize = q * c.blockSize + r := by omega
    have hmod : (q * c.blockSize + r) % c.blockSize = r := by
      rw [Nat.mul_add_mod_self_right, Nat.mod_eq_of_lt hrlt]
    have hup : q * c.blockSize + r + (c.blockSize - r) = q * c.blockSize + c.blockSize := by omega
    rw [hleft, hmod, if_neg (by omega), if_neg fun h => by omega, hup, Nat.mod_eq_of_lt (by omega)]

/-- Steps down to zero, from a multiple. -/
theorem iterate_alignStep_mul (hq : q * c.blockSize ≤ c.size.toNat) (hk : k ≤ q) :
    (alignStep c)^[k] (q * c.blockSize) = (q - k) * c.blockSize := by
  induction k generalizing q with
  | zero => rfl
  | succ k ih =>
    obtain ⟨q, rfl⟩ : ∃ i, q = i + 1 := ⟨q - 1, by omega⟩
    have hone : c.blockSize ≤ (q + 1) * c.blockSize := Nat.le_mul_of_pos_left _ (Nat.succ_pos q)
    have hless : q * c.blockSize ≤ (q + 1) * c.blockSize := Nat.mul_le_mul_right _ (Nat.le_succ q)
    rw [Function.iterate_succ_apply, alignStep_back hone hq, prevMultiple_mul c.pos,
      Nat.add_sub_cancel, ih (by omega) (by omega), Nat.succ_sub_succ]

/-- **Steps down to zero are right.** -/
theorem iterate_alignStep_back (hs : c.blockSize ≤ s) (hsize : s ≤ c.size.toNat)
    (hk : k ≤ blocks c.blockSize s) :
    (alignStep c)^[k] s = (prevMultiple c.blockSize)^[k] s := by
  have hb := c.pos
  rcases k with _ | k
  · rfl
  · obtain ⟨q, r, rfl, hr, hrb⟩ := exists_block hb (by omega : 0 < s)
    rw [blocks_add hr hrb] at hk
    rw [Function.iterate_succ_apply, Function.iterate_succ_apply, alignStep_back hs hsize,
      prevMultiple_add hr hrb, iterate_prevMultiple hb,
      iterate_alignStep_mul (by omega) (by omega)]

/-- Steps back end at zero, and no sooner. -/
theorem iterate_prevMultiple_eq_zero_iff (hb : 0 < b) (hs : 0 < s) :
    (prevMultiple b)^[k] s = 0 ↔ blocks b s ≤ k := by
  obtain ⟨q, r, rfl, hr, hrb⟩ := exists_block hb hs
  rw [blocks_add hr hrb]
  rcases k with _ | k
  · rw [Function.iterate_zero_apply]
    omega
  · rw [Function.iterate_succ_apply, prevMultiple_add hr hrb, iterate_prevMultiple hb,
      Nat.mul_eq_zero, or_iff_left hb.ne']
    omega

/-! ## Steps from below the first block -/

/-- From a high multiple, the steps stay far from zero. -/
theorem iterate_alignStep_high (hdvd : c.blockSize ∣ s) (hlow : 2 ^ 63 ≤ s) (hhigh : s < 2 ^ 64)
    (hk : k < 2 ^ 31) : (alignStep c)^[k] s = s - k * c.blockSize := by
  induction k with
  | zero => rw [Nat.zero_mul]; rfl
  | succ k ih =>
    have hb := c.lt
    have hfar : k * c.blockSize ≤ 2 ^ 31 * 2 ^ 31 := Nat.mul_le_mul (by omega) hb.le
    have hless : c.blockSize ∣ s - k * c.blockSize :=
      Nat.dvd_sub hdvd (Nat.dvd_mul_left _ _)
    have hwrap : (2 ^ 64 - c.blockSize + (s - k * c.blockSize)) % 2 ^ 64 =
        s - k * c.blockSize - c.blockSize := by
      have hsum : 2 ^ 64 - c.blockSize + (s - k * c.blockSize) =
          s - k * c.blockSize - c.blockSize + 2 ^ 64 := by omega
      rw [hsum, Nat.add_mod_right, Nat.mod_eq_of_lt (by omega)]
    rw [Function.iterate_succ_apply', ih (by omega)]
    unfold alignStep
    rw [hwrap]
    dsimp only
    rw [if_pos (Nat.mod_eq_zero_of_dvd (Nat.dvd_sub hless dvd_rfl)), Nat.succ_mul, Nat.sub_sub]

theorem iterate_alignStep_high_ne_zero (hdvd : c.blockSize ∣ s) (hlow : 2 ^ 63 ≤ s)
    (hhigh : s < 2 ^ 64) (hk : k < 2 ^ 31) : (alignStep c)^[k] s ≠ 0 := by
  have hfar : k * c.blockSize ≤ 2 ^ 31 * 2 ^ 31 := Nat.mul_le_mul hk.le c.lt.le
  rw [iterate_alignStep_high hdvd hlow hhigh hk]
  omega

/-- A step below the first block comes around to here. -/
theorem alignStep_low (hx : x < c.blockSize) :
    alignStep c x =
      if c.blockSize ∣ 2 ^ 64 - c.blockSize + x then 2 ^ 64 - c.blockSize + x
      else if !c.unksize ∧ 2 ^ 64 - c.blockSize + x > c.size.toNat then c.size.toNat
      else (2 ^ 64 + x - (2 ^ 64 - c.blockSize + x) % c.blockSize) % 2 ^ 64 := by
  have hb := c.lt
  have hmod := Nat.mod_lt (2 ^ 64 - c.blockSize + x) c.pos
  unfold alignStep
  rw [Nat.mod_eq_of_lt (by omega : 2 ^ 64 - c.blockSize + x < 2 ^ 64)]
  dsimp only
  refine if_congr Nat.dvd_iff_mod_eq_zero.symm rfl (if_congr Iff.rfl rfl ?_)
  congr 1
  omega

theorem dvd_low_iff (hb : c.blockSize ≤ 2 ^ 64) (x : ℕ) :
    c.blockSize ∣ 2 ^ 64 - c.blockSize + x ↔ c.blockSize ∣ 2 ^ 64 + x := by
  have hsum : 2 ^ 64 + x = 2 ^ 64 - c.blockSize + x + c.blockSize := by omega
  rw [hsum, Nat.dvd_add_self_right]

/-- The addresses end with a block, and the remainder of a step around is that
of the seek. -/
theorem mod_low (hx : x < c.blockSize) (hend : c.blockSize ∣ 2 ^ 64) :
    (2 ^ 64 - c.blockSize + x) % c.blockSize = x := by
  obtain ⟨i, hi⟩ := Nat.dvd_sub hend (dvd_refl c.blockSize)
  rw [hi, Nat.mul_add_mod_self_left, Nat.mod_eq_of_lt hx]

theorem iterate_low_dvd (hx : x < c.blockSize) (hdvd : c.blockSize ∣ 2 ^ 64 - c.blockSize + x)
    (hm : 0 < m) (hk : m < 2 ^ 31) : (alignStep c)^[m] x ≠ 0 := by
  have hb := c.lt
  obtain ⟨m, rfl⟩ : ∃ i, m = i + 1 := ⟨m - 1, by omega⟩
  rw [Function.iterate_succ_apply, alignStep_low hx, if_pos hdvd]
  exact iterate_alignStep_high_ne_zero hdvd (by omega) (by omega) (by omega)

/-- From zero where the addresses end with a block, no step comes back. -/
theorem iterate_zero_ne_zero (hend : c.blockSize ∣ 2 ^ 64) (hm : 0 < m) (hk : m < 2 ^ 31) :
    (alignStep c)^[m] 0 ≠ 0 :=
  iterate_low_dvd c.pos (Nat.dvd_sub hend dvd_rfl) hm hk

/-- **A step around that is not cut** comes to zero at once, or not at all. -/
theorem iterate_low_open (hx : x < c.blockSize)
    (hopen : ¬(!c.unksize ∧ 2 ^ 64 - c.blockSize + x > c.size.toNat)) (hm : 0 < m)
    (hk : m < 2 ^ 31) :
    (alignStep c)^[m] x = 0 ↔ 0 < x ∧ c.blockSize ∣ 2 ^ 64 ∧ m = 1 := by
  have hb := c.lt
  by_cases hdvd : c.blockSize ∣ 2 ^ 64 - c.blockSize + x
  · refine iff_of_false (iterate_low_dvd hx hdvd hm hk) ?_
    rintro ⟨hpos, hend, -⟩
    have hmod := mod_low hx hend
    rw [Nat.mod_eq_zero_of_dvd hdvd] at hmod
    omega
  obtain ⟨m, rfl⟩ : ∃ i, m = i + 1 := ⟨m - 1, by omega⟩
  rw [Function.iterate_succ_apply, alignStep_low hx, if_neg hdvd, if_neg hopen]
  generalize hr : (2 ^ 64 - c.blockSize + x) % c.blockSize = r
  have hrpos : 0 < r := by
    rcases Nat.eq_zero_or_pos r with hzero | hpos
    · exact absurd (Nat.dvd_of_mod_eq_zero (hr.trans hzero)) hdvd
    · exact hpos
  have hrb : r < c.blockSize := hr ▸ Nat.mod_lt _ c.pos
  have hup : c.blockSize ∣ 2 ^ 64 + x - r := by
    have hsum : 2 ^ 64 + x - r = 2 ^ 64 - c.blockSize + x - r + c.blockSize := by omega
    rw [hsum, ← hr]
    exact Nat.dvd_add_self_right.mpr (Nat.dvd_sub_mod _)
  -- where the addresses end with a block, it is the one that x is in
  have hother : x ≠ r → ¬(0 < x ∧ c.blockSize ∣ 2 ^ 64 ∧ m + 1 = 1) := by
    rintro hne ⟨-, hend, -⟩
    rw [mod_low hx hend] at hr
    omega
  rcases Nat.lt_trichotomy x r with hlt | heq | hgt
  · -- above the end of the first block from the top
    rw [Nat.mod_eq_of_lt (by omega : 2 ^ 64 + x - r < 2 ^ 64)]
    exact iff_of_false (iterate_alignStep_high_ne_zero hup (by omega) (by omega) (by omega))
      (hother hlt.ne)
  · subst heq
    rw [Nat.add_sub_cancel] at hup ⊢
    rw [Nat.mod_self]
    rcases m with _ | m
    · exact iff_of_true rfl ⟨hrpos, hup, rfl⟩
    · exact iff_of_false (iterate_zero_ne_zero hup (by omega) (by omega)) fun h => by omega
  · have hsum : 2 ^ 64 + x - r = x - r + 2 ^ 64 := by omega
    rw [hsum, Nat.add_mod_right, Nat.mod_eq_of_lt (by omega : x - r < 2 ^ 64)]
    refine iff_of_false ?_ (hother hgt.ne')
    rcases m with _ | m
    · rw [Function.iterate_zero_apply]
      omega
    · refine iterate_low_dvd (by omega) ?_ (by omega) (by omega)
      have hlow : 2 ^ 64 - c.blockSize + (x - r) = 2 ^ 64 + x - r - c.blockSize := by omega
      rw [hlow]
      exact Nat.dvd_sub hup dvd_rfl

theorem le_blocks_mul (hb : 0 < b) (s : ℕ) : s ≤ blocks b s * b := by
  rcases Nat.eq_zero_or_pos s with rfl | hs
  · exact Nat.zero_le _
  · obtain ⟨q, r, rfl, hr, hrb⟩ := exists_block hb hs
    rw [blocks_add hr hrb, Nat.succ_mul]
    omega

/-- From the end of the file, the steps come to zero once. -/
theorem iterate_size_eq_zero_iff (hsize : c.blockSize ≤ c.size.toNat)
    (hk : k ≤ blocks c.blockSize c.size.toNat) :
    (alignStep c)^[k] c.size.toNat = 0 ↔ k = blocks c.blockSize c.size.toNat := by
  have hb := c.pos
  rw [iterate_alignStep_back hsize le_rfl hk, iterate_prevMultiple_eq_zero_iff hb (by omega)]
  omega

/-- In a file that is smaller than a block, no step comes back to zero. -/
theorem iterate_size_ne_zero (hunk : c.unksize = false) (hpos : 0 < c.size.toNat)
    (hsmall : c.size.toNat < c.blockSize) (hk : k < 2 ^ 31) :
    (alignStep c)^[k] c.size.toNat ≠ 0 := by
  have hb := c.lt
  by_cases hdvd : c.blockSize ∣ 2 ^ 64 - c.blockSize + c.size.toNat
  · rcases k with _ | k
    · exact hpos.ne'
    · exact iterate_low_dvd hsmall hdvd (Nat.succ_pos k) hk
  · have hstay : alignStep c c.size.toNat = c.size.toNat := by
      rw [alignStep_low hsmall, if_neg hdvd, if_pos ⟨by rw [hunk]; rfl, by omega⟩]
    rw [Function.iterate_fixed hstay]
    exact hpos.ne'

/-- A step around that is cut comes to the end of the file. -/
theorem alignStep_cut (hx : x < c.blockSize) (hunk : c.unksize = false)
    (hcut : c.size.toNat < 2 ^ 64 - c.blockSize + x)
    (hdvd : ¬c.blockSize ∣ 2 ^ 64 - c.blockSize + x) : alignStep c x = c.size.toNat := by
  rw [alignStep_low hx, if_neg hdvd, if_pos ⟨by rw [hunk]; rfl, hcut⟩]

/-- Where zero is cut as well, the steps come back to it in turn. -/
theorem iterate_zero_eq_zero_iff (hunk : c.unksize = false) (hsize : c.blockSize ≤ c.size.toNat)
    (hcut : c.size.toNat < 2 ^ 64 - c.blockSize) (hend : ¬c.blockSize ∣ 2 ^ 64) :
    (alignStep c)^[m] 0 = 0 ↔ blocks c.blockSize c.size.toNat + 1 ∣ m := by
  have hb := c.lt
  have hstep : alignStep c 0 = c.size.toNat :=
    alignStep_cut c.pos hunk hcut fun hdvd => hend ((dvd_low_iff (by omega) 0).mp hdvd)
  have hperiod : Function.minimalPeriod (alignStep c) 0 = blocks c.blockSize c.size.toNat + 1 := by
    have hreturn : Function.IsPeriodicPt (alignStep c) (blocks c.blockSize c.size.toNat + 1) 0 := by
      rw [Function.IsPeriodicPt, Function.IsFixedPt, Function.iterate_succ_apply, hstep,
        iterate_size_eq_zero_iff hsize le_rfl]
    have hle := hreturn.minimalPeriod_le (Nat.succ_pos _)
    have hpos := hreturn.minimalPeriod_pos (Nat.succ_pos _)
    have hback : (alignStep c)^[Function.minimalPeriod (alignStep c) 0] 0 = 0 :=
      Function.isPeriodicPt_minimalPeriod (alignStep c) 0
    obtain ⟨i, hi⟩ : ∃ i, Function.minimalPeriod (alignStep c) 0 = i + 1 :=
      ⟨Function.minimalPeriod (alignStep c) 0 - 1, by omega⟩
    rw [hi] at hle hback ⊢
    rw [Function.iterate_succ_apply, hstep, iterate_size_eq_zero_iff hsize (by omega)] at hback
    rw [hback]
  rw [← hperiod]
  exact Function.isPeriodicPt_iff_minimalPeriod_dvd

/-- A file up to the last addresses has more blocks than there are steps. -/
theorem lt_blocks (hlarge : 2 ^ 64 - c.blockSize ≤ s) : 2 ^ 31 < blocks c.blockSize s := by
  have hb := c.lt
  by_contra hfew
  have hmul := le_blocks_mul c.pos s
  have hle : blocks c.blockSize s * c.blockSize ≤ 2 ^ 31 * 2 ^ 31 :=
    Nat.mul_le_mul (by omega) hb.le
  omega

/-- **A step around that is cut** goes to the end of the file, and from there to
zero in as many steps as the file has blocks; then around again, unless the
addresses end with a block. -/
theorem iterate_low_cut (hx : x < c.blockSize) (hle : x ≤ c.size.toNat) (hunk : c.unksize = false)
    (hcut : c.size.toNat < 2 ^ 64 - c.blockSize + x)
    (hdvd : ¬c.blockSize ∣ 2 ^ 64 - c.blockSize + x) (hm : 0 < m) (hk : m < 2 ^ 31) :
    (alignStep c)^[m] x = 0 ↔ c.size.toNat = 0 ∨ c.blockSize ≤ c.size.toNat ∧
      blocks c.blockSize c.size.toNat + 1 ∣ m ∧
      (c.blockSize ∣ 2 ^ 64 → m = blocks c.blockSize c.size.toNat + 1) := by
  have hb := c.lt
  have hpos := c.pos
  have hstep := alignStep_cut hx hunk hcut hdvd
  rcases Nat.eq_zero_or_pos c.size.toNat with hzero | hsome
  · have hx0 : x = 0 := by omega
    subst hx0
    rw [hzero] at hstep
    exact iff_of_true (Function.iterate_fixed hstep m) (Or.inl hzero)
  obtain ⟨m, rfl⟩ : ∃ i, m = i + 1 := ⟨m - 1, by omega⟩
  rw [Function.iterate_succ_apply, hstep, or_iff_right hsome.ne']
  rcases Nat.lt_or_ge c.size.toNat c.blockSize with hsmall | hsize
  · exact iff_of_false (iterate_size_ne_zero hunk hsome hsmall (by omega)) fun h => by omega
  rw [and_iff_right hsize]
  by_cases hend : c.blockSize ∣ 2 ^ 64
  · rcases Nat.lt_or_ge (blocks c.blockSize c.size.toNat) m with hover | hupto
    · obtain ⟨j, rfl⟩ : ∃ j, m = j + blocks c.blockSize c.size.toNat :=
        ⟨m - blocks c.blockSize c.size.toNat, by omega⟩
      rw [Function.iterate_add_apply, (iterate_size_eq_zero_iff hsize le_rfl).mpr rfl]
      refine iff_of_false (iterate_zero_ne_zero hend (by omega) (by omega)) fun h => ?_
      have hall := h.2 hend
      omega
    · rw [iterate_size_eq_zero_iff hsize hupto]
      constructor
      · rintro rfl
        exact ⟨dvd_rfl, fun _ => rfl⟩
      · intro h
        have hall := h.2 hend
        omega
  · rw [and_iff_left fun h => absurd h hend]
    rcases Nat.lt_or_ge c.size.toNat (2 ^ 64 - c.blockSize) with hlow | hlarge
    · have hzero : alignStep c 0 = c.size.toNat :=
        alignStep_cut hpos hunk hlow fun h => hend ((dvd_low_iff (by omega) 0).mp h)
      rw [← iterate_zero_eq_zero_iff hunk hsize hlow hend, Function.iterate_succ_apply, hzero]
    · have hmany := lt_blocks hlarge
      rw [iterate_size_eq_zero_iff hsize (by omega)]
      refine iff_of_false (by omega) fun h => ?_
      have hup := Nat.le_of_dvd (Nat.succ_pos m) h
      omega

/-! ## The result -/

/-- From below the first block, so many steps come back to zero. -/
def ComesToZero (c : AlignConfig) (x m : ℕ) : Prop :=
  (c.unksize = true ∨ 2 ^ 64 - c.blockSize + x ≤ c.size.toNat) ∧
      0 < x ∧ c.blockSize ∣ 2 ^ 64 ∧ m = 1 ∨
    (c.unksize = false ∧ c.size.toNat < 2 ^ 64 - c.blockSize + x) ∧ ¬c.blockSize ∣ 2 ^ 64 + x ∧
      (c.size.toNat = 0 ∨ c.blockSize ≤ c.size.toNat ∧
        blocks c.blockSize c.size.toNat + 1 ∣ m ∧
        (c.blockSize ∣ 2 ^ 64 → m = blocks c.blockSize c.size.toNat + 1))

theorem iterate_low_iff (hx : x < c.blockSize) (hle : x ≤ c.size.toNat) (hm : 0 < m)
    (hk : m < 2 ^ 31) : (alignStep c)^[m] x = 0 ↔ ComesToZero c x m := by
  have hb := c.lt
  by_cases hopen : c.unksize = true ∨ 2 ^ 64 - c.blockSize + x ≤ c.size.toNat
  · have hcut : ¬(c.unksize = false ∧ c.size.toNat < 2 ^ 64 - c.blockSize + x) := by
      rintro ⟨hunk, hlt⟩
      rcases hopen with h | h
      · rw [hunk] at h
        exact Bool.false_ne_true h
      · omega
    have hnot : ¬(!c.unksize ∧ 2 ^ 64 - c.blockSize + x > c.size.toNat) := by
      rintro ⟨hunk, hlt⟩
      exact hcut ⟨by simpa using hunk, hlt⟩
    rw [iterate_low_open hx hnot hm hk, ComesToZero, and_iff_right hopen,
      or_iff_left fun h => hcut h.1]
  · obtain ⟨hunk, hlt⟩ := not_or.mp hopen
    rw [Bool.not_eq_true] at hunk
    rw [Nat.not_le] at hlt
    rw [ComesToZero, or_iff_right fun h => hopen h.1, and_iff_right ⟨hunk, hlt⟩,
      ← dvd_low_iff (by omega)]
    by_cases hdvd : c.blockSize ∣ 2 ^ 64 - c.blockSize + x
    · exact iff_of_false (iterate_low_dvd hx hdvd hm hk) fun h => h.1 hdvd
    · rw [and_iff_right hdvd]
      exact iterate_low_cut hx hle hunk hlt hdvd hm hk

/-- The steps stop at zero in time, or come back to it. -/
def AlignsWhen (c : AlignConfig) (s k : ℕ) : Prop :=
  if c.blockSize ≤ s then
    k ≤ blocks c.blockSize s ∨ ComesToZero c 0 (k - blocks c.blockSize s)
  else ComesToZero c s k

theorem repeatTimes_replicate (ch : u8) (k : ℕ) :
    repeatTimes ch (List.replicate k ch) = k + 1 := by
  rw [repeatTimes, List.takeWhile_replicate, if_pos (decide_eq_true rfl), List.length_replicate]

theorem alignsBack_iff_iterate (hk : 0 < k) :
    AlignsBack c outside h k ↔
      (alignStep c)^[k] h.seek.toNat = (prevMultiple c.blockSize)^[k] h.seek.toNat := by
  have hseek : (prevAlign c outside (List.replicate (k - 1) 60) h).seek.toNat =
      (alignStep c)^[k] h.seek.toNat := by
    rw [prevAlign, seek_undoPush, toNat_prevAlignLoop, repeatTimes_replicate, Nat.sub_add_cancel hk]
  rw [AlignsBack, UInt64.le_iff_toNat_le, hseek]
  exact and_iff_left_of_imp fun heq => heq ▸ iterate_prevMultiple_le _ _ _

/-- **When the steps back are right**: of a seek from the first block's end on, as
far as zero; below it and from there on, if the step around comes to zero. -/
theorem prevAlign_iff (c : AlignConfig) (outside : ℤ → ut64) (h : SeekHistory) (k : ℕ)
    (hsize : h.seek ≤ c.size) (hk : 0 < k ∧ k < 2 ^ 31) :
    AlignsBack c outside h k ↔ AlignsWhen c h.seek.toNat k := by
  have hb := c.pos
  rw [UInt64.le_iff_toNat_le] at hsize
  rw [alignsBack_iff_iterate hk.1]
  generalize h.seek.toNat = s at hsize
  unfold AlignsWhen
  split_ifs with hs
  · rcases Nat.lt_or_ge (blocks c.blockSize s) k with hover | hupto
    · rw [or_iff_right (by omega), (iterate_prevMultiple_eq_zero_iff hb (by omega)).mpr hover.le]
      obtain ⟨m, rfl⟩ : ∃ m, k = m + blocks c.blockSize s :=
        ⟨k - blocks c.blockSize s, by omega⟩
      have hzero : (alignStep c)^[blocks c.blockSize s] s = 0 := by
        rw [iterate_alignStep_back hs hsize le_rfl,
          (iterate_prevMultiple_eq_zero_iff hb (by omega)).mpr le_rfl]
      rw [Function.iterate_add_apply, hzero, Nat.add_sub_cancel,
        iterate_low_iff hb (Nat.zero_le _) (by omega) (by omega)]
    · exact iff_of_true (iterate_alignStep_back hs hsize hupto) (Or.inl hupto)
  · have hone : prevMultiple c.blockSize s = 0 := by
      rw [prevMultiple, Nat.div_eq_of_lt (by omega), Nat.zero_mul]
    have hdown : (prevMultiple c.blockSize)^[k] s = 0 := by
      obtain ⟨k, rfl⟩ : ∃ i, k = i + 1 := ⟨k - 1, by omega⟩
      rw [Function.iterate_succ_apply, hone, Function.iterate_fixed (prevMultiple_zero _)]
    rw [hdown, iterate_low_iff (by omega) hsize hk.1 hk.2]

/-- Blocks of sixteen in a file of 64 bytes. -/
def sixteenBlocks : AlignConfig := ⟨16, 64, false, by decide, by decide⟩

/-- Two steps from 37. -/
theorem prevAlign_two :
    AlignsBack sixteenBlocks (fun _ => 0) { SeekHistory.start with seek := 37 } 2 := by
  have hwhen : AlignsWhen sixteenBlocks 37 2 := by
    rw [AlignsWhen, if_pos (by decide)]
    exact .inl (by decide)
  exact (prevAlign_iff sixteenBlocks (fun _ => 0) { SeekHistory.start with seek := 37 } 2
    (by decide) (by decide)).mpr hwhen

/-- A step from 5 goes to the end of the file. -/
theorem prevAlign_around :
    ¬AlignsBack sixteenBlocks (fun _ => 0) { SeekHistory.start with seek := 5 } 1 := by
  rw [alignsBack_iff_iterate (by decide)]
  decide

end Radare
