import Radare.Ranges.Add
/-!
# `ranges_sub`

The scan restarts after every deletion and every split, and each restart
uses up an element that calls for one: a deletion removes it, and a split
leaves it ending at `t`, where no case applies. So it ends
(`rangesSub_isSome`).

What it leaves is the difference only where no range is `Missed`. The
four cases compare strictly, so a range that starts at `f` or ends at `t`
meets none of them; and the split adds from `t` to the end it has just
overwritten, which puts back what was to go and drops the tail.
`rangesSub_difference` says that these are the only ways to fail.
-/

namespace Radare

open Common

/-- The list a scan leaves, whichever way it ends. -/
def SubScan.rang : SubScan → List RangeT
  | .done rang => rang
  | .reloop rang _ => rang

variable {rang : List RangeT} {r : RangeT} {f t x : ut64}

/-! ## The restarts -/

/-- The range makes the scan restart. -/
def subActive (f t : ut64) (r : RangeT) : Bool := subDeletes f t r || subSplits f t r

theorem subActive_subTrim : subActive f t (subTrim f t r) = subActive f t r := by
  obtain ⟨a, b⟩ := r
  unfold subActive subTrim subDeletes subSplits
  split_ifs <;> grind

/-- An addition of the interval makes no range restart the scan. -/
theorem subActive_addCase (h : subActive f t ((addCase f t r).apply r) = true) :
    subActive f t r = true := by
  obtain ⟨a, b⟩ := r
  revert h
  unfold subActive addCase subDeletes subSplits
  dsimp only
  split_ifs <;> simp only [AddCase.apply] <;> grind

/-- Nor does it append one that does. -/
theorem countP_subActive_rangesAdd (hft : f ≤ t) (rang : List RangeT) :
    (rangesAdd rang t f true).rang.countP (subActive f t) ≤ rang.countP (subActive f t) := by
  have hself : subActive f t ⟨f, t⟩ = false := by simp [subActive, subDeletes, subSplits]
  have happ : ∀ c : Bool, (if c then [(⟨f, t⟩ : RangeT)] else []).countP (subActive f t) = 0 := by
    intro c; cases c <;> simp [hself]
  rw [rangesAdd_rang_cases, min_eq_right hft, max_eq_left hft, List.countP_append, happ,
    Nat.add_zero, List.countP_map]
  exact List.countP_mono_left fun r _ h => subActive_addCase h

/-- **A scan that restarts leaves fewer ranges that make it.** -/
theorem subScan_countP (hft : f ≤ t) :
    ∀ (rest pre rang : List RangeT) (ch : Bool), pre.countP (subActive f t) = 0 →
      subScan f t pre rest = .reloop rang ch →
      rang.countP (subActive f t) < rest.countP (subActive f t) := by
  intro rest
  induction rest with
  | nil => intro pre rang ch _ h; simp [subScan] at h
  | cons r rest ih =>
    intro pre rang ch hpre h
    rw [subScan] at h
    rw [List.countP_cons, ← subActive_subTrim]
    generalize subTrim f t r = r at h ⊢
    dsimp only at h
    split_ifs at h with hd hs
    · obtain ⟨rfl, -⟩ := SubScan.reloop.inj h
      have : subActive f t r = true := by simp [subActive, hd]
      rw [List.countP_append, hpre, if_pos this]
      omega
    · obtain ⟨rfl, -⟩ := SubScan.reloop.inj h
      have hact : subActive f t r = true := by simp [subActive, hs]
      have hcut : subActive f t { r with to_ := f } = false := by
        simp [subActive, subDeletes, subSplits]
      have := countP_subActive_rangesAdd hft (pre ++ { r with to_ := f } :: rest)
      rw [List.countP_append, List.countP_cons, hpre, hcut] at this
      rw [if_pos hact]
      simp only [Bool.false_eq_true, if_false] at this
      omega
    · have hin : subActive f t r = false := by simp [subActive, hd, hs]
      refine lt_of_lt_of_le (ih (pre ++ [r]) rang ch ?_ h) (Nat.le_add_right _ _)
      rw [List.countP_append, hpre, List.countP_cons, hin]
      simp

/-- The scans allowed are enough. -/
theorem subLoop_isSome (hft : f ≤ t) :
    ∀ (fuel : ℕ) (rang : List RangeT) (ch : Bool), rang.countP (subActive f t) < fuel →
      (subLoop f t fuel rang ch).isSome := by
  intro fuel
  induction fuel with
  | zero => intro rang ch h; omega
  | succ fuel ih =>
    intro rang ch h
    rw [subLoop]
    cases hs : subScan f t [] rang with
    | done l => rfl
    | reloop l c =>
      have := subScan_countP hft rang [] l c rfl hs
      exact ih l _ (by omega)

/-- **`ranges_sub` ends**, whatever the list and the two ends. -/
theorem rangesSub_isSome (rang : List RangeT) (f t : ut64) : (rangesSub rang f t).isSome := by
  rw [rangesSub, rangesAbs_eq]
  refine subLoop_isSome min_le_max _ _ _ ?_
  have := List.countP_le_length (p := subActive (min f t) (max f t)) (l := rang)
  omega

/-- More scans than are needed change nothing. -/
theorem subLoop_mono {fuel fuel' : ℕ} {ch : Bool} {out : List RangeT × Bool} (hle : fuel ≤ fuel')
    (h : subLoop f t fuel rang ch = some out) : subLoop f t fuel' rang ch = some out := by
  induction fuel generalizing fuel' rang ch with
  | zero => cases h
  | succ fuel ih =>
    obtain ⟨fuel', rfl⟩ : ∃ k, fuel' = k + 1 := ⟨fuel' - 1, by omega⟩
    rw [subLoop] at h ⊢
    cases hs : subScan f t [] rang with
    | done l => rwa [hs] at h
    | reloop l c =>
      rw [hs] at h
      exact ih (Nat.le_of_succ_le_succ hle) h

/-- An addition that finds an element it applies to appends nothing. -/
theorem length_rangesAdd {rw : Bool} (h : ∃ r ∈ rang, addCase (min f t) (max f t) r ≠ .apart) :
    (rangesAdd rang f t rw).rang.length = rang.length := by
  obtain ⟨r, hr, hne⟩ := h
  have hall : (rang.map (addCase (min f t) (max f t))).all (· = AddCase.apart) = false := by
    rw [List.all_map, List.all_eq_false]
    exact ⟨r, hr, by simpa using hne⟩
  rw [rangesAdd, rangesAbs_eq]
  dsimp only
  rw [hall, Bool.and_false, if_neg Bool.false_ne_true, List.length_map]

/-- A range cut at `f` is one an addition from `f` applies to. -/
theorem addCase_cut (hft : f ≤ t) (h : subSplits f t r = true) :
    addCase f t { r with to_ := f } ≠ .apart := by
  simp only [subSplits, decide_eq_true_eq] at h
  unfold addCase
  dsimp only
  split_ifs <;> grind

/-- So no scan makes the list longer. -/
theorem length_subScan_le (hft : f ≤ t) (rest pre : List RangeT) :
    (subScan f t pre rest).rang.length ≤ pre.length + rest.length := by
  induction rest generalizing pre with
  | nil => exact le_rfl
  | cons r rest ih =>
    rw [subScan, List.length_cons]
    generalize subTrim f t r = r
    dsimp only
    split_ifs with hd hs
    · rw [SubScan.rang, List.length_append]
      omega
    · have hlen : (rangesAdd (pre ++ { r with to_ := f } :: rest) t f true).rang.length =
          (pre ++ { r with to_ := f } :: rest).length := by
        refine length_rangesAdd ⟨_, List.mem_append_right _ List.mem_cons_self, ?_⟩
        rw [min_eq_right hft, max_eq_left hft]
        exact addCase_cut hft hs
      rw [SubScan.rang, hlen, List.length_append, List.length_cons]
    · have hstep := ih (pre ++ [r])
      rw [List.length_append, List.length_singleton] at hstep
      omega

/-- What the scans leave is a list the last of them went through to its
end, and no longer than the list given. -/
theorem subLoop_done (hft : f ≤ t) {fuel : ℕ} {ch ch' : Bool} {out : List RangeT}
    (h : subLoop f t fuel rang ch = some (out, ch')) :
    (∃ last, subScan f t [] last = .done out) ∧ out.length ≤ rang.length := by
  induction fuel generalizing rang ch with
  | zero => cases h
  | succ fuel ih =>
    have hlen := length_subScan_le hft rang []
    rw [List.length_nil, Nat.zero_add] at hlen
    rw [subLoop] at h
    cases hs : subScan f t [] rang with
    | done l =>
      rw [hs] at h hlen
      obtain ⟨rfl, -⟩ := Prod.mk.inj (Option.some.inj h)
      exact ⟨⟨rang, hs⟩, hlen⟩
    | reloop l c =>
      rw [hs] at h hlen
      obtain ⟨hlast, hout⟩ := ih h
      exact ⟨hlast, hout.trans hlen⟩

/-- **The scans of `ranges_sub` come to an end**, for every list and every
two ends. There is at most one for each range that makes the scan restart,
and one more, which goes through its list to the end; none of them makes
the list longer, so there are only so many turns in each. -/
theorem rangesSub_ends (rang : List RangeT) (f t : ut64) :
    ∃ scans out ch, scans ≤ rang.countP (subActive (min f t) (max f t)) + 1 ∧
      (∀ fuel, scans ≤ fuel → subLoop (min f t) (max f t) fuel rang false = some (out, ch)) ∧
      (∃ last, subScan (min f t) (max f t) [] last = .done out) ∧
      out.length ≤ rang.length ∧ rangesSub rang f t = some (out, ch) := by
  obtain ⟨⟨out, ch⟩, hloop⟩ := Option.isSome_iff_exists.mp
    (subLoop_isSome (min_le_max (a := f) (b := t)) _ rang false (Nat.lt_succ_self _))
  obtain ⟨hlast, hlen⟩ := subLoop_done min_le_max hloop
  refine ⟨_, out, ch, le_rfl, fun fuel hfuel => subLoop_mono hfuel hloop, hlast, hlen, ?_⟩
  rw [rangesSub, rangesAbs_eq]
  exact subLoop_mono (Nat.succ_le_succ List.countP_le_length) hloop

/-! ## The ranges it misses -/

/-- **A range `ranges_sub` gets wrong**: it has addresses to lose, and it
starts at `f`, ends at `t`, or goes beyond both. -/
def RangeT.Missed (f t : ut64) (r : RangeT) : Prop :=
  r.from_ < r.to_ ∧ r.from_ < t ∧ f < r.to_ ∧
    (r.from_ = f ∨ r.to_ = t ∨ (r.from_ < f ∧ t < r.to_))

theorem RangeT.Missed.subTrim_eq (h : r.Missed f t) : subTrim f t r = r := by
  obtain ⟨a, b⟩ := r
  unfold RangeT.Missed at h
  unfold subTrim
  split_ifs <;> grind

theorem RangeT.Missed.not_deletes (h : r.Missed f t) : subDeletes f t r = false := by
  unfold RangeT.Missed at h
  unfold subDeletes
  grind

/-- The interval taken in, a missed range is a missed range. -/
theorem RangeT.Missed.addCase (hft : f < t) (h : r.Missed f t) :
    ((addCase f t r).apply r).Missed f t := by
  have hwf : r.Wf := h.1.le
  rw [addCase_apply hwf hft.le]
  unfold absorb
  split_ifs
  · unfold RangeT.Missed RangeT.hull at *
    grind
  · exact h

/-- And so is a range cut at `f`, which is what a split comes to. -/
theorem missed_addCase_of_splits (hft : f < t) (h : subSplits f t r = true) :
    ((Radare.addCase f t { r with to_ := f }).apply { r with to_ := f }).Missed f t := by
  simp only [subSplits, decide_eq_true_eq] at h
  have hwf : RangeT.Wf { r with to_ := f } := h.1.le
  have hmeets : RangeT.Meets f t { r with to_ := f } := ⟨h.2.1.le, le_rfl⟩
  rw [addCase_apply hwf hft.le, absorb, if_pos hmeets]
  unfold RangeT.Missed RangeT.hull
  grind

/-- A missed range of the list is a missed range after an addition. -/
theorem exists_missed_rangesAdd (hft : f < t)
    (h : ∃ r ∈ rang, ((addCase f t r).apply r).Missed f t) :
    ∃ r ∈ (rangesAdd rang t f true).rang, r.Missed f t := by
  obtain ⟨r, hr, hm⟩ := h
  refine ⟨(addCase f t r).apply r, ?_, hm⟩
  rw [rangesAdd_rang_cases, min_eq_right hft.le, max_eq_left hft.le]
  exact List.mem_append_left _ (List.mem_map_of_mem hr)

/-- **A scan does not lose what it misses.** -/
theorem subScan_missed (hft : f < t) :
    ∀ (rest pre : List RangeT), (∃ r ∈ pre ++ rest, r.Missed f t) →
      ∃ r ∈ (subScan f t pre rest).rang, r.Missed f t := by
  intro rest
  induction rest with
  | nil => intro pre h; simpa [subScan, SubScan.rang] using h
  | cons r rest ih =>
    intro pre h
    have htrim : ∃ s ∈ pre ++ subTrim f t r :: rest, s.Missed f t := by
      obtain ⟨s, hs, hm⟩ := h
      rcases List.mem_append.mp hs with hs | hs
      · exact ⟨s, List.mem_append_left _ hs, hm⟩
      · rcases List.mem_cons.mp hs with rfl | hs
        · exact ⟨s, by rw [hm.subTrim_eq]; simp, hm⟩
        · exact ⟨s, by simp [hs], hm⟩
    rw [subScan]
    generalize subTrim f t r = r at htrim ⊢
    obtain ⟨s, hs, hm⟩ := htrim
    dsimp only
    split_ifs with hd hsp
    · refine ⟨s, ?_, hm⟩
      have hne : s ≠ r := by
        rintro rfl
        rw [hm.not_deletes] at hd
        exact absurd hd (by simp)
      simpa [SubScan.rang, hne] using hs
    · exact exists_missed_rangesAdd hft
        ⟨_, by simp, missed_addCase_of_splits hft hsp⟩
    · exact ih (pre ++ [r]) ⟨s, by simpa using hs, hm⟩

/-- Nor do the restarts. -/
theorem subLoop_missed (hft : f < t) :
    ∀ (fuel : ℕ) (rang out : List RangeT) (ch ch' : Bool), (∃ r ∈ rang, r.Missed f t) →
      subLoop f t fuel rang ch = some (out, ch') → ∃ r ∈ out, r.Missed f t := by
  intro fuel
  induction fuel with
  | zero => intro rang out ch ch' _ h; simp [subLoop] at h
  | succ fuel ih =>
    intro rang out ch ch' hm h
    have hscan := subScan_missed hft rang [] (by simpa using hm)
    rw [subLoop] at h
    cases hs : subScan f t [] rang with
    | done l =>
      simp only [hs, Option.some.injEq, Prod.mk.injEq] at h
      rw [← h.1]
      simpa [hs, SubScan.rang] using hscan
    | reloop l c =>
      rw [hs] at h hscan
      exact ih l out _ ch' hscan h

/-! ## The difference -/

/-- The range has nothing to lose. -/
def RangeT.Clear (f t : ut64) (r : RangeT) : Prop := ∀ x ∈ r.addrs, ¬ (f ≤ x ∧ x < t)

theorem subTrim_not_missed (h : ¬ r.Missed f t) : ¬ (subTrim f t r).Missed f t := by
  obtain ⟨a, b⟩ := r
  unfold RangeT.Missed at *
  unfold subTrim
  split_ifs <;> grind

/-- Trimming takes nothing from outside the interval. -/
theorem subTrim_outside (hx : ¬ (f ≤ x ∧ x < t)) : x ∈ (subTrim f t r).addrs ↔ x ∈ r.addrs := by
  obtain ⟨a, b⟩ := r
  simp only [RangeT.mem_addrs, subTrim]
  split_ifs <;> grind

/-- A split is of a missed range only. -/
theorem RangeT.Missed.of_splits (hft : f < t) (h : subSplits f t r = true) : r.Missed f t := by
  simp only [subSplits, decide_eq_true_eq] at h
  exact ⟨by order, h.2.1, h.2.2.1, Or.inr (Or.inr ⟨h.1, h.2.2.2⟩)⟩

/-- A deletion is of a range inside the interval. -/
theorem not_mem_addrs_of_deletes (h : subDeletes f t r = true) (hx : ¬ (f ≤ x ∧ x < t)) :
    x ∉ r.addrs := by
  simp only [subDeletes, decide_eq_true_eq] at h
  rintro ⟨hfx, hxt⟩
  exact hx ⟨by order, by order⟩

/-- **A range that is not missed is trimmed clear or deleted.** -/
theorem clear_subTrim (h : ¬ r.Missed f t)
    (hd : subDeletes f t (subTrim f t r) = false) : (subTrim f t r).Clear f t := by
  obtain ⟨a, b⟩ := r
  simp only [RangeT.Missed, RangeT.Clear, RangeT.mem_addrs, subTrim, subDeletes] at *
  split_ifs at * <;> grind

/-- What a scan of ranges it does not miss does: outside the interval the
list covers what it covered, and a scan that gets to the end leaves
nothing inside. -/
theorem subScan_difference (hft : f < t) :
    ∀ (rest pre : List RangeT), (∀ r ∈ pre, ¬ r.Missed f t ∧ r.Clear f t) →
      (∀ r ∈ rest, ¬ r.Missed f t) →
      (∀ r ∈ (subScan f t pre rest).rang, ¬ r.Missed f t) ∧
      (∀ x, ¬ (f ≤ x ∧ x < t) →
        (x ∈ covered (subScan f t pre rest).rang ↔ x ∈ covered (pre ++ rest))) ∧
      (∀ out, subScan f t pre rest = .done out → ∀ r ∈ out, r.Clear f t) := by
  intro rest
  induction rest with
  | nil =>
    intro pre hpre _
    refine ⟨fun r hr => (hpre r hr).1, fun x _ => by simp [subScan, SubScan.rang], ?_⟩
    intro out hout r hr
    rw [subScan, SubScan.done.injEq] at hout
    exact (hpre r (hout ▸ hr)).2
  | cons r rest ih =>
    intro pre hpre hrest
    obtain ⟨hr, hrest⟩ := List.forall_mem_cons.mp hrest
    have hnm := subTrim_not_missed hr
    have hout := fun x (hx : ¬ (f ≤ x ∧ x < t)) => subTrim_outside (r := r) hx
    have hclear := clear_subTrim hr
    rw [subScan]
    generalize subTrim f t r = r' at hnm hout hclear ⊢
    dsimp only
    split_ifs with hd hs
    · refine ⟨?_, ?_, fun out h => nomatch h⟩
      · intro s hs
        rcases List.mem_append.mp hs with hs | hs
        · exact (hpre s hs).1
        · exact hrest s hs
      · intro x hx
        have hno : x ∉ r.addrs := fun h => not_mem_addrs_of_deletes hd hx ((hout x hx).mpr h)
        simp [SubScan.rang, covered, hno]
    · exact absurd (RangeT.Missed.of_splits hft hs) hnm
    · have hc := hclear (by simpa using hd)
      obtain ⟨ih₁, ih₂, ih₃⟩ := ih (pre ++ [r']) (fun s hs => by
        rcases List.mem_append.mp hs with hs | hs
        · exact hpre s hs
        · rw [List.mem_singleton.mp hs]; exact ⟨hnm, hc⟩) hrest
      refine ⟨ih₁, fun x hx => ?_, ih₃⟩
      rw [ih₂ x hx]
      simp [covered, hout x hx]

/-- And the scans together. -/
theorem subLoop_difference (hft : f < t) :
    ∀ (fuel : ℕ) (rang out : List RangeT) (ch ch' : Bool), (∀ r ∈ rang, ¬ r.Missed f t) →
      subLoop f t fuel rang ch = some (out, ch') →
      ∀ x, x ∈ covered out ↔ x ∈ covered rang ∧ ¬ (f ≤ x ∧ x < t) := by
  intro fuel
  induction fuel with
  | zero => intro rang out ch ch' _ h; simp [subLoop] at h
  | succ fuel ih =>
    intro rang out ch ch' hm h x
    obtain ⟨hnm, hcov, hclear⟩ := subScan_difference hft rang [] (by simp) hm
    rw [subLoop] at h
    cases hs : subScan f t [] rang with
    | done l =>
      simp only [hs, Option.some.injEq, Prod.mk.injEq] at h
      obtain ⟨rfl, -⟩ := h
      by_cases hx : f ≤ x ∧ x < t
      · refine iff_of_false ?_ fun h => h.2 hx
        rintro ⟨r, hr, hxr⟩
        exact hclear l hs r hr x hxr hx
      · simpa [hs, SubScan.rang, hx] using hcov x hx
    | reloop l c =>
      rw [hs] at h hnm hcov
      rw [ih l out _ ch' hnm h x]
      exact and_congr_left fun hx => by simpa [SubScan.rang] using hcov x hx

/-- A missed range leaves an address of the interval covered, or a list
that is no difference. -/
theorem RangeT.Missed.exists_mem (hft : f < t) (h : r.Missed f t) :
    ∃ x ∈ r.addrs, f ≤ x ∧ x < t := by
  obtain ⟨a, b⟩ := r
  obtain ⟨hab, hat, hfb, -⟩ := h
  exact ⟨max a f, ⟨le_max_left _ _, max_lt hab hfb⟩, le_max_right _ _, max_lt hat hft⟩

/-- **`ranges_sub` is set difference exactly on the lists in which it
misses no range**: none that has addresses to lose starts at `from`, ends
at `to`, or goes beyond both. -/
theorem rangesSub_difference (rang : List RangeT) (f t : ut64) (hft : f < t) :
    (∃ out ch, rangesSub rang f t = some (out, ch) ∧
        ∀ x, (∃ r ∈ out, r.from_ ≤ x ∧ x < r.to_) ↔
          (∃ r ∈ rang, r.from_ ≤ x ∧ x < r.to_) ∧ ¬ (f ≤ x ∧ x < t)) ↔
      ∀ r ∈ rang, ¬ (r.from_ < r.to_ ∧ r.from_ < t ∧ f < r.to_ ∧
        (r.from_ = f ∨ r.to_ = t ∨ (r.from_ < f ∧ t < r.to_))) := by
  obtain ⟨⟨out, ch⟩, hsub⟩ := Option.isSome_iff_exists.mp (rangesSub_isSome rang f t)
  have hloop := hsub
  rw [rangesSub, rangesAbs_eq, min_eq_left hft.le, max_eq_right hft.le] at hloop
  constructor
  · rintro ⟨out', ch', hout, hdiff⟩ r hr hmissed
    obtain ⟨s, hs, hms⟩ := subLoop_missed hft _ rang out _ _ ⟨r, hr, hmissed⟩ hloop
    rw [hsub, Option.some.injEq, Prod.mk.injEq] at hout
    obtain ⟨x, hx, hfx⟩ := hms.exists_mem hft
    exact ((hdiff x).mp ⟨s, hout.1 ▸ hs, hx⟩).2 hfx
  · intro hm
    exact ⟨out, ch, hsub, subLoop_difference hft _ rang out _ _ hm hloop⟩

/-- The two halves of a range cut inside a longer one. -/
theorem rangesSub_difference_trims :
    ∃ out ch, rangesSub [⟨0, 10⟩, ⟨12, 14⟩, ⟨20, 30⟩] 5 25 = some (out, ch) ∧
      ∀ x, (∃ r ∈ out, r.from_ ≤ x ∧ x < r.to_) ↔
        (∃ r ∈ [(⟨0, 10⟩ : RangeT), ⟨12, 14⟩, ⟨20, 30⟩], r.from_ ≤ x ∧ x < r.to_) ∧
          ¬ (5 ≤ x ∧ x < 25) :=
  (rangesSub_difference _ 5 25 (by decide)).mpr (by decide)

/-- Taking `[3, 5)` from `[0, 10)` leaves `[0, 5)`: the interval is put
back, and the tail is lost. -/
theorem rangesSub_split_loses_tail :
    rangesSub [⟨0, 10⟩] 3 5 = some ([⟨0, 5⟩], false) ∧
      ¬ ∃ out ch, rangesSub [⟨0, 10⟩] 3 5 = some (out, ch) ∧
        ∀ x, (∃ r ∈ out, r.from_ ≤ x ∧ x < r.to_) ↔
          (∃ r ∈ [(⟨0, 10⟩ : RangeT)], r.from_ ≤ x ∧ x < r.to_) ∧ ¬ (3 ≤ x ∧ x < 5) := by
  have hrun : rangesSub [⟨0, 10⟩] 3 5 = some ([⟨0, 5⟩], false) := by decide
  refine ⟨hrun, ?_⟩
  rintro ⟨out, ch, hout, hdiff⟩
  rw [hrun, Option.some.injEq, Prod.mk.injEq] at hout
  obtain ⟨rfl, -⟩ := hout
  have hfour := (hdiff 4).mp ⟨⟨0, 5⟩, by simp, by decide⟩
  exact hfour.2 (by decide)

end Radare
