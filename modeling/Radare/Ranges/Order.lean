import Radare.Ranges.Sub
/-!
# `ranges_sort` and its flag

The sort itself is right (`moveSort_sorted`), but it is done under the
flag `ranges_changed` only, so the list has to be in order whenever the
flag is clear (`RangesState.Ordered`). An addition in place keeps the
order: an interval taken in lowers the ranges it meets to its own start
and no further. A subtraction in place need not: it moves the start of a
range that reaches beyond `to` up to `to`, past a range behind it that
ends there and is left alone.

`Misorders` is that case, read on the list before the call.
-/

namespace Radare

open Common

/-- The first half of a range cut in two. -/
def RangeT.cut (f : ut64) (r : RangeT) : RangeT := ⟨r.from_, f⟩

variable {rang out : List RangeT} {r : RangeT} {f t : ut64} {s s' : RangesState}

/-- The list is in the order `ranges_sort` puts it in. -/
def SortedFrom (rang : List RangeT) : Prop := rang.Pairwise fun a b => a.from_ ≤ b.from_

/-! ## Additions -/

/-- Taking the interval in does not reorder two ranges. -/
theorem absorb_from_le {a b : RangeT} (ha : a.Wf) (h : a.from_ ≤ b.from_) :
    (absorb f t a).from_ ≤ (absorb f t b).from_ := by
  have haw : a.from_ ≤ a.to_ := ha
  unfold absorb
  split_ifs with hma hmb hmb
  · exact min_le_min_right f h
  · exact (min_le_left _ _).trans h
  · -- the first range ends before the interval starts
    refine le_min h ?_
    by_contra hlt
    exact hma ⟨h.trans hmb.1, (not_le.mp hlt).le.trans haw⟩
  · exact h

theorem SortedFrom.map_absorb (hwf : ∀ r ∈ rang, r.Wf) (h : SortedFrom rang) :
    SortedFrom (rang.map (absorb f t)) := by
  refine List.pairwise_map.mpr (List.Pairwise.imp_of_mem ?_ h)
  intro a b ha _ hab
  exact absorb_from_le (hwf a ha) hab

/-- An addition that appends nothing keeps the order. -/
theorem SortedFrom.rangesAdd {rw : Bool} (hwf : ∀ r ∈ rang, r.Wf) (h : SortedFrom rang)
    (hch : (rangesAdd rang f t rw).changed = false) : SortedFrom (rangesAdd rang f t rw).rang := by
  rw [rangesAdd_rang hwf, hch, if_neg (by simp), List.append_nil]
  exact h.map_absorb hwf

/-- And so does a merge, which appends nothing at all. -/
theorem rangesMerge_ordered (hwf : ∀ r ∈ rang, r.Wf) :
    (∀ r ∈ rangesMerge rang, r.Wf) ∧ (SortedFrom rang → SortedFrom (rangesMerge rang)) := by
  have hfold : ∀ (ks : List ℕ) (rang : List RangeT), (∀ r ∈ rang, r.Wf) →
      (∀ r ∈ ks.foldl mergeAt rang, r.Wf) ∧
        (SortedFrom rang → SortedFrom (ks.foldl mergeAt rang)) := by
    intro ks
    induction ks with
    | nil => exact fun rang hwf => ⟨hwf, id⟩
    | cons k ks ih =>
      intro rang hwf
      have hturn : (∀ r ∈ mergeAt rang k, r.Wf) ∧
          (SortedFrom rang → SortedFrom (mergeAt rang k)) := by
        unfold mergeAt
        cases rang[k]? with
        | none => exact ⟨hwf, id⟩
        | some r =>
          have hch : (Radare.rangesAdd rang r.from_ r.to_ false).changed = false := by
            rw [← Bool.not_eq_true, rangesAdd_changed hwf]
            simp
          exact ⟨rangesAdd_wf hwf, fun h => h.rangesAdd hwf hch⟩
      obtain ⟨h₁, h₂⟩ := ih _ hturn.1
      exact ⟨h₁, h₂ ∘ hturn.2⟩
  exact hfold _ rang hwf

/-! ## Subtractions -/

/-- Trimming does not decide which of the last two cases applies. -/
theorem subDeletes_subTrim : subDeletes f t (subTrim f t r) = subDeletes f t r := by
  obtain ⟨a, b⟩ := r
  unfold subTrim subDeletes
  split_ifs <;> grind

theorem subSplits_subTrim : subSplits f t (subTrim f t r) = subSplits f t r := by
  obtain ⟨a, b⟩ := r
  unfold subTrim subSplits
  split_ifs <;> grind

theorem subTrim_wf (hr : r.Wf) : (subTrim f t r).Wf := by
  obtain ⟨a, b⟩ := r
  unfold RangeT.Wf at *
  unfold subTrim
  split_ifs <;> grind

/-- **How a scan ends.** At the head with every element trimmed, none of
them calling for a restart; or at the first that does, with it deleted,
or cut and the interval added. -/
theorem subScan_cases (f t : ut64) : ∀ rest pre : List RangeT,
    (subScan f t pre rest = .done (pre ++ rest.map (subTrim f t)) ∧
        ∀ r ∈ rest, subDeletes f t r = false ∧ subSplits f t r = false) ∨
      ∃ p r q, rest = p ++ r :: q ∧
        ((subDeletes f t r = true ∧
            subScan f t pre rest = .reloop (pre ++ p.map (subTrim f t) ++ q) true) ∨
          (subSplits f t r = true ∧ ∃ add,
            add = rangesAdd (pre ++ p.map (subTrim f t) ++ (subTrim f t r).cut f :: q)
              t f true ∧
            subScan f t pre rest = .reloop add.rang add.changed)) := by
  intro rest
  induction rest with
  | nil => intro pre; left; simp [subScan]
  | cons r rest ih =>
    intro pre
    rw [subScan]
    simp only [subDeletes_subTrim, subSplits_subTrim]
    by_cases hd : subDeletes f t r = true
    · exact Or.inr ⟨[], r, rest, rfl, Or.inl ⟨hd, by simp [hd]⟩⟩
    · by_cases hs : subSplits f t r = true
      · exact Or.inr ⟨[], r, rest, rfl, Or.inr ⟨hs, _, rfl, by simp [hd, hs, RangeT.cut]⟩⟩
      · rw [if_neg hd, if_neg hs]
        rcases ih (pre ++ [subTrim f t r]) with ⟨hdone, hno⟩ | ⟨p, r', q, rfl, h⟩
        · left
          refine ⟨by simpa using hdone, List.forall_mem_cons.mpr ⟨?_, hno⟩⟩
          exact ⟨by simpa using hd, by simpa using hs⟩
        · right
          exact ⟨r :: p, r', q, rfl, by simpa using h⟩

/-- What a split hands to `ranges_add` is the right way round. -/
theorem cut_wf {p q : List RangeT} (hwf : ∀ s ∈ p ++ r :: q, s.Wf)
    (hs : subSplits f t r = true) :
    ∀ s ∈ p.map (subTrim f t) ++ (subTrim f t r).cut f :: q, s.Wf := by
  obtain ⟨hp, hq⟩ := List.forall_mem_append.mp hwf
  refine List.forall_mem_append.mpr ⟨?_, List.forall_mem_cons.mpr ⟨?_, ?_⟩⟩
  · intro s hs
    obtain ⟨a, ha, rfl⟩ := List.mem_map.mp hs
    exact subTrim_wf (hp a ha)
  · rw [← subSplits_subTrim] at hs
    simp only [subSplits, decide_eq_true_eq] at hs
    exact hs.1.le
  · exact (List.forall_mem_cons.mp hq).2

/-- A scan keeps its ranges the right way round. -/
theorem subScan_wf (hwf : ∀ r ∈ rang, r.Wf) : ∀ r ∈ (subScan f t [] rang).rang, r.Wf := by
  rcases subScan_cases f t rang [] with ⟨h, -⟩ | ⟨p, r, q, rfl, ⟨-, h⟩ | ⟨hs, add, rfl, h⟩⟩
  · rw [h]
    intro s hs
    obtain ⟨a, ha, rfl⟩ := List.mem_map.mp hs
    exact subTrim_wf (hwf a ha)
  · rw [h]
    obtain ⟨hp, hq⟩ := List.forall_mem_append.mp hwf
    refine List.forall_mem_append.mpr ⟨?_, (List.forall_mem_cons.mp hq).2⟩
    intro s hs
    obtain ⟨a, ha, rfl⟩ := List.mem_map.mp hs
    exact subTrim_wf (hp a ha)
  · rw [h]
    exact rangesAdd_wf (cut_wf hwf hs)

/-- **A pair a subtraction puts in the wrong order**: the first range is
moved up to `t`, the second starts before `t` and stays where it is. -/
def Crosses (f t : ut64) (a b : RangeT) : Prop :=
  (f < a.from_ ∧ a.from_ < t ∧ t < a.to_) ∧ f < b.from_ ∧ b.from_ < t ∧ b.to_ = t

instance (f t : ut64) (a b : RangeT) : Decidable (Crosses f t a b) :=
  inferInstanceAs (Decidable (_ ∧ _))

/-- **The order a subtraction breaks unseen**: no range is deleted or cut
in two, and two ranges cross. -/
def Misorders (f t : ut64) (rang : List RangeT) : Prop :=
  (∀ r ∈ rang, subDeletes f t r = false ∧ subSplits f t r = false) ∧
    ¬ rang.Pairwise fun a b => ¬ Crosses f t a b

instance (f t : ut64) (rang : List RangeT) : Decidable (Misorders f t rang) :=
  inferInstanceAs (Decidable (_ ∧ _))

/-- Trimming keeps two ranges in order that do not cross. -/
theorem subTrim_from_le {a b : RangeT} (hb : b.Wf) (hdel : subDeletes f t b = false)
    (hab : a.from_ ≤ b.from_) (hc : ¬ Crosses f t a b) :
    (subTrim f t a).from_ ≤ (subTrim f t b).from_ := by
  obtain ⟨a₁, a₂⟩ := a
  obtain ⟨b₁, b₂⟩ := b
  simp only [RangeT.Wf, Crosses, subDeletes, subTrim] at *
  split_ifs <;> grind

/-- No range starts inside the interval. -/
def Outside (f t : ut64) (rang : List RangeT) : Prop :=
  ∀ r ∈ rang, ¬ (f < r.from_ ∧ r.from_ < t)

/-- The start of an absorbed range is what it was before the trimming, or
the start of the interval. -/
theorem absorb_subTrim_from (hr : r.Wf) :
    (absorb f t (subTrim f t r)).from_ = (absorb f t r).from_ := by
  obtain ⟨a, b⟩ := r
  simp only [RangeT.Wf, absorb, RangeT.Meets, Touches, RangeT.hull, subTrim] at *
  split_ifs <;> grind

/-- So is that of a range cut in two. -/
theorem absorb_cut_from (hs : subSplits f t r = true) :
    (absorb f t ((subTrim f t r).cut f)).from_ = (absorb f t r).from_ := by
  obtain ⟨a, b⟩ := r
  simp only [subSplits, decide_eq_true_eq] at hs
  simp only [RangeT.cut, absorb, RangeT.Meets, Touches, RangeT.hull, subTrim] at *
  split_ifs <;> grind

theorem absorb_outside (hr : r.Wf) :
    ¬ (f < (absorb f t r).from_ ∧ (absorb f t r).from_ < t) := by
  obtain ⟨a, b⟩ := r
  simp only [RangeT.Wf, absorb, RangeT.Meets, Touches, RangeT.hull] at *
  split_ifs <;> grind

/-- **A split that appends nothing leaves the starts an absorption would
have left.** -/
theorem split_starts {p q : List RangeT} (hft : f ≤ t) (hwf : ∀ s ∈ p ++ r :: q, s.Wf)
    (hs : subSplits f t r = true)
    (hch : (rangesAdd (p.map (subTrim f t) ++ (subTrim f t r).cut f :: q)
      t f true).changed = false) :
    (rangesAdd (p.map (subTrim f t) ++ (subTrim f t r).cut f :: q) t f true).rang.map
        RangeT.from_ = (p ++ r :: q).map fun a => (absorb f t a).from_ := by
  obtain ⟨hp, -⟩ := List.forall_mem_append.mp hwf
  have hpre : (p.map fun a => (absorb f t (subTrim f t a)).from_) =
      p.map fun a => (absorb f t a).from_ :=
    List.map_congr_left fun a ha => absorb_subTrim_from (hp a ha)
  rw [rangesAdd_rang (cut_wf hwf hs), hch, min_eq_right hft, max_eq_left hft, if_neg (by simp),
    List.append_nil]
  simp only [List.map_append, List.map_cons, List.map_map, Function.comp_def, hpre,
    absorb_cut_from hs]

theorem sortedFrom_iff : SortedFrom rang ↔ (rang.map RangeT.from_).Pairwise (· ≤ ·) :=
  List.pairwise_map.symm

theorem Outside.not_misorders (h : Outside f t rang) : ¬ Misorders f t rang := by
  rintro ⟨-, hc⟩
  refine hc (List.Pairwise.imp_of_mem ?_ (List.pairwise_of_forall (fun _ _ => trivial)))
  intro a b ha _ _ hab
  exact h a ha ⟨hab.1.1, hab.1.2.1⟩

/-- A flag that is set stays set. -/
theorem subLoop_changed : ∀ (fuel : ℕ) (rang : List RangeT) (ch : Bool),
    subLoop f t fuel rang true = some (out, ch) → ch = true := by
  intro fuel
  induction fuel with
  | zero => intro rang ch h; simp [subLoop] at h
  | succ fuel ih =>
    intro rang ch h
    rw [subLoop] at h
    cases hs : subScan f t [] rang with
    | done l =>
      rw [hs] at h
      simp only [Option.some.injEq, Prod.mk.injEq] at h
      exact h.2.symm
    | reloop l c =>
      rw [hs] at h
      exact ih l ch h

/-- **A subtraction that leaves the flag clear keeps the order**, unless
it misorders the list it is given. -/
theorem subLoop_sorted (hft : f ≤ t) :
    ∀ (fuel : ℕ) (rang : List RangeT) (ch : Bool), (∀ r ∈ rang, r.Wf) → SortedFrom rang →
      ¬ Misorders f t rang → subLoop f t fuel rang ch = some (out, false) → SortedFrom out := by
  intro fuel
  induction fuel with
  | zero => intro rang ch _ _ _ h; simp [subLoop] at h
  | succ fuel ih =>
    intro rang ch hwf hsort hmis h
    have hwf' := subScan_wf (f := f) (t := t) hwf
    rw [subLoop] at h
    rcases subScan_cases f t rang [] with
      ⟨hs, hno⟩ | ⟨p, r, q, rfl, ⟨-, hs⟩ | ⟨hspl, add, rfl, hs⟩⟩
    · -- the scan gets to the end, and no two ranges cross
      have hcross : rang.Pairwise fun a b => ¬ Crosses f t a b := by
        by_contra hc
        exact hmis ⟨hno, hc⟩
      simp only [hs, Option.some.injEq, Prod.mk.injEq] at h
      rw [← h.1]
      refine List.pairwise_map.mpr (List.Pairwise.imp_of_mem ?_ (hsort.and hcross))
      intro a b _ hb hab
      exact subTrim_from_le (hwf b hb) (hno b hb).1 hab.1 hab.2
    · -- a deletion sets the flag
      simp only [hs, Bool.or_true] at h
      exact absurd (subLoop_changed _ _ _ h) (by simp)
    · -- a split leaves no start inside the interval
      rw [hs] at h hwf'
      simp only [List.nil_append, SubScan.rang] at h hwf'
      cases hch : (rangesAdd (p.map (subTrim f t) ++ (subTrim f t r).cut f :: q)
          t f true).changed with
      | true =>
        simp only [hch, Bool.or_true] at h
        exact absurd (subLoop_changed _ _ _ h) (by simp)
      | false =>
        have hstarts := split_starts hft hwf hspl hch
        refine ih _ _ hwf' ?_ (Outside.not_misorders ?_) h
        · rw [sortedFrom_iff, hstarts]
          simpa only [List.map_map, Function.comp_def] using
            sortedFrom_iff.mp (hsort.map_absorb hwf)
        · intro s hs'
          have hmem := List.mem_map_of_mem (f := RangeT.from_) hs'
          rw [hstarts] at hmem
          obtain ⟨a, ha, hfrom⟩ := List.mem_map.mp hmem
          rw [← hfrom]
          exact absorb_outside (hwf a ha)

theorem subLoop_wf : ∀ (fuel : ℕ) (rang : List RangeT) (ch ch' : Bool), (∀ r ∈ rang, r.Wf) →
    subLoop f t fuel rang ch = some (out, ch') → ∀ r ∈ out, r.Wf := by
  intro fuel
  induction fuel with
  | zero => intro rang ch ch' _ h; simp [subLoop] at h
  | succ fuel ih =>
    intro rang ch ch' hwf h
    have hwf' := subScan_wf (f := f) (t := t) hwf
    rw [subLoop] at h
    cases hs : subScan f t [] rang with
    | done l =>
      rw [hs] at h hwf'
      simp only [Option.some.injEq, Prod.mk.injEq] at h
      rw [← h.1]
      exact hwf'
    | reloop l c =>
      rw [hs] at h hwf'
      exact ih l _ ch' hwf' h

/-! ## The sort -/

/-- **`ranges_sort` ends**, keeps the ranges, and under a set flag sorts
them. -/
theorem rangesSort_cases (s : RangesState) :
    ∃ s', rangesSort s = some s' ∧ s'.ranges.Perm s.ranges ∧
      ((s.changed = false ∧ s' = s) ∨ (s.changed = true ∧ SortedFrom s'.ranges)) := by
  unfold rangesSort
  cases hch : s.changed with
  | false => exact ⟨s, by simp, List.Perm.refl _, Or.inl ⟨rfl, rfl⟩⟩
  | true =>
    obtain ⟨l, ch, hl, hsort, hperm⟩ := moveSort_zip RangeT.from_ s.ranges
    exact ⟨⟨l.map Prod.snd, ch⟩, by simp [hl], hperm, Or.inr ⟨rfl, hsort⟩⟩

/-! ## The run -/

/-- What holds between the calls: the ranges are the right way round, and
in order where the flag is clear. -/
structure RangesState.Ordered (s : RangesState) : Prop where
  wf : ∀ r ∈ s.ranges, r.Wf
  sorted : s.changed = false → SortedFrom s.ranges

/-- A call does not break an order the flag says there is. -/
def RangesOp.Keeps (s : RangesState) : RangesOp → Prop
  | .sub f t => s.changed = false → ¬ Misorders (min f t) (max f t) s.ranges
  | _ => True

/-- **Every call ends, and keeps what holds between the calls.** -/
theorem RangesState.Ordered.step {op : RangesOp} (h : s.Ordered) (hop : op.Keeps s) :
    ∃ s', op.step s = some s' ∧ s'.Ordered := by
  obtain ⟨hwf, hsort⟩ := h
  cases op with
  | add f t =>
    refine ⟨_, rfl, rangesAdd_wf hwf, fun hch => ?_⟩
    rw [Bool.or_eq_false_iff] at hch
    exact (hsort hch.1).rangesAdd hwf hch.2
  | sub f t =>
    obtain ⟨⟨out, ch⟩, hsub⟩ :=
      Option.isSome_iff_exists.mp (rangesSub_isSome s.ranges f t)
    refine ⟨⟨out, s.changed || ch⟩, by simp [RangesOp.step, hsub], ?_, fun hch => ?_⟩
    · rw [rangesSub, rangesAbs_eq] at hsub
      exact subLoop_wf _ _ _ _ hwf hsub
    · rw [Bool.or_eq_false_iff] at hch
      rw [rangesSub, rangesAbs_eq, hch.2] at hsub
      exact subLoop_sorted min_le_max _ _ _ hwf (hsort hch.1) (hop hch.1) hsub
  | merge =>
    exact ⟨_, rfl, (rangesMerge_ordered hwf).1, fun hch => (rangesMerge_ordered hwf).2 (hsort hch)⟩
  | free => exact ⟨_, rfl, by simp, fun _ => List.Pairwise.nil⟩
  | sort =>
    obtain ⟨s', hs', hperm, ⟨hch, rfl⟩ | ⟨-, hs⟩⟩ := rangesSort_cases s
    · exact ⟨s', hs', hwf, hsort⟩
    · exact ⟨s', hs', fun r hr => hwf r (hperm.mem_iff.mp hr), fun _ => hs⟩

/-- After a sort the list is in order. -/
theorem RangesState.Ordered.sort (h : s.Ordered) :
    ∃ s', rangesSort s = some s' ∧ SortedFrom s'.ranges := by
  obtain ⟨s', hs', -, ⟨hch, rfl⟩ | ⟨-, hs⟩⟩ := rangesSort_cases s
  · exact ⟨s', hs', h.sorted hch⟩
  · exact ⟨s', hs', hs⟩

theorem rangesRun_concat (ops : List RangesOp) (op : RangesOp) :
    rangesRun (ops ++ [op]) = (rangesRun ops).bind op.step := by
  rw [rangesRun, List.foldlM_append]
  simp only [rangesRun, List.foldlM_cons, List.foldlM_nil]
  cases List.foldlM RangesOp.step {} ops <;> simp

/-- The invariant over a run. -/
theorem rangesRun_ordered (ops : List RangesOp)
    (h : ∀ pre op post s, ops = pre ++ op :: post → rangesRun pre = some s → op.Keeps s) :
    ∃ s, rangesRun ops = some s ∧ s.Ordered := by
  induction ops using List.reverseRecOn with
  | nil => exact ⟨{}, rfl, by simp, fun _ => List.Pairwise.nil⟩
  | append_singleton ops op ih =>
    obtain ⟨s, hs, hord⟩ := ih fun pre o post s heq =>
      h pre o (post ++ [op]) s (by rw [heq, List.append_assoc, List.cons_append])
    obtain ⟨s', hs', hord'⟩ := hord.step (h ops op [] s rfl hs)
    exact ⟨s', by rw [rangesRun_concat, hs]; exact hs', hord'⟩

/-- **After `ranges_sort` the list is in order**, in every run in which no
`ranges_sub` misorders a list whose flag is clear. -/
theorem rangesRun_sort_sorted (ops : List RangesOp)
    (h : ∀ pre f t post s, ops = pre ++ .sub f t :: post → rangesRun pre = some s →
      s.changed = false → ¬ Misorders (min f t) (max f t) s.ranges) :
    ∃ s, rangesRun (ops ++ [.sort]) = some s ∧
      s.ranges.Pairwise fun a b => a.from_ ≤ b.from_ := by
  obtain ⟨s, hs, hord⟩ := rangesRun_ordered ops fun pre op post s heq hs => by
    cases op with
    | sub f t => exact h pre f t post s heq hs
    | _ => exact trivial
  obtain ⟨s', hs', hsort⟩ := hord.sort
  exact ⟨s', by rw [rangesRun_concat, hs]; exact hs', hsort⟩

/-- Two ranges from one start, trimmed under a clear flag. -/
theorem rangesRun_sort_sorted_trims :
    ∃ s, rangesRun ([.add 17 18, .add 15 16, .add 10 17, .sort, .sub 5 12] ++ [.sort]) = some s ∧
      s.ranges.Pairwise fun a b => a.from_ ≤ b.from_ := by
  refine rangesRun_sort_sorted _ fun pre f t post s heq hs _ => ?_
  have hrun : rangesRun [.add 17 18, .add 15 16, .add 10 17, .sort] =
      some ⟨[⟨10, 18⟩, ⟨10, 17⟩], false⟩ := by
    decide
  rcases pre with _ | ⟨_, _ | ⟨_, _ | ⟨_, _ | ⟨_, _ | ⟨_, pre⟩⟩⟩⟩⟩ <;> simp at heq
  obtain ⟨rfl, rfl, rfl, rfl, ⟨rfl, rfl⟩, -⟩ := heq
  obtain rfl := Option.some.inj (hrun.symm.trans hs)
  decide

/-- **The order broken under a clear flag**: the second `ranges_sort` does
nothing, and `[17, 18)` stands before `[10, 17)`. -/
theorem sort_skipped_unsorted :
    ∃ s, rangesRun [.add 17 18, .add 15 16, .add 10 17, .sort, .sub 5 17, .sort] = some s ∧
      ¬ s.ranges.Pairwise fun a b => a.from_ ≤ b.from_ := by
  refine ⟨⟨[⟨17, 18⟩, ⟨10, 17⟩], false⟩, by decide, by decide⟩

end Radare
