import Radare.Ranges.Add
import Mathlib.Data.Set.Card.Arithmetic
import Mathlib.Order.Interval.Finset.Nat
/-!
# What the list counts

`ranges_size` sums lengths, so it counts addresses only where the ranges
are disjoint. They are as long as each interval added touches at most one
of them, and then they stay apart, not only disjoint (`Apart`): the range
that takes the interval in touches nothing else. An interval that bridges
two of them makes both take it in (`not_disjointed_of_bridges`), and
since ranges only grow, two that overlap once overlap for good.
`build_counts` is the two together.
-/

namespace Radare

open Common

variable {rang : List RangeT} {r : RangeT} {f t x : ut64} {rw : Bool}

/-! ## Counting -/

/-- The ranges are pairwise disjoint. -/
def Disjointed (rang : List RangeT) : Prop :=
  rang.Pairwise fun a b => Disjoint a.addrs b.addrs

theorem image_toNat_Ico (a b : ut64) :
    UInt64.toNat '' Set.Ico a b = Set.Ico a.toNat b.toNat := by
  ext n
  constructor
  · rintro ⟨x, ⟨hax, hxb⟩, rfl⟩
    exact ⟨UInt64.le_iff_toNat_le.mp hax, UInt64.lt_iff_toNat_lt.mp hxb⟩
  · rintro ⟨han, hnb⟩
    have hn : (UInt64.ofNat n).toNat = n :=
      UInt64.toNat_ofNat_of_lt' (lt_trans hnb b.toNat_lt)
    refine ⟨UInt64.ofNat n, ⟨UInt64.le_iff_toNat_le.mpr ?_, UInt64.lt_iff_toNat_lt.mpr ?_⟩, hn⟩
    · rwa [hn]
    · rwa [hn]

/-- The addresses of an interval. -/
theorem ncard_Ico (a b : ut64) : (Set.Ico a b).ncard = b.toNat - a.toNat := by
  rw [← Set.ncard_image_of_injective _ (fun _ _ h => UInt64.toNat_inj.mp h), image_toNat_Ico,
    ← Finset.coe_Ico, Set.ncard_coe_finset, Nat.card_Ico]

theorem ncard_addrs (hr : r.Wf) : r.addrs.ncard = (r.to_ - r.from_).toNat := by
  rw [RangeT.addrs, ncard_Ico, UInt64.toNat_sub_of_le _ _ hr]

/-- No range holds the last address, so the sum does not wrap. -/
theorem ncard_covered_lt : (covered rang).ncard < 2 ^ 64 := by
  have hsub : covered rang ⊆ Set.Ico 0 (UInt64.ofNat (2 ^ 64 - 1)) := by
    rintro x ⟨r, -, -, hx⟩
    refine ⟨UInt64.zero_le, UInt64.lt_iff_toNat_lt.mpr ?_⟩
    have hx := UInt64.lt_iff_toNat_lt.mp hx
    have hto := r.to_.toNat_lt
    rw [UInt64.toNat_ofNat_of_lt' (by decide)]
    omega
  have hle := Set.ncard_le_ncard hsub (Set.toFinite _)
  rw [ncard_Ico, UInt64.toNat_ofNat_of_lt' (by decide)] at hle
  exact lt_of_le_of_lt hle (by decide)

/-- `ranges_size` is the sum of the lengths, in 64 bits. -/
theorem rangesSize_toNat (rang : List RangeT) :
    (rangesSize rang).toNat = (rang.map fun r => (r.to_ - r.from_).toNat).sum % 2 ^ 64 := by
  have hfold : ∀ (rang : List RangeT) (sum : ut64),
      (rang.foldl (fun sum r => sum + (r.to_ - r.from_)) sum).toNat =
        (sum.toNat + (rang.map fun r => (r.to_ - r.from_).toNat).sum) % 2 ^ 64 := by
    intro rang
    induction rang with
    | nil => intro sum; simp [Nat.mod_eq_of_lt sum.toNat_lt]
    | cons r rang ih =>
      intro sum
      rw [List.foldl_cons, ih, UInt64.toNat_add, List.map_cons, List.sum_cons,
        Nat.mod_add_mod, Nat.add_assoc]
  rw [rangesSize, hfold]
  simp

/-- **Over disjoint ranges `ranges_size` counts.** -/
theorem Disjointed.rangesSize_eq (hwf : ∀ r ∈ rang, r.Wf) (hd : Disjointed rang) :
    (rangesSize rang).toNat = {x | rangesGet rang x ≠ none}.ncard := by
  have hset : {x | rangesGet rang x ≠ none} = covered rang :=
    Set.ext fun x => rangesGet_ne_none
  have hmap : rang.map (fun r => (r.to_ - r.from_).toNat) = rang.map fun r => r.addrs.ncard :=
    List.map_congr_left fun r hr => (ncard_addrs (hwf r hr)).symm
  rw [hset, rangesSize_toNat, hmap, ← ncard_cover hd, Nat.mod_eq_of_lt ncard_covered_lt]

/-! ## Ranges apart -/

/-- The ranges are the right way round, and no two of them touch. -/
structure Apart (rang : List RangeT) : Prop where
  wf : ∀ r ∈ rang, r.Wf
  apart : rang.Pairwise fun a b => ¬ Touches a.from_ a.to_ b.from_ b.to_

theorem Apart.disjointed (h : Apart rang) : Disjointed rang :=
  h.apart.imp disjoint_of_not_touches

theorem apart_nil : Apart [] := ⟨by simp, List.Pairwise.nil⟩

/-- The ranges of the list that an interval touches. -/
def bridged (f t : ut64) (rang : List RangeT) : ℕ :=
  rang.countP fun r => r.Meets (min f t) (max f t)

/-- Two different elements are touched where the count says two. -/
theorem bridged_cons : bridged f t (r :: rang) =
    bridged f t rang + if r.Meets (min f t) (max f t) then 1 else 0 := by
  simp [bridged, List.countP_cons]

theorem bridged_eq_zero : bridged f t rang = 0 ↔ ∀ r ∈ rang, ¬ r.Meets (min f t) (max f t) := by
  simp [bridged, List.countP_eq_zero]

/-- A range that touches an interval at most one of the ranges touches
stays apart from the others with the interval taken in. -/
theorem absorb_apart {a b : RangeT} (ha : a.Wf) (hb : b.Wf)
    (hone : ¬ (a.Meets f t ∧ b.Meets f t)) (h : ¬ Touches a.from_ a.to_ b.from_ b.to_) :
    ¬ Touches (absorb f t a).from_ (absorb f t a).to_ (absorb f t b).from_ (absorb f t b).to_ := by
  unfold absorb
  split_ifs with hma hmb hmb
  · exact absurd ⟨hma, hmb⟩ hone
  · intro ht
    exact not_touches_hull hb hma (fun h' => h h'.symm) hmb ht.symm
  · exact not_touches_hull ha hmb h hma
  · exact h

/-- **An interval that touches at most one of the ranges keeps them
apart.** -/
theorem Apart.rangesAdd (h : Apart rang) (hone : bridged f t rang ≤ 1) :
    Apart (rangesAdd rang f t rw).rang := by
  refine ⟨rangesAdd_wf h.wf, ?_⟩
  have hmap : (rang.map (absorb (min f t) (max f t))).Pairwise
      fun a b => ¬ Touches a.from_ a.to_ b.from_ b.to_ := by
    obtain ⟨hwf, hp⟩ := h
    induction rang with
    | nil => simp
    | cons a rang ih =>
      rw [bridged_cons] at hone
      obtain ⟨ha, hwf⟩ := List.forall_mem_cons.mp hwf
      obtain ⟨hah, hp⟩ := List.pairwise_cons.mp hp
      rw [List.map_cons, List.pairwise_cons]
      refine ⟨?_, ih (by omega) hwf hp⟩
      intro b hb
      obtain ⟨b, hb', rfl⟩ := List.mem_map.mp hb
      refine absorb_apart ha (hwf b hb') ?_ (hah b hb')
      rintro ⟨hma, hmb⟩
      rw [if_pos hma] at hone
      exact bridged_eq_zero.mp (by omega) b hb' hmb
  rw [rangesAdd_rang h.wf, List.pairwise_append]
  refine ⟨hmap, by split_ifs <;> simp, ?_⟩
  intro a ha b hb
  split_ifs at hb with hc
  · obtain ⟨a, ha', rfl⟩ := List.mem_map.mp ha
    have hno := ((rangesAdd_changed h.wf).mp hc).2 a ha'
    rw [List.mem_singleton.mp hb, absorb, if_neg hno]
    exact hno
  · simp at hb

/-- Two ranges apart are bridged by a non-empty interval only. -/
theorem lt_of_bridges {a b : RangeT} (ha : a.Meets f t) (hb : b.Meets f t) (hft : f ≤ t)
    (h : ¬ Touches a.from_ a.to_ b.from_ b.to_) : f < t := by
  refine lt_of_le_of_ne hft ?_
  rintro rfl
  exact h ⟨ha.1.trans hb.2, hb.1.trans ha.2⟩

/-- **An interval that bridges two ranges apart makes them overlap.** -/
theorem not_disjointed_of_bridges (h : Apart rang) (htwo : 2 ≤ bridged f t rang) :
    ¬ Disjointed (rangesAdd rang f t rw).rang := by
  have hmap : ∀ rang : List RangeT,
      rang.Pairwise (fun a b => ¬ Touches a.from_ a.to_ b.from_ b.to_) → 2 ≤ bridged f t rang →
        ¬ Disjointed (rang.map (absorb (min f t) (max f t))) := by
    intro rang
    induction rang with
    | nil => intro _ htwo; simp [bridged] at htwo
    | cons a rang ih =>
      intro hp htwo hd
      rw [bridged_cons] at htwo
      obtain ⟨hah, hp⟩ := List.pairwise_cons.mp hp
      rw [Disjointed, List.map_cons, List.pairwise_cons] at hd
      by_cases hma : a.Meets (min f t) (max f t)
      · rw [if_pos hma] at htwo
        have hex : ∃ b ∈ rang, b.Meets (min f t) (max f t) := by
          by_contra hno
          push Not at hno
          have := bridged_eq_zero.mpr hno
          omega
        obtain ⟨b, hb, hmb⟩ := hex
        have hlt := lt_of_bridges hma hmb min_le_max (hah b hb)
        have hdis := hd.1 _ (List.mem_map_of_mem hb)
        rw [addrs_absorb hma, addrs_absorb hmb] at hdis
        have hin : ∀ s, min f t ∈ s ∪ Set.Ico (min f t) (max f t) :=
          fun s => Or.inr ⟨le_rfl, hlt⟩
        exact Set.disjoint_left.mp hdis (hin _) (hin _)
      · rw [if_neg hma] at htwo
        exact ih hp (by omega) hd.2
  rw [rangesAdd_rang h.wf]
  intro hd
  exact hmap rang h.apart htwo (List.pairwise_append.mp hd).1

/-- Ranges only grow. -/
theorem Disjointed.of_rangesAdd (hwf : ∀ r ∈ rang, r.Wf)
    (h : Disjointed (rangesAdd rang f t rw).rang) : Disjointed rang := by
  have hgrow : ∀ a : RangeT, a.addrs ⊆ (absorb (min f t) (max f t) a).addrs := by
    intro a
    by_cases hm : a.Meets (min f t) (max f t)
    · rw [addrs_absorb hm]; exact Set.subset_union_left
    · rw [absorb, if_neg hm]
  rw [Disjointed, rangesAdd_rang hwf] at h
  exact (List.pairwise_map.mp (List.pairwise_append.mp h).1).imp
    fun hab => hab.mono (hgrow _) (hgrow _)

/-! ## The two lists -/

/-- `ranges_size` counts the addresses `ranges_get` finds, and the ranges
are disjoint. -/
def Counts (rang : List RangeT) : Prop :=
  (rangesSize rang).toNat = {x | rangesGet rang x ≠ none}.ncard ∧ Disjointed rang

theorem Apart.counts (h : Apart rang) : Counts rang :=
  ⟨h.disjointed.rangesSize_eq h.wf, h.disjointed⟩

/-- Ranges that overlap, the right way round: a list that has them keeps
them. -/
structure Overlapping (rang : List RangeT) : Prop where
  wf : ∀ r ∈ rang, r.Wf
  overlap : ¬ Disjointed rang

theorem Overlapping.rangesAdd (h : Overlapping rang) : Overlapping (rangesAdd rang f t rw).rang :=
  ⟨rangesAdd_wf h.wf, fun hd => h.overlap (hd.of_rangesAdd h.wf)⟩

/-- **Merging a list apart into itself changes nothing**: each element
touches itself only. -/
theorem Apart.rangesMerge_eq (h : Apart rang) : rangesMerge rang = rang := by
  have hself : ∀ r ∈ rang, (Radare.rangesAdd rang r.from_ r.to_ false).rang = rang := by
    intro r hr
    have hkeep : ∀ a ∈ rang, absorb r.from_ r.to_ a = a := by
      intro a ha
      unfold absorb
      split_ifs with hm
      · have hsymm : Std.Symm fun a b : RangeT => ¬ Touches a.from_ a.to_ b.from_ b.to_ :=
          ⟨fun a b hab hba => hab hba.symm⟩
        have heq : a = r := by
          by_contra hne
          exact h.apart.forall ha hr hne hm
        simp [heq, RangeT.hull]
      · rfl
    have hmap : rang.map (absorb r.from_ r.to_) = rang := by
      rw [List.map_congr_left hkeep, List.map_id']
    have hch : (Radare.rangesAdd rang r.from_ r.to_ false).changed = false := by
      rw [← Bool.not_eq_true, rangesAdd_changed h.wf]
      simp
    rw [rangesAdd_rang h.wf, hch, min_eq_left (h.wf r hr), max_eq_right (h.wf r hr), hmap]
    simp
  have hfold : ∀ ks : List ℕ, ks.foldl mergeAt rang = rang := by
    intro ks
    induction ks with
    | nil => rfl
    | cons k ks ih =>
      have hk : mergeAt rang k = rang := by
        unfold mergeAt
        cases hg : rang[k]? with
        | none => rfl
        | some r => exact hself r (List.mem_of_getElem? hg)
      rw [List.foldl_cons, hk, ih]
  exact hfold _

/-- Merging a list that overlaps leaves one that does. -/
theorem Overlapping.rangesMerge (h : Overlapping rang) : Overlapping (rangesMerge rang) := by
  have hfold : ∀ (ks : List ℕ) (rang : List RangeT), Overlapping rang →
      Overlapping (ks.foldl mergeAt rang) := by
    intro ks
    induction ks with
    | nil => exact fun _ h => h
    | cons k ks ih =>
      intro rang h
      refine ih _ ?_
      unfold mergeAt
      cases rang[k]? with
      | none => exact h
      | some r => exact h.rangesAdd
  exact hfold _ rang h

/-- An interval apart from the one added bridges what it bridged. -/
theorem bridged_rangesAdd {s : RangeT} (hwf : ∀ r ∈ rang, r.Wf) (hr : r.Wf) (hs : s.Wf)
    (h : ¬ Touches r.from_ r.to_ s.from_ s.to_) :
    bridged s.from_ s.to_ (rangesAdd rang r.from_ r.to_ false).rang =
      bridged s.from_ s.to_ rang := by
  have hch : (Radare.rangesAdd rang r.from_ r.to_ false).changed = false := by
    rw [← Bool.not_eq_true, rangesAdd_changed hwf]
    simp
  rw [rangesAdd_rang hwf, hch, min_eq_left hr, max_eq_right hr, if_neg (by simp),
    List.append_nil, bridged, List.countP_map, bridged, min_eq_left hs, max_eq_right hs]
  refine List.countP_congr fun a _ => ?_
  simp only [Function.comp_apply, decide_eq_true_eq]
  unfold absorb
  split_ifs with hm
  · constructor
    · intro ht
      by_contra hno
      exact not_touches_hull hs hm (fun h' => hno h'.symm) (fun h' => h h'.symm) ht.symm
    · exact fun ht => ⟨(min_le_left _ _).trans ht.1, ht.2.trans (le_max_left _ _)⟩
  · exact Iff.rfl

/-- Merging into another list keeps it apart, if none of the ranges
bridges two of its own. -/
theorem Apart.rangesMergeInto {ranges : List RangeT} (hs : Apart ranges) (h : Apart rang)
    (hone : ∀ r ∈ ranges, bridged r.from_ r.to_ rang ≤ 1) :
    Apart (rangesMergeInto ranges rang) := by
  induction ranges generalizing rang with
  | nil => exact h
  | cons r ranges ih =>
    obtain ⟨hr, hwf⟩ := List.forall_mem_cons.mp hs.wf
    obtain ⟨hrs, hp⟩ := List.pairwise_cons.mp hs.apart
    obtain ⟨hone, hrest⟩ := List.forall_mem_cons.mp hone
    refine ih ⟨hwf, hp⟩ (h.rangesAdd hone) fun s hs => ?_
    rw [bridged_rangesAdd h.wf hr (hwf s hs) (hrs s hs)]
    exact hrest s hs

theorem Overlapping.rangesMergeInto {ranges : List RangeT} (h : Overlapping rang) :
    Overlapping (rangesMergeInto ranges rang) := by
  induction ranges generalizing rang with
  | nil => exact h
  | cons r ranges ih => exact ih h.rangesAdd

/-- And makes it overlap, if one does. -/
theorem overlapping_rangesMergeInto {ranges : List RangeT} (hs : Apart ranges) (h : Apart rang)
    (htwo : ∃ r ∈ ranges, 2 ≤ bridged r.from_ r.to_ rang) :
    Overlapping (rangesMergeInto ranges rang) := by
  induction ranges generalizing rang with
  | nil => simp at htwo
  | cons r ranges ih =>
    obtain ⟨hr, hwf⟩ := List.forall_mem_cons.mp hs.wf
    obtain ⟨hrs, hp⟩ := List.pairwise_cons.mp hs.apart
    by_cases hone : bridged r.from_ r.to_ rang ≤ 1
    · refine ih ⟨hwf, hp⟩ (h.rangesAdd hone) ?_
      obtain ⟨s, hs, hbs⟩ := htwo
      rcases List.mem_cons.mp hs with rfl | hs
      · omega
      · refine ⟨s, hs, ?_⟩
        rwa [bridged_rangesAdd h.wf hr (hwf s hs) (hrs s hs)]
    · have hover : Overlapping (Radare.rangesAdd rang r.from_ r.to_ false).rang :=
        ⟨rangesAdd_wf h.wf, not_disjointed_of_bridges h (not_le.mp hone)⟩
      exact hover.rangesMergeInto

/-! ## The run -/

/-- A call bridges no two ranges of the list it adds to. Merging the
global list into itself adds what it holds. -/
def BuildOp.Single (s : RangeLists) : BuildOp → Prop
  | .add f t => bridged f t s.ranges ≤ 1
  | .addTo f t => bridged f t s.rang ≤ 1
  | .merge => True
  | .mergeTo => ∀ r ∈ s.ranges, bridged r.from_ r.to_ s.rang ≤ 1

/-- Both lists are apart. -/
def RangeLists.Good (s : RangeLists) : Prop := Apart s.ranges ∧ Apart s.rang

/-- One of the two overlaps. -/
def RangeLists.Bad (s : RangeLists) : Prop := Overlapping s.ranges ∨ Overlapping s.rang

theorem RangeLists.Good.step {s : RangeLists} {op : BuildOp} (h : s.Good) (hop : op.Single s) :
    (op.step s).Good := by
  obtain ⟨h₁, h₂⟩ := h
  cases op with
  | add f t => exact ⟨h₁.rangesAdd hop, h₂⟩
  | addTo f t => exact ⟨h₁, h₂.rangesAdd hop⟩
  | merge =>
    refine ⟨?_, h₂⟩
    change Apart (rangesMerge s.ranges)
    rwa [h₁.rangesMerge_eq]
  | mergeTo => exact ⟨h₁, h₁.rangesMergeInto h₂ hop⟩

theorem RangeLists.Good.step_bad {s : RangeLists} {op : BuildOp} (h : s.Good)
    (hop : ¬ op.Single s) : (op.step s).Bad := by
  obtain ⟨h₁, h₂⟩ := h
  cases op with
  | add f t =>
    exact Or.inl ⟨rangesAdd_wf h₁.wf, not_disjointed_of_bridges h₁ (not_le.mp hop)⟩
  | addTo f t =>
    exact Or.inr ⟨rangesAdd_wf h₂.wf, not_disjointed_of_bridges h₂ (not_le.mp hop)⟩
  | merge => exact absurd trivial hop
  | mergeTo =>
    simp only [BuildOp.Single, not_forall, not_le] at hop
    obtain ⟨r, hr, hlt⟩ := hop
    exact Or.inr (overlapping_rangesMergeInto h₁ h₂ ⟨r, hr, hlt⟩)

theorem RangeLists.Bad.step {s : RangeLists} {op : BuildOp} (h : s.Bad) : (op.step s).Bad := by
  cases op with
  | add f t => exact h.imp_left fun h => h.rangesAdd
  | addTo f t => exact h.imp_right fun h => h.rangesAdd
  | merge => exact h.imp_left fun h => h.rangesMerge
  | mergeTo => exact h.imp_right fun h => h.rangesMergeInto

theorem build_concat (ops : List BuildOp) (op : BuildOp) :
    build (ops ++ [op]) = op.step (build ops) := by
  rw [build, List.foldl_append]
  rfl

/-- Every call of the run was single. -/
def Singles (ops : List BuildOp) : Prop :=
  ∀ pre op post, ops = pre ++ op :: post → op.Single (build pre)

theorem singles_concat {ops : List BuildOp} {op : BuildOp} :
    Singles (ops ++ [op]) ↔ Singles ops ∧ op.Single (build ops) := by
  constructor
  · refine fun h => ⟨fun pre o post heq => h pre o (post ++ [op]) ?_, h ops op [] rfl⟩
    rw [heq, List.append_assoc, List.cons_append]
  · rintro ⟨h, hop⟩ pre o post heq
    rcases List.eq_nil_or_concat post with rfl | ⟨post', o', rfl⟩
    · obtain ⟨rfl, ho⟩ := List.append_inj' heq rfl
      exact (List.cons.inj ho).1 ▸ hop
    · rw [List.concat_eq_append, ← List.cons_append, ← List.append_assoc] at heq
      obtain ⟨rfl, -⟩ := List.append_inj' heq rfl
      exact h pre o post' rfl

/-- A run of single calls keeps the lists apart, and any other makes one
overlap. -/
theorem build_good_or_bad (ops : List BuildOp) :
    (Singles ops → (build ops).Good) ∧ (¬ Singles ops → (build ops).Bad) := by
  induction ops using List.reverseRecOn with
  | nil =>
    refine ⟨fun _ => ⟨apart_nil, apart_nil⟩, fun h => absurd ?_ h⟩
    intro pre op post heq
    simp at heq
  | append_singleton ops op ih =>
    rw [build_concat, singles_concat]
    refine ⟨fun h => (ih.1 h.1).step h.2, fun h => ?_⟩
    by_cases hs : Singles ops
    · exact (ih.1 hs).step_bad fun hop => h ⟨hs, hop⟩
    · exact (ih.2 hs).step

/-- **The lists a run builds count their addresses exactly where no call
of it bridges two ranges**, those a `ranges_merge` makes among them. -/
theorem build_counts (ops : List BuildOp) :
    (Counts (build ops).ranges ∧ Counts (build ops).rang) ↔
      ∀ pre op post, ops = pre ++ op :: post → op.Single (build pre) := by
  constructor
  · rintro ⟨⟨-, h₁⟩, -, h₂⟩
    by_contra hno
    rcases (build_good_or_bad ops).2 hno with h | h
    · exact h.overlap h₁
    · exact h.overlap h₂
  · intro h
    obtain ⟨h₁, h₂⟩ := (build_good_or_bad ops).1 h
    exact ⟨h₁.counts, h₂.counts⟩

/-- Two ranges and an interval that touches both: ten addresses by
`ranges_size`, six by `ranges_get`. -/
theorem bridge_counts_twice :
    rangesSize (build [.add 0 2, .add 4 6, .add 1 5]).ranges = 10 ∧
      ¬ Counts (build [.add 0 2, .add 4 6, .add 1 5]).ranges := by
  have hbuild : (build [.add 0 2, .add 4 6, .add 1 5]).ranges = [⟨0, 5⟩, ⟨1, 6⟩] := by decide
  rw [hbuild]
  refine ⟨by decide, fun h => ?_⟩
  have hd := h.2
  rw [Disjointed, List.pairwise_pair] at hd
  exact Set.disjoint_left.mp hd (show (1 : ut64) ∈ Set.Ico 0 5 by decide)
    (show (1 : ut64) ∈ Set.Ico 1 6 by decide)

end Radare
