import Radare.Common.Cover
/-!
# The gaps between intervals

One sweep over a list of half-open intervals, with a cursor that starts at
`c`: an interval that starts ahead of the cursor and below `e` leaves the
gap up to its start, and the cursor goes to its end; any other is passed
over. What is left below `e` at the end is the last gap.

The gaps are the complement of the intervals in `[c, e)` if and only if no
interval that starts at the cursor or before it reaches beyond it, and each
gap is met by the intervals in order (`gaps_exact_iff`).
-/

namespace Radare

namespace Common

variable {α : Type*} [LinearOrder α] {e c x : α} {r : α × α} {l pre post : List (α × α)}

/-- The addresses between two ends. -/
def stretch (r : α × α) : Set α := Set.Ico r.1 r.2

/-- The gaps that a sweep leaves. -/
def gaps (e : α) : α → List (α × α) → List (α × α)
  | c, [] => if c < e then [(c, e)] else []
  | c, r :: l => if c < r.1 ∧ r.1 < e then (c, r.1) :: gaps e r.2 l else gaps e c l

/-- Where the cursor would have to be behind an interval. -/
def pushTo (e b : α) (r : α × α) : α := if r.1 < e then max b r.2 else b

/-- How far the intervals reach that start below `e`. -/
def reached (e c : α) (l : List (α × α)) : α := l.foldl (pushTo e) c

/-- An interval that a sweep comes to with the cursor at `b`: if it starts
there or before, it reaches no further; if it starts ahead, it is not upside
down, and nothing behind it is in the gap. -/
def SweptPast (b : α) (r : α × α) (post : List (α × α)) : Prop :=
  (r.1 ≤ b → r.2 ≤ b) ∧
    (b < r.1 → r.1 ≤ r.2 ∧ ∀ q ∈ post, ∀ x, b ≤ x → x < r.1 → x ∉ stretch q)

/-- Each interval that matters is passed as it should be. -/
def Swept (e c : α) (l : List (α × α)) : Prop :=
  ∀ pre r post, l = pre ++ r :: post → r.1 < e → reached e c pre < e →
    SweptPast (reached e c pre) r post

/-- The gaps are disjoint, and are all that the intervals leave of
`[c, e)`. -/
def GapsExact (e c : α) (l : List (α × α)) : Prop :=
  (gaps e c l).Pairwise (fun a b => Disjoint (stretch a) (stretch b)) ∧
    ∀ x, x ∈ cover stretch (gaps e c l) ↔ (c ≤ x ∧ x < e) ∧ x ∉ cover stretch l

/-! ## The cursor -/

theorem swept_nil : Swept e c [] := by
  intro pre r post h
  exact absurd h.symm (List.append_ne_nil_of_right_ne_nil _ (List.cons_ne_nil _ _))

/-- **A sweep, an interval at a time.** -/
theorem swept_cons :
    Swept e c (r :: l) ↔ (r.1 < e → c < e → SweptPast c r l) ∧ Swept e (pushTo e c r) l := by
  constructor
  · intro h
    exact ⟨h [] r l rfl, fun pre q post hl => h (r :: pre) q post (congrArg (r :: ·) hl)⟩
  · rintro ⟨hhead, htail⟩ pre q post hl
    cases pre with
    | nil =>
      obtain ⟨rfl, rfl⟩ := List.cons.inj hl
      exact hhead
    | cons p pre =>
      obtain ⟨rfl, rfl⟩ := List.cons.inj hl
      exact htail pre q post rfl

/-- Beyond `e` there is nothing left to do. -/
theorem gaps_of_le (h : e ≤ c) : gaps e c l = [] := by
  induction l with
  | nil => exact if_neg h.not_gt
  | cons r l ih =>
    rw [gaps, if_neg fun hr => (hr.1.trans hr.2).not_ge h]
    exact ih

/-- A gap is not empty. -/
theorem lt_of_mem_gaps {g : α × α} (h : g ∈ gaps e c l) : g.1 < g.2 := by
  induction l generalizing c with
  | nil =>
    rw [gaps] at h
    split_ifs at h with hc
    · rw [List.mem_singleton.mp h]
      exact hc
    · exact absurd h List.not_mem_nil
  | cons r l ih =>
    rw [gaps] at h
    split_ifs at h with hr
    · rcases List.mem_cons.mp h with rfl | hg
      · exact hr.1
      · exact ih hg
    · exact ih h

/-- Below `e` the cursor is in a gap. -/
theorem mem_gaps_cursor (h : c < e) : c ∈ cover stretch (gaps e c l) := by
  induction l with
  | nil =>
    rw [gaps, if_pos h]
    exact ⟨_, List.mem_singleton_self _, le_rfl, h⟩
  | cons r l ih =>
    rw [gaps]
    split_ifs with hr
    · exact ⟨_, List.mem_cons_self, le_rfl, hr.1⟩
    · exact ih

theorem le_pushTo : c ≤ pushTo e c r := by
  unfold pushTo
  split_ifs
  · exact le_max_left _ _
  · exact le_rfl

theorem swept_of_le (h : e ≤ c) : Swept e c l := by
  induction l generalizing c with
  | nil => exact swept_nil
  | cons r l ih => exact swept_cons.mpr ⟨fun _ hc => absurd h hc.not_ge, ih (h.trans le_pushTo)⟩

/-! ## Exactness -/

theorem gapsExact_nil : GapsExact e c [] := by
  unfold GapsExact gaps
  split_ifs with h
  · refine ⟨List.pairwise_singleton _ _, fun x => ?_⟩
    rw [cover_cons, cover_nil, Set.union_empty]
    exact (and_iff_left (Set.notMem_empty x)).symm
  · refine ⟨List.Pairwise.nil, fun x => ?_⟩
    rw [cover_nil]
    exact iff_of_false (Set.notMem_empty x) fun hx => h (hx.1.1.trans_lt hx.1.2)

theorem gapsExact_of_le (h : e ≤ c) : GapsExact e c l := by
  unfold GapsExact
  rw [gaps_of_le h]
  refine ⟨List.Pairwise.nil, fun x => ?_⟩
  rw [cover_nil]
  exact iff_of_false (Set.notMem_empty x) fun hx => (hx.1.1.trans_lt hx.1.2).not_ge h

/-- An interval without an address ahead of the cursor and below `e` does
not matter where it leaves no gap. -/
theorem gapsExact_cons_of_clear (hgaps : gaps e c (r :: l) = gaps e c l)
    (hclear : ∀ x, c ≤ x → x < e → x ∉ stretch r) : GapsExact e c (r :: l) ↔ GapsExact e c l := by
  unfold GapsExact
  rw [hgaps]
  refine and_congr_right fun _ => forall_congr' fun x => ?_
  have hside : (c ≤ x ∧ x < e) ∧ x ∉ cover stretch (r :: l) ↔
      (c ≤ x ∧ x < e) ∧ x ∉ cover stretch l := by
    refine and_congr_right fun hx => not_congr ?_
    rw [cover_cons]
    exact or_iff_right (hclear x hx.1 hx.2)
  rw [hside]

/-- An interval ahead of the cursor has a gap in front of it. -/
theorem gaps_cons_of_ahead (hc : c < r.1) (hto : r.1 < e) :
    gaps e c (r :: l) = (c, r.1) :: gaps e r.2 l := if_pos ⟨hc, hto⟩

theorem mem_gaps_of_ahead (hc : c < r.1) (hto : r.1 < e) :
    x ∈ cover stretch (gaps e c (r :: l)) ↔
      (c ≤ x ∧ x < r.1) ∨ x ∈ cover stretch (gaps e r.2 l) := by
  rw [gaps_cons_of_ahead hc hto, cover_cons]
  exact Iff.rfl

theorem mem_cover_stretch_cons :
    x ∈ cover stretch (r :: l) ↔ (r.1 ≤ x ∧ x < r.2) ∨ x ∈ cover stretch l := by
  rw [cover_cons]
  exact Iff.rfl

/-- Gaps that are exact are apart: the interval is not upside down, and none
behind it is in the gap. -/
theorem GapsExact.of_ahead (hc : c < r.1) (hto : r.1 < e) (h : GapsExact e c (r :: l)) :
    SweptPast c r l ∧ GapsExact e r.2 l := by
  obtain ⟨hdisj, hall⟩ := h
  rw [gaps_cons_of_ahead hc hto, List.pairwise_cons] at hdisj
  obtain ⟨hfirst, hrest⟩ := hdisj
  have hapart : ∀ x, c ≤ x → x < r.1 → x ∉ cover stretch (gaps e r.2 l) := by
    rintro x hcx hxr ⟨g, hg, hxg⟩
    exact Set.disjoint_left.mp (hfirst g hg) ⟨hcx, hxr⟩ hxg
  have hupright : r.1 ≤ r.2 := by
    by_contra hlt
    have hin := mem_gaps_cursor (l := l) ((not_le.mp hlt).trans hto)
    have hle := ((hall r.2).mp ((mem_gaps_of_ahead hc hto).mpr (Or.inr hin))).1.1
    exact hapart r.2 hle (not_le.mp hlt) hin
  refine ⟨⟨fun h => absurd h hc.not_ge, fun _ => ⟨hupright, ?_⟩⟩, hrest, fun x => ?_⟩
  · intro q hq x hcx hxr hxq
    refine ((hall x).mp ((mem_gaps_of_ahead hc hto).mpr (Or.inl ⟨hcx, hxr⟩))).2 ?_
    exact mem_cover_stretch_cons.mpr (Or.inr ⟨q, hq, hxq⟩)
  · constructor
    · intro hx
      obtain ⟨⟨hcx, hxto⟩, hno⟩ := (hall x).mp ((mem_gaps_of_ahead hc hto).mpr (Or.inr hx))
      rw [mem_cover_stretch_cons, not_or] at hno
      refine ⟨⟨?_, hxto⟩, hno.2⟩
      by_contra hlt
      have hxr : r.1 ≤ x := not_lt.mp fun hxr => hapart x hcx hxr hx
      exact hno.1 ⟨hxr, not_le.mp hlt⟩
    · rintro ⟨⟨hrx, hxto⟩, hno⟩
      have hxr : r.1 ≤ x := hupright.trans hrx
      have hnot : x ∉ cover stretch (r :: l) := by
        rw [mem_cover_stretch_cons, not_or]
        exact ⟨fun h => h.2.not_ge hrx, hno⟩
      have hin := (hall x).mpr ⟨⟨hc.le.trans hxr, hxto⟩, hnot⟩
      rcases (mem_gaps_of_ahead hc hto).mp hin with hx | hx
      · exact absurd hx.2 hxr.not_gt
      · exact hx

/-- And so they are exact where this is so, and those behind it are. -/
theorem GapsExact.ahead (hc : c < r.1) (hto : r.1 < e) (hpast : SweptPast c r l)
    (h : GapsExact e r.2 l) : GapsExact e c (r :: l) := by
  obtain ⟨hrest, hall⟩ := h
  obtain ⟨hupright, hno⟩ := hpast.2 hc
  have hbehind : ∀ x ∈ cover stretch (gaps e r.2 l), r.1 ≤ x := fun x hx =>
    hupright.trans ((hall x).mp hx).1.1
  refine ⟨?_, fun x => ?_⟩
  · rw [gaps_cons_of_ahead hc hto, List.pairwise_cons]
    refine ⟨fun g hg => Set.disjoint_left.mpr fun x hx hxg => ?_, hrest⟩
    exact hx.2.not_ge (hbehind x ⟨g, hg, hxg⟩)
  · rw [mem_gaps_of_ahead hc hto, mem_cover_stretch_cons, hall]
    constructor
    · rintro (⟨hcx, hxr⟩ | ⟨⟨hrx, hxto⟩, hxl⟩)
      · refine ⟨⟨hcx, hxr.trans hto⟩, not_or.mpr ⟨fun h => h.1.not_gt hxr, ?_⟩⟩
        rintro ⟨q, hq, hxq⟩
        exact hno q hq x hcx hxr hxq
      · refine ⟨⟨(hc.le.trans hupright).trans hrx, hxto⟩, not_or.mpr ⟨fun h => ?_, hxl⟩⟩
        exact h.2.not_ge hrx
    · rintro ⟨⟨hcx, hxto⟩, hno'⟩
      obtain ⟨hxr, hxl⟩ := not_or.mp hno'
      rcases lt_or_ge x r.1 with hlt | hge
      · exact Or.inl ⟨hcx, hlt⟩
      · exact Or.inr ⟨⟨not_lt.mp fun h => hxr ⟨hge, h⟩, hxto⟩, hxl⟩

/-- **An interval ahead of the cursor**: the gap in front of it is right,
and so are those behind it. -/
theorem gapsExact_cons_of_ahead (hc : c < r.1) (hto : r.1 < e) :
    GapsExact e c (r :: l) ↔ SweptPast c r l ∧ GapsExact e r.2 l :=
  ⟨GapsExact.of_ahead hc hto, fun h => h.2.ahead hc hto h.1⟩

/-- **When the gaps are the complement**: if and only if each interval is
passed as it should be. The induction is on the list, and the cursor is
where the intervals reach as long as all were. -/
theorem gaps_exact_iff : GapsExact e c l ↔ Swept e c l := by
  induction l generalizing c with
  | nil => exact iff_of_true gapsExact_nil swept_nil
  | cons r l ih =>
    rcases le_or_gt e c with hle | hlt
    · exact iff_of_true (gapsExact_of_le hle) (swept_of_le hle)
    rw [swept_cons, pushTo]
    rcases le_or_gt e r.1 with hfar | hnear
    · -- it starts behind `e`, and matters to neither
      rw [if_neg hfar.not_gt, gapsExact_cons_of_clear (if_neg fun h => h.2.not_ge hfar)
        fun x _ hx hr => (hr.1.trans_lt hx).not_ge hfar, ih]
      exact (and_iff_right fun h => absurd h hfar.not_gt).symm
    rw [if_pos hnear, forall_prop_of_true hnear, forall_prop_of_true hlt]
    rcases le_or_gt r.1 c with hbehind | hahead
    · have hgaps : gaps e c (r :: l) = gaps e c l := if_neg fun h => h.1.not_ge hbehind
      rcases le_or_gt r.2 c with hin | hout
      · have hclear : ∀ x, c ≤ x → x < e → x ∉ stretch r := fun x hx _ hr =>
          (hx.trans_lt hr.2).not_ge hin
        rw [max_eq_left hin, gapsExact_cons_of_clear hgaps hclear, ih]
        exact (and_iff_right ⟨fun _ => hin, fun h => absurd h hbehind.not_gt⟩).symm
      · -- the cursor is in the interval, and in a gap
        refine iff_of_false (fun h => ?_) fun h => (h.1.1 hbehind).not_gt hout
        have hcursor := mem_gaps_cursor (l := l) hlt
        rw [← hgaps] at hcursor
        exact ((h.2 c).mp hcursor).2 ⟨r, List.mem_cons_self, hbehind, hout⟩
    · rw [gapsExact_cons_of_ahead hahead hnear, ih]
      refine and_congr_right fun h => ?_
      rw [max_eq_right (hahead.le.trans (h.2 hahead).1)]

end Common

end Radare
