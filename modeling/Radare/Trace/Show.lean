import Radare.Common.Trail
import Radare.Trace.Sort
/-!
# The trace listed

`trace_show` prints the traced code as intervals: from an address it goes to
the end of the opcode there as long as a record starts at this end
(`trace_range`), and then on to the next record (`trace_next`). It begins at
the lowest address of all records, whatever their tags, and takes an address
0 for none. So what it prints is a trail through the records with the tag
(`cover_showLoop`), and `traceShow_union_iff` is when all of them are on it.
-/

namespace Radare

open Common

/-! ## The code -/

/-- The test for a tag. -/
def TraceT.carries (undef : ℤ → ut64) (tag : ℤ) (h : TraceT) : Bool :=
  ¬(tag ≠ -1 ∧ h.tags &&& shiftOne undef tag = 0)

/-- The loop of `trace_range`, in at most so many turns. -/
def traceRangeLoop (undef : ℤ → ut64) (s : TraceState) (tag : ℤ) : ℕ → ut64 → ut64 → Option ut64
  | 0, _, _ => none
  | fuel + 1, last, last2 =>
    if last = last2 then some last
    else
      match traceGet undef s last tag with
      | some h =>
        if !h.carries undef tag then traceRangeLoop undef s tag fuel last last
        else traceRangeLoop undef s tag fuel (last + UInt64.ofInt h.opsize) last
      | none => traceRangeLoop undef s tag fuel last last

/-- `trace_range`. -/
def traceRange (undef : ℤ → ut64) (s : TraceState) (fuel : ℕ) (from_ : ut64) (tag : ℤ) :
    Option ut64 :=
  traceRangeLoop undef s tag fuel from_ 0

/-- A turn of the loop of `trace_next`. -/
def nextTurn (undef : ℤ → ut64) (tag : ℤ) (from_ next : ut64) (h : TraceT) : ut64 :=
  if !h.carries undef tag then next
  else if h.addr > from_ ∧ h.addr < next then h.addr else next

/-- `trace_next`. -/
def traceNext (undef : ℤ → ut64) (s : TraceState) (from_ : ut64) (tag : ℤ) : ut64 :=
  let next := s.traces.foldl (nextTurn undef tag from_) 0xFFFFFFFFFFFFFFFF
  if next = 0xFFFFFFFFFFFFFFFF then 0 else next

/-- A turn of the first loop of `trace_show`. -/
def startTurn (from_ : ut64) (h : TraceT) : ut64 :=
  let from_ := if from_ = 0 then h.addr else from_
  if h.addr < from_ then h.addr else from_

/-- The other loop, in at most so many turns: the intervals printed. -/
def showLoop (undef : ℤ → ut64) (s : TraceState) (tag : ℤ) : ℕ → ut64 → Option (List (ut64 × ut64))
  | 0, _ => none
  | fuel + 1, from_ =>
    if from_ = 0 then some []
    else do
      let last ← traceRange undef s fuel from_ tag
      if last = from_ then some []
      else do
        let lines ← showLoop undef s tag fuel (traceNext undef s last tag)
        some ((from_, last) :: lines)

/-- `trace_show(0, tag)`. -/
def traceShow (undef : ℤ → ut64) (fuel : ℕ) (s : TraceState) (tag : ℤ) :
    Option (List (ut64 × ut64)) := do
  let s ← traceSort s
  showLoop undef s tag fuel (s.traces.foldl startTurn 0)

/-! ## What is to be shown -/

/-- The addresses of an opcode: where it starts and ends. -/
def TraceT.span (h : TraceT) : ℕ × ℕ := (h.addr.toNat, h.addr.toNat + h.opsize.toNat)

/-- The opcodes with a tag. -/
def spans (undef : ℤ → ut64) (tag : ℤ) (traces : List TraceT) : List (ℕ × ℕ) :=
  (traces.filter (TraceT.carries undef tag)).map TraceT.span

/-- The addresses that lines are about. -/
def listed (lines : List (ut64 × ut64)) : Set ℕ :=
  cover (fun line => Set.Ico line.1.toNat line.2.toNat) lines

/-- `trace_show` ends, and shows the opcodes with the tag. -/
def ShowsAll (undef : ℤ → ut64) (s : TraceState) (tag : ℤ) : Prop :=
  ∃ fuel lines, traceShow undef fuel s tag = some lines ∧
    listed lines = cover stretch (spans undef tag s.traces)

/-- No opcode with the tag ends behind the last address, none is at 0, and if
there is any, then one is at the lowest address but 0 of all, and none
reaches beyond an end of the trail from there. -/
structure Showable (undef : ℤ → ut64) (tag : ℤ) (traces : List TraceT) : Prop where
  inside : ∀ h ∈ traces, h.carries undef tag = true → h.span.2 < 2 ^ 64
  nonzero : ∀ h ∈ traces, h.carries undef tag = true → h.addr ≠ 0
  first : ∀ h ∈ traces, h.carries undef tag = true → ∃ q ∈ traces, q.carries undef tag = true ∧
    (∀ p ∈ traces, p.addr ≠ 0 → q.addr ≤ p.addr) ∧
      NoneBeyond (spans undef tag traces) q.addr.toNat

variable {undef : ℤ → ut64} {s : TraceState} {tag : ℤ} {traces : List TraceT} {h : TraceT}
variable {lines : List (ut64 × ut64)} {last last2 from_ next e : ut64} {fuel : ℕ}

/-! ## Records -/

theorem mem_spans {r : ℕ × ℕ} : r ∈ spans undef tag traces ↔
    ∃ h ∈ traces, h.carries undef tag = true ∧ h.span = r := by
  unfold spans
  rw [List.mem_map]
  simp only [List.mem_filter, and_assoc]

/-- `trace_get` finds the opcode that counts at an address. -/
theorem firstAt_spans (s : TraceState) (a : ut64) :
    firstAt (spans undef tag s.traces) a.toNat = (traceGet undef s a tag).map TraceT.span := by
  have hpred : (fun h : TraceT => decide (h.carries undef tag = true ∧
      ((fun r : ℕ × ℕ => decide (r.1 = a.toNat)) ∘ TraceT.span) h = true)) =
      fun h => decide (¬(tag ≠ -1 ∧ h.tags &&& shiftOne undef tag = 0) ∧ h.addr = a) := by
    funext h
    refine decide_eq_decide.mpr (and_congr decide_eq_true_iff ?_)
    exact decide_eq_true_iff.trans UInt64.toNat_inj
  unfold firstAt spans traceGet
  rw [List.find?_map, List.find?_filter, hpred]

theorem of_traceGet (hget : traceGet undef s e tag = some h) :
    h ∈ s.traces ∧ h.carries undef tag = true ∧ h.addr = e := by
  unfold traceGet at hget
  have hprop := List.find?_some hget
  rw [decide_eq_true_eq] at hprop
  exact ⟨List.mem_of_find?_eq_some hget, decide_eq_true hprop.1, hprop.2⟩

theorem traceGet_isSome (hh : h ∈ s.traces) (hcarries : h.carries undef tag = true) :
    ∃ h', traceGet undef s h.addr tag = some h' := by
  refine Option.isSome_iff_exists.mp (List.find?_isSome.mpr ⟨h, hh, ?_⟩)
  exact decide_eq_true ⟨of_decide_eq_true hcarries, rfl⟩

/-- Opcodes have addresses. -/
def Positive (traces : List TraceT) : Prop := ∀ h ∈ traces, 0 < h.opsize ∧ h.opsize < 2 ^ 31

/-- Opcodes with the tag end before the last address. -/
def Inside (undef : ℤ → ut64) (tag : ℤ) (traces : List TraceT) : Prop :=
  ∀ h ∈ traces, h.carries undef tag = true → h.span.2 < 2 ^ 64

theorem Positive.span (hpos : Positive traces) : ∀ r ∈ spans undef tag traces, r.1 < r.2 := by
  intro r hr
  obtain ⟨h, hh, -, rfl⟩ := mem_spans.mp hr
  have := (hpos h hh).1
  unfold TraceT.span
  dsimp only
  omega

/-- **The end of an opcode.** -/
theorem end_toNat (hpos : Positive s.traces) (hin : Inside undef tag s.traces)
    (hget : traceGet undef s last tag = some h) :
    (last + UInt64.ofInt h.opsize).toNat = h.span.2 ∧ last.toNat < h.span.2 ∧
      h.span = (last.toNat, h.span.2) := by
  obtain ⟨hh, hcarries, rfl⟩ := of_traceGet hget
  obtain ⟨hlo, hhi⟩ := hpos h hh
  have hlt : h.addr.toNat + h.opsize.toNat < 2 ^ 64 := hin h hh hcarries
  have hint : (UInt64.ofInt h.opsize).toNat = h.opsize.toNat := by
    have hmod : h.opsize % 2 ^ 64 = h.opsize := Int.emod_eq_of_lt (by omega) (by omega)
    unfold UInt64.ofInt
    rw [hmod, UInt64.toNat_ofNat_of_lt' (by rw [UInt64.size]; omega)]
  refine ⟨?_, ?_, rfl⟩
  · rw [UInt64.toNat_add, hint, Nat.mod_eq_of_lt hlt]
    rfl
  · unfold TraceT.span
    dsimp only
    omega

/-! ## `trace_range` -/

theorem rangeLoop_none (hne : last ≠ last2) (hget : traceGet undef s last tag = none)
    (hloop : traceRangeLoop undef s tag fuel last last2 = some e) : e = last := by
  match fuel with
  | 0 => cases hloop
  | 1 =>
    rw [traceRangeLoop, if_neg hne, hget] at hloop
    cases hloop
  | fuel + 2 =>
    rw [traceRangeLoop, if_neg hne, hget] at hloop
    dsimp only at hloop
    rw [traceRangeLoop, if_pos rfl] at hloop
    exact (Option.some.inj hloop).symm

/-- **A turn at an opcode.** -/
theorem rangeLoop_some (hne : last ≠ last2) (hget : traceGet undef s last tag = some h) :
    traceRangeLoop undef s tag (fuel + 1) last last2 =
      traceRangeLoop undef s tag fuel (last + UInt64.ofInt h.opsize) last := by
  rw [traceRangeLoop, if_neg hne, hget]
  dsimp only
  rw [(of_traceGet hget).2.1, Bool.not_true, if_neg Bool.false_ne_true]

/-- **`trace_range` ends.** -/
theorem rangeLoop_ends (hpos : Positive s.traces) (hin : Inside undef tag s.traces)
    (last last2 : ut64) :
    ∃ n e, ∀ fuel ≥ n, traceRangeLoop undef s tag fuel last last2 = some e := by
  induction hn : 2 ^ 64 - last.toNat using Nat.strong_induction_on generalizing last last2 with
  | _ n ih =>
    by_cases heq : last = last2
    · refine ⟨1, last, fun fuel hfuel => ?_⟩
      obtain ⟨fuel, rfl⟩ : ∃ k, fuel = k + 1 := ⟨fuel - 1, by omega⟩
      rw [traceRangeLoop, if_pos heq]
    cases hget : traceGet undef s last tag with
    | none =>
      refine ⟨2, last, fun fuel hfuel => ?_⟩
      obtain ⟨fuel, rfl⟩ : ∃ k, fuel = k + 2 := ⟨fuel - 2, by omega⟩
      rw [traceRangeLoop, if_neg heq, hget]
      dsimp only
      rw [traceRangeLoop, if_pos rfl]
    | some h =>
      obtain ⟨hend, hlt, -⟩ := end_toNat hpos hin hget
      obtain ⟨m, e, hm⟩ := ih _ (by have := last.toNat_lt; omega)
        (last + UInt64.ofInt h.opsize) last rfl
      refine ⟨m + 1, e, fun fuel hfuel => ?_⟩
      obtain ⟨fuel, rfl⟩ : ∃ k, fuel = k + 1 := ⟨fuel - 1, by omega⟩
      rw [rangeLoop_some heq hget]
      exact hm fuel (by omega)

/-- **`trace_range` goes along a trail**, up to an end at which none
starts. -/
theorem rangeLoop_spec (hpos : Positive s.traces) (hin : Inside undef tag s.traces)
    (hne : last ≠ last2) (hget : traceGet undef s last tag = some h)
    (hloop : traceRangeLoop undef s tag fuel last last2 = some e) :
    last < e ∧ traceGet undef s e tag = none ∧
      trail (spans undef tag s.traces) last.toNat =
        Set.Ico last.toNat e.toNat ∪ trailFrom (spans undef tag s.traces) e.toNat := by
  induction fuel generalizing last last2 h with
  | zero => cases hloop
  | succ fuel ih =>
    obtain ⟨hend, hlt, hspan⟩ := end_toNat hpos hin hget
    have hfirst : firstAt (spans undef tag s.traces) last.toNat = some (last.toNat, h.span.2) := by
      rw [firstAt_spans, hget, ← hspan]
      rfl
    have htrail : trail (spans undef tag s.traces) last.toNat =
        Set.Ico last.toNat h.span.2 ∪ trailFrom (spans undef tag s.traces) h.span.2 :=
      trail_eq hfirst
    have hahead : last < last + UInt64.ofInt h.opsize := by
      rw [UInt64.lt_iff_toNat_lt, hend]
      exact hlt
    rw [rangeLoop_some hne hget] at hloop
    cases hnext : traceGet undef s (last + UInt64.ofInt h.opsize) tag with
    | none =>
      obtain rfl := rangeLoop_none hahead.ne' hnext hloop
      refine ⟨hahead, hnext, ?_⟩
      rw [htrail, hend]
    | some h' =>
      obtain ⟨hlt', hnone, htrail'⟩ := ih hahead.ne' hnext hloop
      obtain ⟨hh', hcarries', haddr⟩ := of_traceGet hnext
      refine ⟨hahead.trans hlt', hnone, ?_⟩
      have hstart : IsNext (spans undef tag s.traces) h.span.2 h.span.2 := by
        have hmem : h'.span ∈ spans undef tag s.traces := mem_spans.mpr ⟨h', hh', hcarries', rfl⟩
        have hfrom : h'.span.1 = h.span.2 := by
          rw [← hend, ← haddr]
          rfl
        have hself := isNext_self hmem
        rwa [hfrom] at hself
      have hle : h.span.2 ≤ e.toNat := by
        rw [← hend]
        exact (UInt64.lt_iff_toNat_lt.mp hlt').le
      rw [hend] at htrail'
      rw [htrail, trailFrom_of_isNext hstart, htrail', ← Set.union_assoc,
        Set.Ico_union_Ico_eq_Ico hlt.le hle]

/-! ## `trace_next` -/

theorem nextTurn_foldl (undef : ℤ → ut64) (tag : ℤ) (traces : List TraceT) (from_ next : ut64) :
    traces.foldl (nextTurn undef tag from_) next ≤ next ∧
      (traces.foldl (nextTurn undef tag from_) next = next ∨
        ∃ h ∈ traces, h.carries undef tag = true ∧ from_ < h.addr ∧
          traces.foldl (nextTurn undef tag from_) next = h.addr) ∧
      ∀ h ∈ traces, h.carries undef tag = true → from_ < h.addr →
        traces.foldl (nextTurn undef tag from_) next ≤ h.addr := by
  induction traces generalizing next with
  | nil => exact ⟨le_rfl, Or.inl rfl, fun h hh => by cases hh⟩
  | cons h traces ih =>
    rw [List.foldl_cons]
    obtain ⟨hle, hcase, hleast⟩ := ih (nextTurn undef tag from_ next h)
    have hturn : nextTurn undef tag from_ next h ≤ next ∧
        (nextTurn undef tag from_ next h = next ∨ h.carries undef tag = true ∧ from_ < h.addr ∧
          nextTurn undef tag from_ next h = h.addr) ∧
        (h.carries undef tag = true → from_ < h.addr →
          nextTurn undef tag from_ next h ≤ h.addr) := by
      unfold nextTurn
      cases hcarries : h.carries undef tag with
      | false => exact ⟨le_rfl, Or.inl rfl, fun h => by cases h⟩
      | true =>
        rw [Bool.not_true, if_neg Bool.false_ne_true]
        split_ifs with hnew
        · exact ⟨hnew.2.le, Or.inr ⟨rfl, hnew.1, rfl⟩, fun _ _ => le_rfl⟩
        · exact ⟨le_rfl, Or.inl rfl, fun _ hlt => not_lt.mp fun h => hnew ⟨hlt, h⟩⟩
    obtain ⟨hturnle, hturncase, hturnleast⟩ := hturn
    refine ⟨hle.trans hturnle, ?_, ?_⟩
    · rcases hcase with heq | ⟨q, hq, hrest⟩
      · rcases hturncase with heq' | ⟨hcarries, hlt, heq'⟩
        · exact Or.inl (heq.trans heq')
        · exact Or.inr ⟨h, List.mem_cons_self, hcarries, hlt, heq.trans heq'⟩
      · exact Or.inr ⟨q, List.mem_cons_of_mem _ hq, hrest⟩
    · intro q hq hcarries hlt
      rcases List.mem_cons.mp hq with rfl | hq
      · exact hle.trans (hturnleast hcarries hlt)
      · exact hleast q hq hcarries hlt

/-- **`trace_next`**: the next record with the tag, if there is one. -/
theorem traceNext_spec (hpos : Positive s.traces) (hin : Inside undef tag s.traces) (e : ut64) :
    (traceNext undef s e tag = 0 ∧ ∀ q ∈ s.traces, q.carries undef tag = true → q.addr ≤ e) ∨
      ∃ h ∈ s.traces, h.carries undef tag = true ∧ e < h.addr ∧ traceNext undef s e tag = h.addr ∧
        ∀ q ∈ s.traces, q.carries undef tag = true → e < q.addr → h.addr ≤ q.addr := by
  obtain ⟨hle, hcase, hleast⟩ := nextTurn_foldl undef tag s.traces e 0xFFFFFFFFFFFFFFFF
  have hlast : ∀ q ∈ s.traces, q.carries undef tag = true → q.addr < 0xFFFFFFFFFFFFFFFF := by
    intro q hq hcarries
    have hend : q.addr.toNat + q.opsize.toNat < 2 ^ 64 := hin q hq hcarries
    have hsize := (hpos q hq).1
    have hmax : (0xFFFFFFFFFFFFFFFF : ut64).toNat = 2 ^ 64 - 1 := by decide
    rw [UInt64.lt_iff_toNat_lt, hmax]
    omega
  unfold traceNext
  dsimp only
  rcases hcase with heq | ⟨h, hh, hcarries, hlt, heq⟩
  · left
    rw [if_pos heq]
    refine ⟨rfl, fun q hq hcarries => not_lt.mp fun hlt => ?_⟩
    have hmin := hleast q hq hcarries hlt
    rw [heq] at hmin
    exact (hlast q hq hcarries).not_ge hmin
  · right
    rw [heq] at hleast ⊢
    rw [if_neg (hlast h hh hcarries).ne]
    exact ⟨h, hh, hcarries, hlt, rfl, hleast⟩

/-! ## `trace_show` -/

/-- **`trace_show` ends.** -/
theorem showLoop_ends (hpos : Positive s.traces) (hin : Inside undef tag s.traces) (from_ : ut64) :
    ∃ n lines, ∀ fuel ≥ n, showLoop undef s tag fuel from_ = some lines := by
  induction hn : 2 ^ 64 - from_.toNat using Nat.strong_induction_on generalizing from_ with
  | _ n ih =>
    by_cases hzero : from_ = 0
    · refine ⟨1, [], fun fuel hfuel => ?_⟩
      obtain ⟨fuel, rfl⟩ : ∃ k, fuel = k + 1 := ⟨fuel - 1, by omega⟩
      rw [showLoop, if_pos hzero]
    obtain ⟨m, e, hrange⟩ := rangeLoop_ends hpos hin from_ 0
    by_cases hstop : e = from_
    · refine ⟨m + 1, [], fun fuel hfuel => ?_⟩
      obtain ⟨fuel, rfl⟩ : ∃ k, fuel = k + 1 := ⟨fuel - 1, by omega⟩
      rw [showLoop, if_neg hzero, traceRange, hrange fuel (by omega)]
      exact if_pos hstop
    have hahead : from_ < e := by
      cases hget : traceGet undef s from_ tag with
      | none => exact absurd (rangeLoop_none hzero hget (hrange m le_rfl)) hstop
      | some h => exact (rangeLoop_spec hpos hin hzero hget (hrange m le_rfl)).1
    obtain ⟨k, lines, hrest⟩ : ∃ k lines, ∀ fuel ≥ k,
        showLoop undef s tag fuel (traceNext undef s e tag) = some lines := by
      rcases traceNext_spec hpos hin e with ⟨hnext, -⟩ | ⟨h, -, -, hlt, hnext, -⟩
      · refine ⟨1, [], fun fuel hfuel => ?_⟩
        obtain ⟨fuel, rfl⟩ : ∃ k, fuel = k + 1 := ⟨fuel - 1, by omega⟩
        rw [hnext, showLoop, if_pos rfl]
      · rw [hnext]
        refine ih _ ?_ h.addr rfl
        have := UInt64.lt_iff_toNat_lt.mp (hahead.trans hlt)
        have := h.addr.toNat_lt
        omega
    refine ⟨max m k + 1, (from_, e) :: lines, fun fuel hfuel => ?_⟩
    obtain ⟨fuel, rfl⟩ : ∃ k, fuel = k + 1 := ⟨fuel - 1, by omega⟩
    rw [showLoop, if_neg hzero, traceRange, hrange fuel (by omega)]
    simp only [Option.bind_eq_bind, Option.bind_some]
    rw [if_neg hstop, hrest fuel (by omega)]
    rfl

/-- What one turn of it prints. -/
theorem showLoop_cases (hshow : showLoop undef s tag (fuel + 1) from_ = some lines)
    (hzero : from_ ≠ 0) :
    ∃ e, traceRangeLoop undef s tag fuel from_ 0 = some e ∧
      ((e = from_ ∧ lines = []) ∨ (e ≠ from_ ∧ ∃ rest, lines = (from_, e) :: rest ∧
        showLoop undef s tag fuel (traceNext undef s e tag) = some rest)) := by
  rw [showLoop, if_neg hzero, traceRange] at hshow
  cases hrange : traceRangeLoop undef s tag fuel from_ 0 with
  | none =>
    rw [hrange] at hshow
    cases hshow
  | some e =>
    rw [hrange] at hshow
    simp only [Option.bind_eq_bind, Option.bind_some] at hshow
    refine ⟨e, rfl, ?_⟩
    split_ifs at hshow with hstop
    · exact Or.inl ⟨hstop, (Option.some.inj hshow).symm⟩
    · obtain ⟨rest, hrest, heq⟩ := Option.bind_eq_some_iff.mp hshow
      exact Or.inr ⟨hstop, rest, (Option.some.inj heq).symm, hrest⟩

/-- No line starts at 0, and none has the last address. -/
theorem listed_bounds (hshow : showLoop undef s tag fuel from_ = some lines) :
    0 ∉ listed lines ∧ 2 ^ 64 - 1 ∉ listed lines := by
  have hstart : ∀ line ∈ lines, line.1 ≠ 0 := by
    induction fuel generalizing from_ lines with
    | zero => cases hshow
    | succ fuel ih =>
      by_cases hzero : from_ = 0
      · rw [showLoop, if_pos hzero] at hshow
        rw [← Option.some.inj hshow]
        exact List.forall_mem_nil _
      · obtain ⟨e, -, ⟨-, rfl⟩ | ⟨-, rest, rfl, hrest⟩⟩ := showLoop_cases hshow hzero
        · exact List.forall_mem_nil _
        · exact List.forall_mem_cons.mpr ⟨hzero, ih hrest⟩
  constructor
  · rintro ⟨line, hline, hlo, -⟩
    exact hstart line hline (UInt64.toNat_inj.mp (Nat.le_zero.mp hlo))
  · rintro ⟨line, -, -, hhi⟩
    have := line.2.toNat_lt
    omega

/-- **What is printed is the trail** from the address on. -/
theorem cover_showLoop (hpos : Positive s.traces) (hin : Inside undef tag s.traces)
    (hzero : from_ ≠ 0) (hget : traceGet undef s from_ tag = some h)
    (hshow : showLoop undef s tag fuel from_ = some lines) :
    listed lines = trail (spans undef tag s.traces) from_.toNat := by
  induction fuel generalizing from_ lines h with
  | zero => cases hshow
  | succ fuel ih =>
    obtain ⟨e, hrange, hcase⟩ := showLoop_cases hshow hzero
    obtain ⟨hlt, hnone, htrail⟩ := rangeLoop_spec hpos hin hzero hget hrange
    obtain ⟨rest, rfl, hrest⟩ := (hcase.resolve_left fun hstop => hlt.ne' hstop.1).2
    have hahead : ∀ r ∈ spans undef tag s.traces, r.1 ≠ e.toNat := by
      intro r hr heq
      obtain ⟨q, hq, hcarries, rfl⟩ := mem_spans.mp hr
      obtain ⟨q', hq'⟩ := traceGet_isSome hq hcarries
      rw [UInt64.toNat_inj.mp heq, hnone] at hq'
      cases hq'
    have hlisted : listed ((from_, e) :: rest) =
        Set.Ico from_.toNat e.toNat ∪ listed rest := cover_cons
    rw [hlisted, htrail]
    congr 1
    rcases traceNext_spec hpos hin e with ⟨hnext, hbehind⟩ | ⟨q, hq, hcarries, heq, hnext, hleast⟩
    · -- none is ahead
      have hnil : rest = [] := by
        rw [hnext] at hrest
        cases fuel with
        | zero => cases hrest
        | succ fuel =>
          rw [showLoop, if_pos rfl] at hrest
          exact (Option.some.inj hrest).symm
      rw [hnil, trailFrom_of_none]
      · exact cover_nil
      · intro r hr
        obtain ⟨q, hq, hcarries, rfl⟩ := mem_spans.mp hr
        exact lt_of_le_of_ne (UInt64.le_iff_toNat_le.mp (hbehind q hq hcarries)) (hahead _ hr)
    · have hstart : IsNext (spans undef tag s.traces) e.toNat q.addr.toNat := by
        refine ⟨⟨q.span, mem_spans.mpr ⟨q, hq, hcarries, rfl⟩, rfl⟩,
          (UInt64.lt_iff_toNat_lt.mp heq).le, fun r hr hle => ?_⟩
        obtain ⟨p, hp, hcarries', rfl⟩ := mem_spans.mp hr
        have hlt' : e < p.addr :=
          UInt64.lt_iff_toNat_lt.mpr (lt_of_le_of_ne hle (hahead _ hr).symm)
        exact UInt64.le_iff_toNat_le.mp (hleast p hp hcarries' hlt')
      obtain ⟨q', hq'⟩ := traceGet_isSome hq hcarries
      rw [hnext] at hrest
      rw [trailFrom_of_isNext hstart]
      refine ih ?_ hq' hrest
      rintro hq0
      rw [hq0] at heq
      exact absurd (UInt64.lt_iff_toNat_lt.mp heq) (Nat.not_lt_zero _)

/-! ## Where it begins -/

theorem startTurn_kept (hne : from_ ≠ 0) (hle : ∀ h ∈ traces, from_ ≤ h.addr) :
    traces.foldl startTurn from_ = from_ := by
  induction traces with
  | nil => rfl
  | cons h traces ih =>
    have hturn : startTurn from_ h = from_ := by
      unfold startTurn
      dsimp only
      rw [if_neg hne, if_neg (hle h List.mem_cons_self).not_gt]
    rw [List.foldl_cons, hturn]
    exact ih fun q hq => hle q (List.mem_cons_of_mem _ hq)

/-- **The lowest address** but 0. -/
theorem startTurn_foldl (hsort : SortedBy TraceT.addr traces) :
    (traces.foldl startTurn 0 = 0 ∧ ∀ h ∈ traces, h.addr = 0) ∨
      ∃ q ∈ traces, q.addr ≠ 0 ∧ traces.foldl startTurn 0 = q.addr ∧
        ∀ p ∈ traces, p.addr ≠ 0 → q.addr ≤ p.addr := by
  induction traces with
  | nil => exact Or.inl ⟨rfl, List.forall_mem_nil _⟩
  | cons h traces ih =>
    obtain ⟨hfirst, hrest⟩ := List.pairwise_cons.mp hsort
    have hturn : startTurn 0 h = h.addr := by
      unfold startTurn
      dsimp only
      rw [if_pos rfl, if_neg (lt_irrefl _)]
    rw [List.foldl_cons, hturn]
    by_cases hzero : h.addr = 0
    · rw [hzero]
      rcases ih hrest with ⟨hend, hall⟩ | ⟨q, hq, hne, hend, hleast⟩
      · exact Or.inl ⟨hend, List.forall_mem_cons.mpr ⟨hzero, hall⟩⟩
      · refine Or.inr ⟨q, List.mem_cons_of_mem _ hq, hne, hend, ?_⟩
        exact List.forall_mem_cons.mpr ⟨fun h0 => absurd hzero h0, hleast⟩
    · refine Or.inr ⟨h, List.mem_cons_self, hzero, startTurn_kept hzero hfirst, ?_⟩
      exact List.forall_mem_cons.mpr ⟨fun _ => le_rfl, fun p hp _ => hfirst p hp⟩

/-! ## When all is shown -/

/-- The opcodes of a table in another order. -/
theorem cover_spans_perm {traces' : List TraceT} (hperm : traces.Perm traces') :
    cover stretch (spans undef tag traces) = cover stretch (spans undef tag traces') := by
  have hmem : ∀ r, r ∈ spans undef tag traces ↔ r ∈ spans undef tag traces' := fun r => by
    rw [mem_spans, mem_spans]
    exact exists_congr fun h => and_congr_left fun _ => hperm.mem_iff
  ext x
  exact exists_congr fun r => and_congr_left fun _ => hmem r

/-- An opcode with the tag is in what is to be shown. -/
theorem mem_cover_spans (hh : h ∈ traces) (hcarries : h.carries undef tag = true) {x : ℕ}
    (hlo : h.addr.toNat ≤ x) (hhi : x < h.span.2) : x ∈ cover stretch (spans undef tag traces) :=
  ⟨h.span, mem_spans.mpr ⟨h, hh, hcarries, rfl⟩, hlo, hhi⟩

theorem addr_lt_end (hpos : Positive traces) (hh : h ∈ traces) : h.addr.toNat < h.span.2 := by
  have := (hpos h hh).1
  unfold TraceT.span
  dsimp only
  omega

/-- **From an address at which no opcode with the tag starts** nothing is
printed. -/
theorem lines_eq_nil (hzero : from_ ≠ 0) (hget : traceGet undef s from_ tag = none)
    (hshow : showLoop undef s tag fuel from_ = some lines) : lines = [] := by
  cases fuel with
  | zero => cases hshow
  | succ fuel =>
    obtain ⟨e, hrange, ⟨-, hnil⟩ | ⟨hne, -⟩⟩ := showLoop_cases hshow hzero
    · exact hnil
    · exact absurd (rangeLoop_none hzero hget hrange) hne

/-- **A listing that begins at an opcode with the tag.** -/
theorem shows_iff_of_start (hpos : Positive s.traces) (hin : Inside undef tag s.traces)
    (hget : traceGet undef s from_ tag = some h) (hzero : from_ ≠ 0)
    (hleast : ∀ q ∈ s.traces, q.carries undef tag = true → from_ ≤ q.addr) :
    (∃ fuel lines, showLoop undef s tag fuel from_ = some lines ∧
        listed lines = cover stretch (spans undef tag s.traces)) ↔
      NoneBeyond (spans undef tag s.traces) from_.toNat := by
  obtain ⟨hh, hcarries, rfl⟩ := of_traceGet hget
  have hmem : h.span ∈ spans undef tag s.traces := mem_spans.mpr ⟨h, hh, hcarries, rfl⟩
  have hfirst : ∀ r ∈ spans undef tag s.traces, h.span.1 ≤ r.1 := by
    intro r hr
    obtain ⟨q, hq, hcarries', rfl⟩ := mem_spans.mp hr
    exact UInt64.le_iff_toNat_le.mp (hleast q hq hcarries')
  refine Iff.trans ?_ (trail_eq_cover_iff hpos.span hmem hfirst)
  constructor
  · rintro ⟨fuel, lines, hshow, hcover⟩
    exact (cover_showLoop hpos hin hzero hget hshow).symm.trans hcover
  · intro htrail
    obtain ⟨n, lines, hshow⟩ := showLoop_ends hpos hin h.addr
    have hcover := cover_showLoop hpos hin hzero hget (hshow n le_rfl)
    exact ⟨n, lines, hshow n le_rfl, hcover.trans htrail⟩

/-- **A listing without opcodes of the tag.** -/
theorem shows_of_none (hpos : Positive s.traces)
    (hnone : ∀ q ∈ s.traces, q.carries undef tag ≠ true) :
    ∃ fuel lines, showLoop undef s tag fuel from_ = some lines ∧
      listed lines = cover stretch (spans undef tag s.traces) := by
  have hin : Inside undef tag s.traces := fun q hq hcarries => absurd hcarries (hnone q hq)
  have hempty : cover stretch (spans undef tag s.traces) = ∅ := by
    refine Set.eq_empty_of_forall_notMem ?_
    rintro x ⟨r, hr, -⟩
    obtain ⟨q, hq, hcarries, -⟩ := mem_spans.mp hr
    exact hnone q hq hcarries
  obtain ⟨n, lines, hshow⟩ := showLoop_ends hpos hin from_
  refine ⟨n, lines, hshow n le_rfl, ?_⟩
  have hnil : lines = [] := by
    by_cases hzero : from_ = 0
    · have hone := hshow (n + 1) (Nat.le_succ n)
      rw [showLoop, if_pos hzero] at hone
      exact (Option.some.inj hone).symm
    · refine lines_eq_nil hzero ?_ (hshow n le_rfl)
      cases hget : traceGet undef s from_ tag with
      | none => rfl
      | some q =>
        obtain ⟨hq, hcarries, -⟩ := of_traceGet hget
        exact absurd hcarries (hnone q hq)
  rw [hempty, hnil]
  exact cover_nil

/-- **What a listing can show** is not the last address, and not the first. -/
theorem inside_of_shows (hpos : Positive s.traces)
    (hshow : showLoop undef s tag fuel from_ = some lines)
    (hcover : listed lines = cover stretch (spans undef tag s.traces)) :
    Inside undef tag s.traces ∧ ∀ q ∈ s.traces, q.carries undef tag = true → q.addr ≠ 0 := by
  obtain ⟨hfirst, hlast⟩ := listed_bounds hshow
  rw [hcover] at hfirst hlast
  refine ⟨fun q hq hcarries => not_le.mp fun hle => hlast ?_, fun q hq hcarries hzero => hfirst ?_⟩
  · have := q.addr.toNat_lt
    exact mem_cover_spans hq hcarries (by omega) (by omega)
  · have hlt := addr_lt_end hpos hq
    rw [hzero] at hlt
    exact mem_cover_spans hq hcarries (by rw [hzero]; exact le_rfl) hlt

/-- **A listing of a table in order.** -/
theorem showLoop_shows_iff (hpos : Positive s.traces) (hsort : SortedBy TraceT.addr s.traces) :
    (∃ fuel lines, showLoop undef s tag fuel (s.traces.foldl startTurn 0) = some lines ∧
        listed lines = cover stretch (spans undef tag s.traces)) ↔ Showable undef tag s.traces := by
  by_cases hsome : ∀ q ∈ s.traces, q.carries undef tag ≠ true
  · refine iff_of_true (shows_of_none hpos hsome) ⟨?_, ?_, ?_⟩
    all_goals exact fun q hq hcarries => absurd hcarries (hsome q hq)
  obtain ⟨h, hh, hcarries⟩ : ∃ h ∈ s.traces, h.carries undef tag = true := by
    simpa only [not_forall, not_not, exists_prop] using hsome
  by_cases hshown :
    Inside undef tag s.traces ∧ ∀ q ∈ s.traces, q.carries undef tag = true → q.addr ≠ 0
  swap
  · refine iff_of_false ?_ fun hshow => hshown ⟨hshow.inside, hshow.nonzero⟩
    rintro ⟨fuel, lines, hshow, hcover⟩
    exact hshown (inside_of_shows hpos hshow hcover)
  obtain ⟨hin, hnonzero⟩ := hshown
  rcases startTurn_foldl hsort with ⟨-, hall⟩ | ⟨q, hq, hne, hstart, hleast⟩
  · exact absurd (hall h hh) (hnonzero h hh hcarries)
  rw [hstart]
  -- a record at the lowest address is at the start
  have hsame : ∀ p ∈ s.traces, p.carries undef tag = true →
      (∀ p' ∈ s.traces, p'.addr ≠ 0 → p.addr ≤ p'.addr) → p.addr = q.addr := by
    intro p hp hcarries' hleast'
    exact le_antisymm (hleast' q hq hne) (hleast p hp (hnonzero p hp hcarries'))
  cases hget : traceGet undef s q.addr tag with
  | none =>
    refine iff_of_false ?_ fun hshow => ?_
    · rintro ⟨fuel, lines, hshow, hcover⟩
      have hin' : h.addr.toNat ∈ listed lines := by
        rw [hcover]
        exact mem_cover_spans hh hcarries le_rfl (addr_lt_end hpos hh)
      rw [lines_eq_nil hne hget hshow] at hin'
      exact absurd hin' (by simp [listed])
    · obtain ⟨p, hp, hcarries', hleast', -⟩ := hshow.first h hh hcarries
      obtain ⟨p', hp'⟩ := traceGet_isSome hp hcarries'
      rw [hsame p hp hcarries' hleast', hget] at hp'
      cases hp'
  | some p =>
    obtain ⟨hp, hcarries', haddr⟩ := of_traceGet hget
    rw [shows_iff_of_start hpos hin hget hne fun r hr hcarries =>
      hleast r hr (hnonzero r hr hcarries)]
    constructor
    · intro hbeyond
      refine ⟨hin, hnonzero, fun _ _ _ => ⟨p, hp, hcarries', ?_, ?_⟩⟩
      · rwa [haddr]
      · rwa [haddr]
    · intro hshow
      obtain ⟨r, hr, hcarries'', hleast', hbeyond⟩ := hshow.first h hh hcarries
      rwa [hsame r hr hcarries'' hleast'] at hbeyond

/-- **When the listing is right**: for all tables in the order of the flag,
with opcodes that have addresses, and all tags, `trace_show` ends and shows
exactly the addresses of the opcodes with the tag, if and only if they are
such as `Showable` says. -/
theorem traceShow_union_iff (undef : ℤ → ut64) (s : TraceState) (tag : ℤ) (hs : s.Ordered)
    (hpos : Positive s.traces) :
    ∃ sorted, traceSort s = some sorted ∧
      (ShowsAll undef s tag ↔ Showable undef tag sorted.traces) := by
  obtain ⟨sorted, hsorted, hperm, hcase⟩ := traceSort_cases s
  have hsort : SortedBy TraceT.addr sorted.traces := by
    rcases hcase with ⟨hch, rfl⟩ | hsort
    · exact hs hch
    · exact hsort
  refine ⟨sorted, hsorted, ?_⟩
  rw [← showLoop_shows_iff (fun h hh => hpos h (hperm.mem_iff.mp hh)) hsort]
  unfold ShowsAll traceShow
  rw [hsorted, cover_spans_perm hperm]
  rfl

/-- Two opcodes one behind the other, and one apart. -/
theorem traceShow_union_three :
    ShowsAll (fun _ => 0)
      ⟨[⟨16, 0, 4, 1, 1, 0⟩, ⟨20, 0, 2, 1, 2, 0⟩, ⟨32, 0, 1, 1, 3, 0⟩], 3, true, -1⟩ (-1) := by
  have hpos : Positive [(⟨16, 0, 4, 1, 1, 0⟩ : TraceT), ⟨20, 0, 2, 1, 2, 0⟩, ⟨32, 0, 1, 1, 3, 0⟩] := by
    unfold Positive
    decide
  obtain ⟨sorted, hsorted, hiff⟩ := traceShow_union_iff (fun _ => 0)
    ⟨[⟨16, 0, 4, 1, 1, 0⟩, ⟨20, 0, 2, 1, 2, 0⟩, ⟨32, 0, 1, 1, 3, 0⟩], 3, true, -1⟩ (-1)
    (fun h => by cases h) hpos
  obtain rfl := Option.some.inj hsorted
  refine hiff.mpr ⟨?_, ?_, ?_⟩
  · decide
  · decide
  · intro h hh hcarries
    refine ⟨⟨16, 0, 4, 1, 1, 0⟩, ?_, by decide, by decide, ?_⟩
    · decide
    · have hapart : ∀ r ∈ [(16, 20), (20, 22), (32, 33)],
          ∀ q ∈ [(16, 20), (20, 22), ((32 : ℕ), (33 : ℕ))], q.1 < r.2 → q.2 ≤ r.2 := by
        decide
      intro b r _ hr _ q hq
      exact hapart r (of_firstAt hr).1 q hq

/-- **A lower address without the tag** keeps the opcode at 32 from being
shown. -/
theorem other_tag_in_front :
    let s : TraceState := ⟨[⟨16, 1, 4, 1, 1, 0⟩, ⟨32, 2, 4, 1, 2, 0⟩], 2, false, -1⟩
    ¬ShowsAll (fun _ => 0) s 1 := by
  rintro s ⟨fuel, lines, hshow, hcover⟩
  have hloop : showLoop (fun _ => 0) s 1 fuel 16 = some lines := hshow
  have hmem : 32 ∈ cover stretch (spans (fun _ => 0) 1 s.traces) :=
    ⟨(32, 36), by decide, by decide, by decide⟩
  rw [← hcover, lines_eq_nil (by decide) (by decide) hloop] at hmem
  exact absurd hmem (by simp [listed])

end Radare
