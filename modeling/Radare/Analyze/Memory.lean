import Radare.Common.Runs
import Radare.Flags.Model
/-!
# Analysing memory

`radare_analyze` looks at the bytes of a block: printable ones are kept as a string,
and four bytes make a word, which it follows as a pointer, down to a depth. A printable
byte goes into the word as well, but only the branch of the others looks whether the
word is whole, and nothing bounds the string.

Every write into the two buffers is logged with its place, so the buffers are not
overrun if the places are inside of them (`analyze_buffers_iff`). What is printed is
left out.
-/

namespace Radare

open Common

/-- What the analysis works on. -/
structure Memory where
  /-- What `radare_read` leaves of `config.block` for an address. -/
  block : ut64 → ℕ → u8
  /-- `config.block_size`. -/
  blockSize : ℤ
  /-- `config.endian`. -/
  endian : Bool
  /-- `config.interrupted`, in a call for an address, in front of a byte. -/
  interrupted : ut64 → ℕ → Bool
  /-- `string_flag_offset` finds a name for the offset. -/
  flagged : ut64 → Bool

/-- What is logged: the calls that are made with a depth that is not negative, and the
places written in the two buffers. -/
inductive AnalyzeEvent where
  | enter (seek : ut64) (size : ℤ)
  | word (i : ℕ)
  | str (i : ℕ)
deriving DecidableEq

/-- The places there are: four bytes of a word, and the string. -/
def AnalyzeEvent.inside : AnalyzeEvent → Bool
  | .enter _ _ => true
  | .word i => i < 4
  | .str i => i < 1024

/-- A number put into an `int`. -/
def wrapInt (n : ℤ) : ℤ := Int.bmod n (2 ^ 32)

/-- `size` and `count` in front of the loop. -/
def analyzeSize (blockSize size : ℤ) : ℤ × Bool :=
  let size := if wrapInt (size * 4) > blockSize then blockSize.tdiv 4 else size
  if size < 0 then (wrapInt (64 * 4), true) else (wrapInt (size * 4), false)

/-- The variables of a call that the loop does not change. -/
structure AnalyzeCall where
  seek : ut64
  size : ℤ
  count : Bool
deriving DecidableEq

/-- A call, in front of the loop. -/
def Memory.call (m : Memory) (seek : ut64) (size : ℤ) : AnalyzeCall :=
  ⟨seek, (analyzeSize m.blockSize size).1, (analyzeSize m.blockSize size).2⟩

/-- The bytes of the loop of a call. -/
def Memory.bytes (m : Memory) (c : AnalyzeCall) : List u8 :=
  (List.range c.size.toNat).map (m.block c.seek)

/-- `num`, of a word of four bytes. -/
def bigEndian (word : List u8) : UInt32 :=
  (word.getD 3 0).toUInt32 ||| (word.getD 2 0).toUInt32 <<< 8 |||
    (word.getD 1 0).toUInt32 <<< 16 ||| (word.getD 0 0).toUInt32 <<< 24

/-- `nume`. -/
def littleEndian (word : List u8) : UInt32 := bigEndian word.reverse

/-- A number is printed as it is: the bounds are `int`s, and the comparisons those of
an `unsigned int`. -/
def printsNumber (n : UInt32) : Bool := n > 0xfff00001 && n < 0xfffff

/-- The address a word of a call leads to, if it is followed. -/
def Memory.follows (m : Memory) (rad : Bool) (seek : ut64) (word : List u8) : Option ut64 :=
  let num := bigEndian word
  let nume := littleEndian word
  let n := if m.endian then num else nume
  if num = 0 ∨ num = 0xffffffff then none
  else if rad then
    if m.flagged n.toUInt64 then none
    else if n = seek.toUInt32 then none
    else some n.toUInt64
  else if printsNumber num || printsNumber nume then none
  else if n = seek.toUInt32 then none
  else some n.toUInt64

/-- The loop ends: no more depth is left, and fewer bytes. -/
theorem analyze_decreasing {d d' k k' : ℕ} (hd : d' ≤ d) (hk : k' < k) :
    Prod.Lex (· < ·) (· < ·) (d', k') (d, k) := by
  rcases hd.eq_or_lt with rfl | hlt
  · exact Prod.Lex.right _ hk
  · exact Prod.Lex.left _ _ hlt

/-- The loop of a call, from the byte `i` on, with the bytes of the word, `str_i` and
the depth that is left, which is 0 for a negative one. A call inside of it has one
less, and leaves one less. -/
def analyzeLoop (m : Memory) (rad : Bool) (depth : ℕ) (c : AnalyzeCall) (i : ℕ)
    (bytes word : List u8) (strI : ℕ) : List AnalyzeEvent :=
  match bytes with
  | [] => []
  | b :: bytes =>
    if m.interrupted c.seek i then []
    else if isPrintable b then
      if word.length < 4 then
        .word word.length :: .str strI ::
          analyzeLoop m rad depth c (i + 1) bytes (word ++ [b]) (strI + 1)
      else .str strI :: analyzeLoop m rad depth c (i + 1) bytes word (strI + 1)
    else if 2 < strI then .str strI :: analyzeLoop m rad depth c (i + 1) bytes [] 0
    else if word.length + 1 = 4 then
      .word word.length ::
        match m.follows rad c.seek (word ++ [b]) with
        | none => if c.count then [] else analyzeLoop m rad depth c (i + 1) bytes [] 0
        | some n =>
          (if depth - 1 = 0 then []
            else .enter n c.size ::
              analyzeLoop m rad (depth - 1) (m.call n c.size) 0 (m.bytes (m.call n c.size)) [] 0) ++
          if c.count then [] else analyzeLoop m rad (depth - 1) c (i + 1) bytes [] 0
    else .word word.length :: analyzeLoop m rad depth c (i + 1) bytes (word ++ [b]) 0
termination_by (depth, bytes.length)
decreasing_by
  all_goals
    first
    | exact analyze_decreasing (Nat.sub_le _ _) (Nat.lt_succ_self _)
    | exact analyze_decreasing (Nat.le_refl _) (Nat.lt_succ_self _)
    | exact Prod.Lex.left _ _ (by omega)

/-- `radare_analyze`. -/
def radareAnalyze (m : Memory) (rad : Bool) (seek : ut64) (size depth : ℤ) : List AnalyzeEvent :=
  if depth < 0 then []
  else
    .enter seek size ::
      analyzeLoop m rad (depth.toNat + 1) (m.call seek size) 0 (m.bytes (m.call seek size)) [] 0

/-! ## The places written -/

variable {m : Memory} {rad count : Bool} {depth i w r strI : ℕ} {c : AnalyzeCall}
  {bytes word : List u8} {b : u8} {l l' : List AnalyzeEvent}

/-- The bytes in front of an interrupt. -/
def untilInterrupt (interrupted : ℕ → Bool) : ℕ → List u8 → List u8
  | _, [] => []
  | i, b :: bytes => if interrupted i then [] else b :: untilInterrupt interrupted (i + 1) bytes

/-- The bytes a call looks at, if it does not end with the first word. -/
def Memory.looked (m : Memory) (c : AnalyzeCall) : List u8 :=
  untilInterrupt (m.interrupted c.seek) 0 (m.bytes c)

/-- The places that are written for some bytes are inside, with so many bytes in the
word and in the string. -/
def PlacesFit (count : Bool) : ℕ → ℕ → List u8 → Prop
  | _, _, [] => True
  | w, r, b :: bytes =>
    if isPrintable b then
      r < 1024 ∧ PlacesFit count (if w < 4 then w + 1 else w) (r + 1) bytes
    else if 2 < r then r < 1024 ∧ PlacesFit count 0 0 bytes
    else if w + 1 = 4 then count = true ∨ PlacesFit count 0 0 bytes
    else w < 4 ∧ PlacesFit count (w + 1) 0 bytes

/-- The places a call writes itself are inside. -/
def Memory.CallFits (m : Memory) (seek : ut64) (size : ℤ) : Prop :=
  PlacesFit (m.call seek size).count 0 0 (m.looked (m.call seek size))

/-- The places of some events are inside. -/
def EventsInside (l : List AnalyzeEvent) : Prop := ∀ e ∈ l, e.inside = true

@[simp] theorem eventsInside_nil : EventsInside [] := by simp [EventsInside]

@[simp] theorem eventsInside_word : EventsInside (.word i :: l) ↔ i < 4 ∧ EventsInside l := by
  simp only [EventsInside, List.forall_mem_cons, AnalyzeEvent.inside, decide_eq_true_eq]

@[simp] theorem eventsInside_str : EventsInside (.str i :: l) ↔ i < 1024 ∧ EventsInside l := by
  simp only [EventsInside, List.forall_mem_cons, AnalyzeEvent.inside, decide_eq_true_eq]

@[simp] theorem eventsInside_enter {s : ut64} {n : ℤ} :
    EventsInside (.enter s n :: l) ↔ EventsInside l := by
  simp only [EventsInside, List.forall_mem_cons, AnalyzeEvent.inside, true_and]

@[simp] theorem eventsInside_append :
    EventsInside (l ++ l') ↔ EventsInside l ∧ EventsInside l' :=
  List.forall_mem_append

/-- The addresses the words of a call lead to, from a word and a string on. -/
def Memory.pointers (m : Memory) (rad : Bool) (c : AnalyzeCall) :
    List u8 → List u8 → ℕ → List ut64
  | [], _, _ => []
  | b :: bytes, word, strI =>
    if isPrintable b then
      m.pointers rad c bytes (if word.length < 4 then word ++ [b] else word) (strI + 1)
    else if 2 < strI then m.pointers rad c bytes [] 0
    else if word.length + 1 = 4 then
      (m.follows rad c.seek (word ++ [b])).toList ++
        if c.count then [] else m.pointers rad c bytes [] 0
    else m.pointers rad c bytes (word ++ [b]) 0

/-- The calls that are made for some addresses, with so much depth left in front of the
first: each one takes some of it, for those behind it as well. -/
def Memory.nested (m : Memory) (rad : Bool) (depth : ℕ) (size : ℤ) (ns : List ut64) :
    List (ut64 × ℤ) :=
  match ns with
  | [] => []
  | n :: ns =>
    (if depth - 1 = 0 then []
      else (n, size) :: m.nested rad (depth - 1) (m.call n size).size
        (m.pointers rad (m.call n size) (m.looked (m.call n size)) [] 0)) ++
    m.nested rad (depth - 1) size ns
termination_by (depth, ns.length)
decreasing_by
  all_goals
    first
    | exact analyze_decreasing (Nat.sub_le _ _) (Nat.lt_succ_self _)
    | exact Prod.Lex.left _ _ (by omega)

/-- The calls of `radare_analyze`, its own among them. -/
def Memory.calls (m : Memory) (rad : Bool) (seek : ut64) (size depth : ℤ) : List (ut64 × ℤ) :=
  if depth < 0 then []
  else (seek, size) :: m.nested rad (depth.toNat + 1) (m.call seek size).size
    (m.pointers rad (m.call seek size) (m.looked (m.call seek size)) [] 0)

/-- The calls that are logged are these. -/
theorem enter_mem_analyzeLoop {s : ut64} {n : ℤ} :
    .enter s n ∈ analyzeLoop m rad depth c i bytes word strI ↔
      (s, n) ∈ m.nested rad depth c.size
        (m.pointers rad c (untilInterrupt (m.interrupted c.seek) i bytes) word strI) := by
  fun_induction analyzeLoop m rad depth c i bytes word strI with
  | case1 depth c i word strI => simp [untilInterrupt, Memory.pointers, Memory.nested]
  | case2 depth c i word strI b bytes hint =>
    simp [untilInterrupt, hint, Memory.pointers, Memory.nested]
  | case3 depth c i word strI b bytes hint hprint hword ih =>
    simpa [untilInterrupt, hint, Memory.pointers, hprint, hword] using ih
  | case4 depth c i word strI b bytes hint hprint hword ih =>
    simpa [untilInterrupt, hint, Memory.pointers, hprint, hword] using ih
  | case5 depth c i word strI b bytes hint hprint hstr ih =>
    simpa [untilInterrupt, hint, Memory.pointers, hprint, hstr] using ih
  | case6 depth c i word strI b bytes hint hprint hstr hword ih3 ih2 ih1 =>
    rw [untilInterrupt, if_neg hint, Memory.pointers, if_neg hprint, if_neg hstr, if_pos hword,
      List.mem_cons, or_iff_right (by simp)]
    cases m.follows rad c.seek (word ++ [b]) with
    | none =>
      by_cases hcount : c.count = true
      · simp [hcount, Memory.nested]
      · simpa [hcount] using ih3
    | some n =>
      rw [List.mem_append, Option.toList_some, List.singleton_append, Memory.nested,
        List.mem_append]
      refine or_congr ?_ ?_
      · by_cases hdepth : depth - 1 = 0
        · simp [hdepth]
        · rw [if_neg hdepth, if_neg hdepth, List.mem_cons, List.mem_cons, ih2 n hdepth,
            AnalyzeEvent.enter.injEq, Prod.mk.injEq]
          rfl
      · by_cases hcount : c.count = true
        · simp [hcount, Memory.nested]
        · rwa [if_neg hcount, if_neg hcount]
  | case7 depth c i word strI b bytes hint hprint hstr hword ih =>
    simpa [untilInterrupt, hint, Memory.pointers, hprint, hstr, hword] using ih

theorem enter_mem_radareAnalyze {s seek : ut64} {n size depth : ℤ} :
    .enter s n ∈ radareAnalyze m rad seek size depth ↔ (s, n) ∈ m.calls rad seek size depth := by
  rw [radareAnalyze, Memory.calls]
  by_cases hdepth : depth < 0
  · simp [hdepth]
  · rw [if_neg hdepth, if_neg hdepth, List.mem_cons, List.mem_cons, enter_mem_analyzeLoop,
      AnalyzeEvent.enter.injEq, Prod.mk.injEq]
    rfl

/-- The places that are written in a loop are inside if those of its own are, and those
of the calls it makes. -/
theorem analyzeLoop_inside_iff :
    EventsInside (analyzeLoop m rad depth c i bytes word strI) ↔
      PlacesFit c.count word.length strI (untilInterrupt (m.interrupted c.seek) i bytes) ∧
        ∀ s ∈ m.nested rad depth c.size
          (m.pointers rad c (untilInterrupt (m.interrupted c.seek) i bytes) word strI),
          m.CallFits s.1 s.2 := by
  fun_induction analyzeLoop m rad depth c i bytes word strI with
  | case1 depth c i word strI => simp [untilInterrupt, PlacesFit, Memory.pointers, Memory.nested]
  | case2 depth c i word strI b bytes hint =>
    simp [untilInterrupt, hint, PlacesFit, Memory.pointers, Memory.nested]
  | case3 depth c i word strI b bytes hint hprint hword ih =>
    rw [List.length_append, List.length_singleton] at ih
    rw [untilInterrupt, if_neg hint, PlacesFit, if_pos hprint, if_pos hword, Memory.pointers,
      if_pos hprint, if_pos hword, eventsInside_word, eventsInside_str, ih, and_iff_right hword,
      and_assoc]
  | case4 depth c i word strI b bytes hint hprint hword ih =>
    rw [untilInterrupt, if_neg hint, PlacesFit, if_pos hprint, if_neg hword, Memory.pointers,
      if_pos hprint, if_neg hword, eventsInside_str, ih, and_assoc]
  | case5 depth c i word strI b bytes hint hprint hstr ih =>
    rw [untilInterrupt, if_neg hint, PlacesFit, if_neg hprint, if_pos hstr, Memory.pointers,
      if_neg hprint, if_pos hstr, eventsInside_str, ih, and_assoc, List.length_nil]
  | case6 depth c i word strI b bytes hint hprint hstr hword ih3 ih2 ih1 =>
    have hlt : word.length < 4 := by omega
    rw [untilInterrupt, if_neg hint, PlacesFit, if_neg hprint, if_neg hstr, if_pos hword,
      Memory.pointers, if_neg hprint, if_neg hstr, if_pos hword, eventsInside_word,
      and_iff_right hlt]
    cases m.follows rad c.seek (word ++ [b]) with
    | none =>
      by_cases hcount : c.count = true
      · simp [hcount, Memory.nested]
      · simpa [hcount] using ih3
    | some n =>
      have hcall : EventsInside (if depth - 1 = 0 then [] else .enter n c.size ::
            analyzeLoop m rad (depth - 1) (m.call n c.size) 0 (m.bytes (m.call n c.size)) [] 0) ↔
          ∀ s ∈ (if depth - 1 = 0 then [] else (n, c.size) ::
            m.nested rad (depth - 1) (m.call n c.size).size
              (m.pointers rad (m.call n c.size) (m.looked (m.call n c.size)) [] 0)),
            m.CallFits s.1 s.2 := by
        by_cases hdepth : depth - 1 = 0
        · simp [hdepth]
        · rw [if_neg hdepth, if_neg hdepth, List.forall_mem_cons]
          exact eventsInside_enter.trans (ih2 n hdepth)
      simp only [Option.toList_some, List.singleton_append, Memory.nested, eventsInside_append,
        hcall, List.forall_mem_append]
      by_cases hcount : c.count = true
      · simp [hcount, Memory.nested]
      · rw [if_neg hcount, if_neg hcount, ih1, List.length_nil]
        rw [and_left_comm, or_iff_right hcount]
  | case7 depth c i word strI b bytes hint hprint hstr hword ih =>
    rw [List.length_append, List.length_singleton] at ih
    rw [untilInterrupt, if_neg hint, PlacesFit, if_neg hprint, if_neg hstr, if_neg hword,
      Memory.pointers, if_neg hprint, if_neg hstr, if_neg hword, eventsInside_word, ih, and_assoc]

/-! ## The runs of printable bytes -/

variable {rs : List ℕ} {last : ℕ} {x : List ℕ × ℕ}

/-- The runs a call looks at, from a word with so many bytes on. -/
def lookedRuns (count : Bool) (w : ℕ) (x : List ℕ × ℕ) : List ℕ × ℕ :=
  if count then firstGroup 4 2 x.2 w x.1 else x

/-- The runs of printable bytes fit into the buffers: one that ends is shorter than the
string, the last one is no longer than it, and no word ends inside of a run that is too
short for a string. -/
structure RunsFit (w : ℕ) (x : List ℕ × ℕ) : Prop where
  ended : ∀ r ∈ x.1, r < 1024
  last : x.2 ≤ 1024
  words : FitsGroups 4 2 w x.1

theorem runsFit_iff :
    RunsFit w x ↔ (∀ r ∈ x.1, r < 1024) ∧ x.2 ≤ 1024 ∧ FitsGroups 4 2 w x.1 :=
  ⟨fun h => ⟨h.ended, h.last, h.words⟩, fun ⟨he, hl, hw⟩ => ⟨he, hl, hw⟩⟩

theorem runsFit_nil : RunsFit w (lookedRuns count w ([], last)) ↔ last ≤ 1024 := by
  rw [lookedRuns, runsFit_iff]
  cases count <;> simp [firstGroup, FitsGroups]

/-- Behind a string the word is empty. -/
theorem runsFit_string (hr : 2 < r) :
    RunsFit w (lookedRuns count w (r :: rs, last)) ↔
      r < 1024 ∧ RunsFit 0 (lookedRuns count 0 (rs, last)) := by
  have hfirst : lookedRuns count w (r :: rs, last) =
      (r :: (lookedRuns count 0 (rs, last)).1, (lookedRuns count 0 (rs, last)).2) := by
    cases count
    · rfl
    · rw [lookedRuns, if_pos rfl, firstGroup, if_pos hr]
      rfl
  rw [hfirst, runsFit_iff, runsFit_iff, FitsGroups, if_pos hr, List.forall_mem_cons, and_assoc]

/-- With the entry that makes the word whole, the next one starts, if there is one. -/
theorem runsFit_whole (hr : r ≤ 2) (hw : w + r + 1 = 4) :
    RunsFit w (lookedRuns count w (r :: rs, last)) ↔
      count = true ∨ RunsFit 0 (lookedRuns count 0 (rs, last)) := by
  cases count with
  | true =>
    refine iff_of_true ?_ (.inl rfl)
    rw [lookedRuns, if_pos rfl, firstGroup, if_neg (by omega), if_pos hw]
    refine ⟨List.forall_mem_singleton.mpr (by omega), Nat.zero_le _, ?_⟩
    rw [FitsGroups, if_neg (by omega)]
    exact ⟨by omega, trivial⟩
  | false =>
    rw [lookedRuns, lookedRuns, if_neg Bool.false_ne_true, if_neg Bool.false_ne_true, runsFit_iff,
      runsFit_iff, FitsGroups, if_neg (by omega), List.forall_mem_cons, hw, Nat.mod_self]
    have hlt : w + r < 4 := by omega
    have hstr : r < 1024 := by omega
    simp only [hlt, hstr, true_and, Bool.false_eq_true, false_or]

/-- A short run and the entry behind it go into a word that is not whole. -/
theorem runsFit_part (hr : r ≤ 2) (hw : w + r + 1 ≠ 4) :
    RunsFit w (lookedRuns count w (r :: rs, last)) ↔
      w + r < 4 ∧ RunsFit (w + r + 1) (lookedRuns count (w + r + 1) (rs, last)) := by
  have hfirst : lookedRuns count w (r :: rs, last) =
      (r :: (lookedRuns count (w + r + 1) (rs, last)).1,
        (lookedRuns count (w + r + 1) (rs, last)).2) := by
    cases count
    · rfl
    · rw [lookedRuns, if_pos rfl, firstGroup, if_neg (by omega), if_neg hw]
      rfl
  rw [hfirst, runsFit_iff, runsFit_iff, FitsGroups, if_neg (by omega), List.forall_mem_cons]
  have hstr : r < 1024 := by omega
  by_cases hlt : w + r < 4
  · rw [Nat.mod_eq_of_lt (by omega : w + r + 1 < 4)]
    tauto
  · simp only [hlt, false_and, and_false]

/-- A run that has begun is no longer than the string. -/
theorem le_of_runsFit_longer (h : RunsFit w (lookedRuns count w (longer r x))) : r ≤ 1024 := by
  rcases x with ⟨_ | ⟨r', rs⟩, last⟩
  · rw [longer, runsFit_nil] at h
    omega
  · rw [longer] at h
    by_cases hr : 2 < r + r'
    · have := ((runsFit_string hr).mp h).1
      omega
    · omega

/-- The places written for some bytes are those of the runs, where a run that has begun
went into the word as far as it had room. -/
theorem placesFit_iff (count : Bool) (bytes : List u8) (hw : w < 4) (hr : r ≤ 1024) :
    PlacesFit count (min 4 (w + r)) r bytes ↔
      RunsFit w (lookedRuns count w (longer r (runs isPrintable bytes))) := by
  induction bytes generalizing w r with
  | nil =>
    refine iff_of_true trivial ?_
    rw [runs, longer, runsFit_nil]
    omega
  | cons b bytes ih =>
    by_cases hprint : isPrintable b = true
    · have hmore : (if min 4 (w + r) < 4 then min 4 (w + r) + 1 else min 4 (w + r)) =
          min 4 (w + (r + 1)) := by
        split <;> omega
      rw [PlacesFit, if_pos hprint, hmore, runs, if_pos hprint, longer_longer]
      by_cases hfull : r < 1024
      · rw [ih hw hfull, and_iff_right hfull]
      · refine iff_of_false (fun h => hfull h.1) fun h => ?_
        have := le_of_runsFit_longer h
        omega
    · have hbegin {w : ℕ} (hw : w < 4) : PlacesFit count w 0 bytes ↔
          RunsFit w (lookedRuns count w (runs isPrintable bytes)) := by
        have := ih hw (Nat.zero_le 1024)
        rwa [longer_zero, Nat.add_zero, Nat.min_eq_right hw.le] at this
      rw [PlacesFit, if_neg hprint, runs, if_neg hprint, longer, Nat.add_zero r]
      by_cases hstr : 2 < r
      · rw [if_pos hstr, runsFit_string hstr, hbegin (by omega)]
      · rw [if_neg hstr]
        by_cases hwhole : w + r + 1 = 4
        · rw [if_pos (by omega), runsFit_whole (by omega) hwhole, hbegin (by omega)]
        · rw [if_neg (by omega), runsFit_part (by omega) hwhole]
          by_cases hlt : w + r < 4
          · rw [Nat.min_eq_right hlt.le, hbegin (by omega)]
          · exact iff_of_false (fun h => absurd h.1 (by omega)) fun h => hlt h.1

/-! ## The buffers -/

/-- The runs of printable bytes a call looks at: where the words are counted, those up
to the end of the first word. -/
def Memory.printed (m : Memory) (seek : ut64) (size : ℤ) : List ℕ × ℕ :=
  let c := m.call seek size
  lookedRuns c.count 0 (runs isPrintable (m.looked c))

/-- The runs a call looks at fit into its buffers: a run that ends is shorter than the
string, the last one is no longer than it, and what is in front of a run that is too
short for a string, counted from the start or from behind the string in front of it,
ends no word inside of it. -/
structure Memory.PrintedFits (m : Memory) (seek : ut64) (size : ℤ) : Prop where
  ended : ∀ r ∈ (m.printed seek size).1, r < 1024
  last : (m.printed seek size).2 ≤ 1024
  words : GroupsFit 4 2 0 (m.printed seek size).1

theorem Memory.callFits_iff {seek : ut64} {size : ℤ} :
    m.CallFits seek size ↔ m.PrintedFits seek size := by
  have hplaces := placesFit_iff (m.call seek size).count (m.looked (m.call seek size))
    (by omega : 0 < 4) (Nat.zero_le 1024)
  rw [longer_zero] at hplaces
  have hgroups : FitsGroups 4 2 0 (m.printed seek size).1 ↔ _ := fitsGroups_iff (by omega)
  rw [Memory.CallFits]
  refine hplaces.trans ⟨fun h => ⟨h.ended, h.last, hgroups.mp h.words⟩,
    fun h => ⟨h.ended, h.last, hgroups.mpr h.words⟩⟩

/-- **The buffers are not overrun** exactly if the runs of printable bytes fit into
them, in every call that is made. -/
theorem analyze_buffers_iff (m : Memory) (rad : Bool) (seek : ut64) (size depth : ℤ) :
    (∀ e ∈ radareAnalyze m rad seek size depth, e.inside = true) ↔
      ∀ s ∈ m.calls rad seek size depth, m.PrintedFits s.1 s.2 := by
  simp only [← Memory.callFits_iff]
  change EventsInside _ ↔ _
  rw [radareAnalyze, Memory.calls]
  by_cases hdepth : depth < 0
  · simp [hdepth]
  · rw [if_neg hdepth, if_neg hdepth, eventsInside_enter, List.forall_mem_cons]
    exact analyzeLoop_inside_iff

/-- The block with three zero bytes, a printable one and zero bytes again. -/
def overrunMemory : Memory where
  block := fun _ i => if i = 3 then 0x41 else 0
  blockSize := 8
  endian := false
  interrupted := fun _ _ => false
  flagged := fun _ => false

/-- The printable byte makes a word whole and leaves it as it is: the bytes behind it
are written behind the four of the word. -/
theorem analyze_word_overrun :
    ¬ ∀ e ∈ radareAnalyze overrunMemory false 0 8 0, e.inside = true := by
  have hcall : overrunMemory.call 0 8 = ⟨0, 8, false⟩ := by decide +kernel
  have hbytes : overrunMemory.looked ⟨0, 8, false⟩ = [0, 0, 0, 0x41, 0, 0, 0, 0] := by
    decide +kernel
  have hplaces : ¬ PlacesFit false 0 0 [0, 0, 0, 0x41, 0, 0, 0, 0] := by
    simp [PlacesFit, isPrintable]
  intro h
  rw [radareAnalyze, if_neg (by decide), hcall] at h
  have hinside := analyzeLoop_inside_iff.mp (eventsInside_enter.mp h)
  exact hplaces (hbytes ▸ hinside.1)

end Radare
