import Radare.Common.Stretches
import Radare.Cons.Grep
import Radare.Flags.Model
import Radare.Javasm.Pool
/-!
# Strings in a file

`stripstr_from_file` gives the bytes of a file to `stripstr_iterate` one by one. How many
have been collected is in a static variable, and the text in a local one. A text is let
out at the byte behind it, so one at the end of a file stays where it is, and goes on in
the next file. If every text of the files fits `str` and has a byte behind it that does not
look like a wide character, they are all reported (`stripstrFiles_right`).
-/

namespace Radare

namespace Strings

open Common

/-- `ENCODING_`. -/
inductive Encoding where
  | ascii
  | cp850
deriving DecidableEq

/-- `is_encoded`. -/
def isEncoded : Encoding → u8 → Bool
  | .ascii, _ => false
  | .cp850, c =>
    c ∈ ([128, 133, 135, 160, 161, 129, 130, 139, 162, 163, 164, 165, 181, 144, 214, 224, 233] :
      List u8)

/-- The static variables. -/
structure Collected where
  matches_ : ℕ := 0
  widechar : Bool := false
deriving DecidableEq

/-- A line that is printed: `A` or `W`, the offset, the length and the text. -/
structure Report where
  wide : Bool
  off : ut64
  len : ℕ
  text : List u8
deriving DecidableEq

/-- `sizeof(str)`. -/
def strSize : ℕ := 4096

/-- `stripstr_iterate`, for a `match` that is not `*`: the lines, what `str` holds, and the
static variables. There is no result where it writes behind `str`. -/
def stripstrIterate (buf : List u8) (min max : ℤ) (enc : Encoding) (offset : ut64)
    (match_ : Option (List u8)) (str : List u8) (s : Collected) :
    Option (List Report × List u8 × Collected) :=
  let b := buf.getD 0 0
  if isPrintable b ∨ isEncoded enc b then
    if s.matches_ < strSize then
      some ([], str.set s.matches_ b, { s with matches_ := s.matches_ + 1 })
    else none
  else if s.matches_ ≠ 0 ∧ buf.getD 2 0 = 0 ∧ b = 0 ∧ buf.getD 1 0 ≠ 0 then
    some ([], str, { s with widechar := true })
  else if min ≤ s.matches_ ∧ (max = 0 ∨ s.matches_ ≤ max) then
    if s.matches_ < strSize then
      let str := str.set s.matches_ 0
      let text := str.takeWhile (· ≠ 0)
      let len := text.length
      let off := if s.widechar then offset - UInt64.ofNat (len * 2) + 1
        else offset - UInt64.ofNat s.matches_
      some (if (match_.all fun m => strstr text m) ∧ 2 < len then [⟨s.widechar, off, len, text⟩]
        else [], str, {})
    else none
  else some ([], str, {})

/-- A file: its bytes, the memory behind where it is mapped, and what is on the stack for
`str` when it is scanned. The loop calls nothing else, so `str` is the same at every byte. -/
structure ScannedFile where
  bytes : List u8
  behind : List u8
  str : List u8
  size : str.length = strSize

/-- The loop of `stripstr_from_file`, from an index on. -/
def stripstrLoop (min : ℤ) (enc : Encoding) (behind : List u8) :
    ℕ → List u8 → List u8 → Collected → Option (List Report × Collected)
  | _, [], _, s => some ([], s)
  | i, b :: l, str, s =>
    match stripstrIterate (b :: l ++ behind) min 0 enc (UInt64.ofNat i) (some []) str s with
    | none => none
    | some (rs, str, s) =>
      (stripstrLoop min enc behind (i + 1) l str s).map fun (rs', s) => (rs ++ rs', s)

/-- `stripstr_from_file`, of a file that can be opened, if nothing interrupts. -/
def stripstrFromFile (f : ScannedFile) (min : ℤ) (enc : Encoding) (seek limit : ut64)
    (s : Collected) : Option (List Report × Collected) :=
  let min := if min < 1 then 5 else min
  let len := if limit ≠ 0 ∧ limit.toNat < f.bytes.length then limit.toNat else f.bytes.length
  stripstrLoop min enc (f.bytes.drop len ++ f.behind) seek.toNat
    ((f.bytes.take len).drop seek.toNat) f.str s

/-- Files in one process, each from its start to its end. -/
def stripstrFiles (min : ℤ) (enc : Encoding) :
    List ScannedFile → Collected → Option (List (List Report))
  | [], _ => some []
  | f :: fs, s =>
    match stripstrFromFile f min enc 0 0 s with
    | none => none
    | some (rs, s) => (stripstrFiles min enc fs s).map (rs :: ·)

/-! ## What is to be reported -/

/-- The line for a text. -/
def reportOf (r : ℕ × List u8) : Report := ⟨false, UInt64.ofNat r.1, r.2.length, r.2⟩

/-- The lines for the texts that are long enough. -/
def expected (min : ℤ) (rs : List (ℕ × List u8)) : List Report :=
  (rs.filter fun r => min ≤ (r.2.length : ℤ)).map reportOf

namespace ScannedFile

variable (f : ScannedFile)

/-- The texts of a file. -/
def texts : List (ℕ × List u8) := stretches isPrintable f.bytes

/-- A byte of the file, or behind it. -/
def mem (e : ℕ) : u8 := (f.bytes ++ f.behind).getD e 0

/-- A NUL, another byte and a NUL. -/
def Joined (e : ℕ) : Prop := f.mem e = 0 ∧ f.mem (e + 1) ≠ 0 ∧ f.mem (e + 2) = 0

/-- A byte of the file that lets out what is collected. -/
def LetsOut (e : ℕ) : Prop := e < f.bytes.length ∧ ¬f.Joined e

/-- No character and a NUL have such a pair behind them. -/
def Narrow : Prop :=
  ∀ e, e + 3 < f.bytes.length → isPrintable (f.mem e) → f.mem (e + 1) = 0 →
    isPrintable (f.mem (e + 2)) → f.mem (e + 3) ≠ 0

/-- A text to report is let out, and every text fits. -/
def TextFits (min : ℤ) (r : ℕ × List u8) : Prop :=
  if min ≤ (r.2.length : ℤ) then r.2.length < strSize ∧ f.LetsOut (r.1 + r.2.length)
  else r.2.length ≤ strSize ∧ (r.2.length = strSize →
    ¬(f.Joined (r.1 + r.2.length) ∧ r.1 + r.2.length + 2 = f.bytes.length ∧
      isPrintable (f.mem (r.1 + r.2.length + 1))))

/-- A text is let out, or has two bytes of the file behind it. -/
def TextClosed (r : ℕ × List u8) : Prop :=
  r.1 + r.2.length + 1 < f.bytes.length ∨ f.LetsOut (r.1 + r.2.length)

end ScannedFile

/-- All is reported, and nothing else. -/
def AllReported (min : ℤ) (fs : List ScannedFile) : Prop :=
  stripstrFiles min .ascii fs {} = some (fs.map fun f => expected min f.texts)

/-! ## One byte -/

variable {min : ℤ} {f : ScannedFile} {b x : u8} {buf l str v w behind : List u8} {s : Collected}
variable {i m : ℕ} {offset : ut64}

/-- A character is collected. -/
theorem stripstrIterate_collect (hb : isPrintable b = true) (hm : s.matches_ < strSize) :
    stripstrIterate (b :: buf) min 0 .ascii offset (some []) str s =
      some ([], str.set s.matches_ b, { s with matches_ := s.matches_ + 1 }) := by
  exact (if_pos (Or.inl hb)).trans (if_pos hm)

theorem not_collected (hb : isPrintable b = false) :
    ¬(isPrintable b = true ∨ isEncoded .ascii b = true) := by
  rintro (h | h)
  · rw [hb] at h
    exact Bool.false_ne_true h
  · exact Bool.false_ne_true h

/-- What looks like a wide character lets nothing out. -/
theorem stripstrIterate_joined (hm : m ≠ 0)
    (hjoin : b = 0 ∧ buf.getD 0 0 ≠ 0 ∧ buf.getD 1 0 = 0) :
    stripstrIterate (b :: buf) min 0 .ascii offset (some []) str ⟨m, false⟩ =
      some ([], str, ⟨m, true⟩) := by
  have hb : isPrintable b = false := by rw [hjoin.1]; decide
  exact (if_neg (not_collected hb)).trans (if_pos ⟨hm, hjoin.2.2, hjoin.1, hjoin.2.1⟩)

/-- What is too short is forgotten. -/
theorem stripstrIterate_forget (hb : isPrintable b = false)
    (hjoin : s.matches_ = 0 ∨ ¬(b = 0 ∧ buf.getD 0 0 ≠ 0 ∧ buf.getD 1 0 = 0))
    (hmin : (s.matches_ : ℤ) < min) :
    stripstrIterate (b :: buf) min 0 .ascii offset (some []) str s = some ([], str, {}) := by
  have hnot : ¬(s.matches_ ≠ 0 ∧ buf.getD 1 0 = 0 ∧ b = 0 ∧ buf.getD 0 0 ≠ 0) := by
    rintro ⟨hm, hsecond, hzero, hfirst⟩
    exact hjoin.elim hm fun h => h ⟨hzero, hfirst, hsecond⟩
  have hshort : ¬(min ≤ (s.matches_ : ℤ) ∧ ((0 : ℤ) = 0 ∨ (s.matches_ : ℤ) ≤ 0)) := by omega
  exact (if_neg (not_collected hb)).trans ((if_neg hnot).trans (if_neg hshort))

/-- What is in front of the NUL that is written. -/
theorem takeWhile_set (hw : ∀ c ∈ w, isPrintable c = true) (htake : str.take w.length = w)
    (hlt : w.length < str.length) : (str.set w.length 0).takeWhile (· ≠ 0) = w := by
  have hsplit : str.set w.length 0 = w ++ 0 :: str.drop (w.length + 1) := by
    rw [List.set_eq_take_append_cons_drop, if_pos hlt, htake]
  have hne : ∀ c ∈ w, decide (c ≠ 0) = true := by
    intro c hc
    refine decide_eq_true fun hzero => ?_
    have hprint := hw c hc
    rw [hzero] at hprint
    exact absurd hprint (by decide)
  rw [hsplit, List.takeWhile_append_of_pos hne, List.takeWhile_cons, if_neg (by decide),
    List.append_nil]

/-- **What is long enough is reported**, with where it began. -/
theorem stripstrIterate_report (hb : isPrintable b = false)
    (hjoin : ¬(b = 0 ∧ buf.getD 0 0 ≠ 0 ∧ buf.getD 1 0 = 0)) (hmin : min ≤ (w.length : ℤ))
    (hthree : 3 ≤ min) (hw : ∀ c ∈ w, isPrintable c = true) (htake : str.take w.length = w)
    (hlt : w.length < strSize) (hsize : str.length = strSize) (hi : w.length ≤ i) :
    stripstrIterate (b :: buf) min 0 .ascii (UInt64.ofNat i) (some []) str ⟨w.length, false⟩ =
      some ([reportOf (i - w.length, w)], str.set w.length 0, {}) := by
  have hnot : ¬(w.length ≠ 0 ∧ buf.getD 1 0 = 0 ∧ b = 0 ∧ buf.getD 0 0 ≠ 0) := by
    rintro ⟨-, hsecond, hzero, hfirst⟩
    exact hjoin ⟨hzero, hfirst, hsecond⟩
  have htext := takeWhile_set hw htake (hsize ▸ hlt)
  have hlong : 2 < w.length := by omega
  have hmatch : ((some ([] : List u8)).all fun m => strstr w m) = true := by
    exact decide_eq_true (List.nil_infix)
  refine (if_neg (not_collected hb)).trans ((if_neg hnot).trans
    ((if_pos ⟨hmin, Or.inl rfl⟩).trans ((if_pos hlt).trans ?_)))
  dsimp only
  rw [htext, if_pos ⟨hmatch, hlong⟩, if_neg Bool.false_ne_true, reportOf,
    UInt64.ofNat_sub hi]

/-! ## One file -/

/-- A byte further on. -/
theorem mem_add (hl : f.bytes = v ++ l) (k : ℕ) :
    f.mem (v.length + k) = (l ++ f.behind).getD k 0 := by
  unfold ScannedFile.mem
  rw [hl, List.append_assoc, List.getD_eq_getElem?_getD, List.getD_eq_getElem?_getD,
    List.getElem?_append_right (Nat.le_add_right ..), Nat.add_sub_cancel_left]

/-- What is collected in front of a byte. -/
structure Collects (f : ScannedFile) (front w l str : List u8) : Prop where
  bytes : f.bytes = front ++ w ++ l
  printable : ∀ c ∈ w, isPrintable c = true
  held : str.take w.length = w
  size : str.length = strSize

/-- The texts from a byte on. -/
def textsFrom (front w l : List u8) : List (ℕ × List u8) :=
  stretchesFrom isPrintable (front.length + w.length) w l

/-- A character more. -/
theorem Collects.collect {front : List u8} (h : Collects f front w (b :: l) str)
    (hb : isPrintable b = true) (hlt : w.length < strSize) :
    Collects f front (w ++ [b]) l (str.set w.length b) where
  bytes := by rw [h.bytes]; simp
  printable := by
    intro c hc
    rcases List.mem_append.mp hc with hc | hc
    · exact h.printable c hc
    · exact List.mem_singleton.mp hc ▸ hb
  held := by
    have hlen : w.length < str.length := by rw [h.size]; exact hlt
    rw [List.length_append, List.length_singleton, List.set_eq_take_append_cons_drop, if_pos hlen,
      h.held, List.take_append, List.take_of_length_le (Nat.le_succ _), Nat.add_sub_cancel_left]
    rfl
  size := by rw [List.length_set, h.size]

/-- Bytes that are not collected. -/
theorem Collects.pass {front : List u8} (h : Collects f front w (v ++ l) str)
    (hsize : buf.length = strSize) : Collects f (front ++ w ++ v) [] l buf where
  bytes := by rw [h.bytes]; simp
  printable := fun c hc => absurd hc List.not_mem_nil
  held := rfl
  size := hsize

theorem textsFrom_collect {front : List u8} (hb : isPrintable b = true) :
    textsFrom front w (b :: l) = textsFrom front (w ++ [b]) l := by
  unfold textsFrom
  rw [stretchesFrom_pos hb, List.length_append, List.length_singleton, Nat.add_assoc]

theorem textsFrom_pass {front : List u8} (hb : isPrintable b = false) :
    textsFrom front w (b :: l) =
      letOut (front.length + w.length) w ++ textsFrom (front ++ w ++ [b]) [] l := by
  unfold textsFrom
  rw [stretchesFrom_neg hb, List.length_append, List.length_append, List.length_singleton]
  rfl

theorem expected_append (rs rs' : List (ℕ × List u8)) :
    expected min (rs ++ rs') = expected min rs ++ expected min rs' := by
  unfold expected
  rw [List.filter_append, List.map_append]

theorem expected_singleton (r : ℕ × List u8) :
    expected min [r] = if min ≤ (r.2.length : ℤ) then [reportOf r] else [] := by
  unfold expected
  rw [List.filter_singleton]
  by_cases h : min ≤ (r.2.length : ℤ)
  · rw [if_pos h, decide_eq_true h]
    rfl
  · rw [if_neg h, decide_eq_false h]
    rfl

theorem expected_short (hw : (w.length : ℤ) < min) : expected min (letOut i w) = [] := by
  cases w with
  | nil => rfl
  | cons c w =>
    rw [letOut, expected_singleton]
    exact if_neg (not_le_of_gt hw)

theorem expected_long (hw : min ≤ (w.length : ℤ)) (hne : w ≠ []) :
    expected min (letOut i w) = [reportOf (i - w.length, w)] := by
  obtain ⟨c, w, rfl⟩ := List.exists_cons_of_ne_nil hne
  rw [letOut, expected_singleton]
  exact if_pos hw

/-- From a byte on, the texts are reported; and if they are closed, nothing is left. -/
def LoopRight (min : ℤ) (f : ScannedFile) (front w l str : List u8) : Prop :=
  ∃ s, stripstrLoop min .ascii f.behind (front.length + w.length) l str ⟨w.length, false⟩ =
      some (expected min (textsFrom front w l), s) ∧
    ((∀ r ∈ textsFrom front w l, f.TextClosed r) → s = {})

variable {front : List u8}

theorem stripstrLoop_cons {rs rs' : List Report} {str' : List u8} {s' s'' : Collected}
    (h : stripstrIterate (b :: l ++ behind) min 0 .ascii (UInt64.ofNat i) (some []) str s =
      some (rs, str', s'))
    (hrest : stripstrLoop min .ascii behind (i + 1) l str' s' = some (rs', s'')) :
    stripstrLoop min .ascii behind i (b :: l) str s = some (rs ++ rs', s'') := by
  rw [stripstrLoop, h]
  dsimp only
  rw [hrest]
  rfl

/-- A text that is collected up to an index is one of the file. -/
theorem mem_letOut_self (hw : w ≠ []) (n : ℕ) : (n, w) ∈ letOut (n + w.length) w :=
  mem_letOut.mpr ⟨hw, (Nat.add_sub_cancel ..).symm, rfl⟩

theorem Collects.length (h : Collects f front w l str) :
    f.bytes.length = front.length + w.length + l.length := by
  rw [h.bytes, List.length_append, List.length_append]

/-- At the end of the file a short text is not missed. -/
theorem loopRight_nil (h : Collects f front w [] str)
    (hfits : ∀ r ∈ textsFrom front w [], f.TextFits min r) : LoopRight min f front w [] str := by
  have hlen := h.length
  rw [List.length_nil] at hlen
  by_cases hw : w = []
  · subst hw
    exact ⟨{}, rfl, fun _ => rfl⟩
  · have hmem := mem_letOut_self hw front.length
    have hnot : ¬f.LetsOut (front.length + w.length) := fun hout => by
      have := hout.1
      omega
    have hshort : (w.length : ℤ) < min := by
      have hfit := hfits _ hmem
      unfold ScannedFile.TextFits at hfit
      by_contra hlong
      rw [if_pos (Int.not_lt.mp hlong)] at hfit
      exact hnot hfit.2
    refine ⟨⟨w.length, false⟩, ?_, fun hclosed => ?_⟩
    · change some ([], _) = some (expected min (letOut _ w), _)
      rw [expected_short hshort]
    · rcases hclosed _ hmem with hlt | hout
      · dsimp only at hlt
        omega
      · exact absurd hout hnot

/-- A character is collected. -/
theorem loopRight_collect (hb : isPrintable b = true)
    (hfits : ∀ r ∈ textsFrom front w (b :: l), f.TextFits min r)
    (hrest : w.length < strSize → LoopRight min f front (w ++ [b]) l (str.set w.length b)) :
    LoopRight min f front w (b :: l) str := by
  have hlt : w.length < strSize := by
    obtain ⟨v, hv⟩ := exists_mem_stretchesFrom (p := isPrintable) (List.concat_ne_nil b w) l
      (front.length + (w ++ [b]).length)
    have hmem : _ ∈ textsFrom front (w ++ [b]) l := hv
    rw [← textsFrom_collect hb] at hmem
    have hfit := hfits _ hmem
    have hle : (w ++ [b] ++ v).length ≤ strSize := by
      unfold ScannedFile.TextFits at hfit
      split_ifs at hfit
      · exact Nat.le_of_lt hfit.1
      · exact hfit.1
    rw [List.length_append, List.length_append, List.length_singleton] at hle
    omega
  obtain ⟨s, hloop, hclosed⟩ := hrest hlt
  rw [List.length_append, List.length_singleton, ← textsFrom_collect hb] at hloop
  rw [← textsFrom_collect hb] at hclosed
  exact ⟨s, stripstrLoop_cons (stripstrIterate_collect hb hlt) hloop, hclosed⟩

/-- What the byte behind the collected text, and the two behind that, look like. -/
theorem Collects.joined_iff (h : Collects f front w (b :: l) str) :
    f.Joined (front.length + w.length) ↔
      b = 0 ∧ (l ++ f.behind).getD 0 0 ≠ 0 ∧ (l ++ f.behind).getD 1 0 = 0 := by
  have hmem : ∀ k, f.mem (front.length + w.length + k) = (b :: l ++ f.behind).getD k 0 := by
    intro k
    have hk := mem_add h.bytes k
    rwa [List.length_append] at hk
  unfold ScannedFile.Joined
  rw [hmem 1, hmem 2, ← Nat.add_zero (front.length + w.length), hmem 0]
  rfl

/-- What is collected is let out: reported if it is long enough, and forgotten if not. -/
theorem loopRight_pass (hthree : 3 ≤ min) (h : Collects f front w (b :: l) str)
    (hb : isPrintable b = false) (hout : w = [] ∨ ¬f.Joined (front.length + w.length))
    (hfits : ∀ r ∈ textsFrom front w (b :: l), f.TextFits min r)
    (hrest : ∀ str, str.length = strSize → LoopRight min f (front ++ w ++ [b]) [] l str) :
    LoopRight min f front w (b :: l) str := by
  rw [h.joined_iff] at hout
  have hlen : (front ++ w ++ [b]).length = front.length + w.length + 1 := by
    rw [List.length_append, List.length_append, List.length_singleton]
  have hgoal : ∀ str' rs, str'.length = strSize →
      stripstrIterate (b :: l ++ f.behind) min 0 .ascii
        (UInt64.ofNat (front.length + w.length)) (some []) str ⟨w.length, false⟩ =
          some (rs, str', {}) →
      rs = expected min (letOut (front.length + w.length) w) →
      LoopRight min f front w (b :: l) str := by
    rintro str' rs hsize hstep rfl
    obtain ⟨s, hloop, hclosed⟩ := hrest str' hsize
    rw [hlen, List.length_nil] at hloop
    refine ⟨s, ?_, fun hall => hclosed fun r hr => hall r ?_⟩
    · rw [textsFrom_pass hb, expected_append]
      exact stripstrLoop_cons hstep hloop
    · rw [textsFrom_pass hb]
      exact List.mem_append_right _ hr
  by_cases hmin : min ≤ (w.length : ℤ)
  · have hne : w ≠ [] := by
      rintro rfl
      rw [List.length_nil] at hmin
      omega
    have hfit := hfits (front.length, w) (by
      rw [textsFrom_pass hb]
      exact List.mem_append_left _ (mem_letOut_self hne front.length))
    unfold ScannedFile.TextFits at hfit
    rw [if_pos hmin] at hfit
    refine hgoal (str.set w.length 0) _ (by rw [List.length_set, h.size]) ?_
      (expected_long hmin hne).symm
    exact stripstrIterate_report hb (hout.resolve_left hne) hmin hthree h.printable h.held hfit.1
      h.size (Nat.le_add_left ..)
  · have hshort := Int.not_le.mp hmin
    have hempty : (⟨w.length, false⟩ : Collected).matches_ = 0 ∨
        ¬(b = 0 ∧ (l ++ f.behind).getD 0 0 ≠ 0 ∧ (l ++ f.behind).getD 1 0 = 0) :=
      hout.imp_left fun hw => List.length_eq_zero_iff.mpr hw
    exact hgoal str [] h.size (stripstrIterate_forget hb hempty hshort) (expected_short hshort).symm

/-- Behind a character and a NUL, a character and a NUL are at the end of the file at most. -/
theorem narrow_end {l : List u8} (hnarrow : f.Narrow) (h : Collects f front w (b :: x :: l) str)
    (hw : w ≠ []) (hjoin : b = 0 ∧ (x :: l ++ f.behind).getD 0 0 ≠ 0 ∧
      (x :: l ++ f.behind).getD 1 0 = 0) (hx : isPrintable x = true) : l = [] := by
  obtain ⟨w', c, rfl⟩ := (List.eq_nil_or_concat' w).resolve_left hw
  have hbytes : f.bytes = (front ++ w') ++ c :: b :: x :: l := by rw [h.bytes]; simp
  have hmem := mem_add hbytes
  by_contra hne
  obtain ⟨y, l, rfl⟩ := List.exists_cons_of_ne_nil hne
  refine hnarrow ((front ++ w').length + 0) ?_ ?_ ?_ ?_ ?_
  · have hlen := congrArg List.length hbytes
    simp only [List.length_append, List.length_cons] at hlen ⊢
    omega
  · rw [hmem 0]
    exact h.printable c (List.mem_append_right _ (List.mem_singleton_self c))
  · exact (hmem 1).trans hjoin.1
  · exact (congrArg isPrintable (hmem 2)).trans hx
  · exact (hmem 3).trans hjoin.2.2

/-- A short text in front of what looks like a wide character is forgotten too, unless the
file ends there. -/
theorem loopRight_join (hthree : 3 ≤ min) (hnarrow : f.Narrow)
    (h : Collects f front w (b :: l) str) (hw : w ≠ [])
    (hjoin : f.Joined (front.length + w.length))
    (hfits : ∀ r ∈ textsFrom front w (b :: l), f.TextFits min r)
    (hrest : ∀ x l', l = x :: l' → isPrintable x = false →
      LoopRight min f (front ++ w ++ [b] ++ [x]) [] l' str) :
    LoopRight min f front w (b :: l) str := by
  have hjoin' := h.joined_iff.mp hjoin
  have hb : isPrintable b = false := by rw [hjoin'.1]; decide
  have hlen := h.length
  have hmem : (front.length, w) ∈ textsFrom front w (b :: l) := by
    rw [textsFrom_pass hb]
    exact List.mem_append_left _ (mem_letOut_self hw front.length)
  have hfit := hfits _ hmem
  unfold ScannedFile.TextFits at hfit
  have hshort : (w.length : ℤ) < min := by
    by_contra hlong
    rw [if_pos (Int.not_lt.mp hlong)] at hfit
    exact hfit.2.2 hjoin
  rw [if_neg (Int.not_le.mpr hshort)] at hfit
  have hpos : w.length ≠ 0 := fun hzero => hw (List.length_eq_zero_iff.mp hzero)
  have hstep : stripstrIterate (b :: (l ++ f.behind)) min 0 .ascii
      (UInt64.ofNat (front.length + w.length)) (some []) str ⟨w.length, false⟩ =
        some ([], str, ⟨w.length, true⟩) := stripstrIterate_joined hpos hjoin'
  cases l with
  | nil =>
    refine ⟨⟨w.length, true⟩, ?_, fun hclosed => ?_⟩
    · rw [textsFrom_pass hb, expected_append, expected_short hshort]
      exact stripstrLoop_cons hstep rfl
    · rcases hclosed _ hmem with hlt | hout
      · rw [List.length_singleton] at hlen
        dsimp only at hlt
        omega
      · exact absurd hjoin hout.2
  | cons x l =>
    have hx : x ≠ 0 := hjoin'.2.1
    cases hprint : isPrintable x with
    | true =>
      have hnil : l = [] := narrow_end hnarrow h hw hjoin' hprint
      subst hnil
      rw [List.length_cons, List.length_singleton] at hlen
      have hlt : w.length < strSize := by
        refine Nat.lt_of_le_of_ne hfit.1 fun heq => hfit.2 heq ⟨hjoin, hlen.symm, ?_⟩
        have hmem1 := mem_add h.bytes 1
        rw [List.length_append] at hmem1
        exact hmem1 ▸ hprint
      have hone : expected min (textsFrom (front ++ w ++ [b]) [] [x]) = [] := by
        rw [textsFrom_collect hprint]
        change expected min (letOut _ [x]) = []
        refine expected_short ?_
        rw [List.length_singleton]
        omega
      refine ⟨⟨w.length + 1, true⟩, ?_, fun hclosed => ?_⟩
      · rw [textsFrom_pass hb, expected_append, expected_short hshort, hone]
        exact stripstrLoop_cons hstep
          (stripstrLoop_cons (stripstrIterate_collect hprint hlt) rfl)
      · have hmem1 : (front.length + w.length + 1, [x]) ∈ textsFrom front w (b :: [x]) := by
          rw [textsFrom_pass hb, textsFrom_collect hprint]
          have hlen' : (front ++ w ++ [b]).length = front.length + w.length + 1 := by
            rw [List.length_append, List.length_append, List.length_singleton]
          refine List.mem_append_right _ ?_
          rw [← hlen']
          exact mem_letOut_self (List.cons_ne_nil x []) _
        rcases hclosed _ hmem1 with hlt | hout
        · rw [List.length_singleton] at hlt
          omega
        · have := hout.1
          rw [List.length_singleton] at this
          omega
    | false =>
      obtain ⟨s, hloop, hclosed⟩ := hrest x l rfl hprint
      have hforget : stripstrIterate (x :: (l ++ f.behind)) min 0 .ascii
          (UInt64.ofNat (front.length + w.length + 1)) (some []) str ⟨w.length, true⟩ =
            some ([], str, {}) :=
        stripstrIterate_forget hprint (Or.inr fun hzero => hx hzero.1) hshort
      have htexts : textsFrom front w (b :: x :: l) = letOut (front.length + w.length) w ++
          textsFrom (front ++ w ++ [b] ++ [x]) [] l := by
        rw [textsFrom_pass hb, textsFrom_pass hprint, List.append_nil]
        rfl
      rw [List.length_append, List.length_append, List.length_append,
        List.length_singleton] at hloop
      refine ⟨s, ?_, fun hall => hclosed fun r hr => hall r ?_⟩
      · rw [htexts, expected_append, expected_short hshort]
        exact stripstrLoop_cons hstep (stripstrLoop_cons hforget hloop)
      · rw [htexts]
        exact List.mem_append_right _ hr

/-- **The texts from a byte on are reported**, by induction on what is left of the file. Two
bytes are taken at once where they look like a wide character. -/
theorem loopRight (hthree : 3 ≤ min) (hnarrow : f.Narrow) (n : ℕ) :
    ∀ front w l str, l.length ≤ n → Collects f front w l str →
      (∀ r ∈ textsFrom front w l, f.TextFits min r) → LoopRight min f front w l str := by
  induction n with
  | zero =>
    intro front w l str hn h hfits
    obtain rfl := List.length_eq_zero_iff.mp (Nat.le_zero.mp hn)
    exact loopRight_nil h hfits
  | succ n ih =>
    intro front w l str hn h hfits
    cases l with
    | nil => exact loopRight_nil h hfits
    | cons b l =>
      have hn' : l.length ≤ n := Nat.le_of_succ_le_succ hn
      cases hb : isPrintable b with
      | true =>
        refine loopRight_collect hb hfits fun hlt => ih _ _ _ _ hn' (h.collect hb hlt) ?_
        rw [← textsFrom_collect hb]
        exact hfits
      | false =>
        have hpass : ∀ r ∈ textsFrom (front ++ w ++ [b]) [] l, f.TextFits min r := by
          intro r hr
          refine hfits r ?_
          rw [textsFrom_pass hb]
          exact List.mem_append_right _ hr
        by_cases hout : w = [] ∨ ¬f.Joined (front.length + w.length)
        · exact loopRight_pass hthree h hb hout hfits fun str' hsize =>
            ih _ _ _ _ hn' (Collects.pass (v := [b]) h hsize) hpass
        · rw [not_or, not_not] at hout
          refine loopRight_join hthree hnarrow h hout.1 hout.2 hfits fun x l' hl hx => ?_
          subst hl
          have hnext : Collects f (front ++ w ++ [b]) [] (x :: l') str :=
            Collects.pass (v := [b]) h h.size
          have hnext' : Collects f (front ++ w ++ [b] ++ [x]) [] l' str := by
            have hpass' := Collects.pass (v := [x]) hnext h.size
            rwa [List.append_nil] at hpass'
          rw [List.length_cons] at hn'
          refine ih _ _ _ _ (by omega) hnext' fun r hr => hpass r ?_
          rw [textsFrom_pass hx, List.append_nil]
          exact List.mem_append_right _ hr

namespace ScannedFile

/-- All texts of a file fit. -/
def Fits (f : ScannedFile) (min : ℤ) : Prop := ∀ r ∈ f.texts, f.TextFits min r

/-- Nothing of a file is left for the next one. -/
def Closed (f : ScannedFile) : Prop := ∀ r ∈ f.texts, f.TextClosed r

end ScannedFile

/-- **The texts of a file are reported**, if nothing is collected before. -/
theorem stripstrFromFile_right (hthree : 3 ≤ min) (hnarrow : f.Narrow) (hfits : f.Fits min) :
    ∃ s, stripstrFromFile f min .ascii 0 0 {} = some (expected min f.texts, s) ∧
      (f.Closed → s = {}) := by
  have hcollects : Collects f [] [] f.bytes f.str :=
    ⟨rfl, fun c hc => absurd hc List.not_mem_nil, rfl, f.size⟩
  obtain ⟨s, hloop, hclosed⟩ := loopRight hthree hnarrow f.bytes.length [] [] f.bytes f.str
    (Nat.le_refl _) hcollects hfits
  refine ⟨s, ?_, hclosed⟩
  unfold stripstrFromFile
  have hnot : ¬((0 : ut64) ≠ 0 ∧ (0 : ut64).toNat < f.bytes.length) := fun h => h.1 rfl
  dsimp only
  rw [if_neg (by omega : ¬min < 1), if_neg hnot, List.drop_length, List.take_length]
  exact hloop

/-! ## Files -/

/-- **When the texts of files are all reported**: every text to report is shorter than `str`
and has a byte of the file behind it that does not look like a wide character, every other
one fits, and no file but the last leaves a text for the next one. -/
theorem stripstrFiles_right (min : ℤ) (hthree : 3 ≤ min) (fs : List ScannedFile)
    (hnarrow : ∀ f ∈ fs, f.Narrow) (hfits : ∀ f ∈ fs, f.Fits min)
    (hclosed : ∀ f ∈ fs.dropLast, f.Closed) : AllReported min fs := by
  unfold AllReported
  induction fs with
  | nil => rfl
  | cons f fs ih =>
    obtain ⟨s, hfile, hnext⟩ := stripstrFromFile_right hthree (hnarrow f List.mem_cons_self)
      (hfits f List.mem_cons_self)
    have hrest : stripstrFiles min .ascii fs s = some (fs.map fun f => expected min f.texts) := by
      cases fs with
      | nil => rfl
      | cons g fs =>
        rw [List.dropLast_cons_of_ne_nil (List.cons_ne_nil g fs)] at hclosed
        rw [hnext (hclosed f List.mem_cons_self)]
        exact ih (fun x hx => hnarrow x (List.mem_cons_of_mem f hx))
          (fun x hx => hfits x (List.mem_cons_of_mem f hx))
          (fun x hx => hclosed x (List.mem_cons_of_mem f hx))
    unfold stripstrFiles
    rw [hfile]
    dsimp only
    rw [hrest]
    rfl

/-- A file with a text and a NUL. -/
def closedFile : ScannedFile :=
  ⟨ascii "abc" ++ [0], [], List.replicate strSize 0, List.length_replicate ..⟩

/-- A file that ends with a text. -/
def openFile : ScannedFile :=
  ⟨ascii "abc", [], List.replicate strSize 0, List.length_replicate ..⟩

/-- One file with a text and a NUL, and another. -/
theorem closedFile_reported : AllReported 3 [closedFile, closedFile] := by
  have htexts : closedFile.texts = [(0, ascii "abc")] := by decide
  have hout : closedFile.LetsOut 3 := ⟨by decide, fun h => h.2.1 (by decide)⟩
  have hall : ∀ f ∈ [closedFile, closedFile], f = closedFile := by
    intro f hf
    rcases List.mem_cons.mp hf with rfl | hf
    · rfl
    · exact List.mem_singleton.mp hf
  refine stripstrFiles_right 3 (by decide) _ (fun f hf => ?_) (fun f hf => ?_) fun f hf => ?_
  · rw [hall f hf]
    intro e he _ hzero
    have he' : e = 0 := by
      change e + 3 < 4 at he
      omega
    subst he'
    exact absurd hzero (by decide)
  · rw [hall f hf]
    intro r hr
    rw [htexts] at hr
    rw [List.mem_singleton.mp hr]
    exact ⟨by decide, hout⟩
  · rw [hall f (List.mem_of_mem_dropLast hf)]
    intro r hr
    rw [htexts] at hr
    rw [List.mem_singleton.mp hr]
    exact Or.inr hout

/-- A text at the end of a file is not reported. -/
theorem openFile_not_reported : ¬AllReported 3 [openFile] := by
  have hrun : stripstrFiles 3 .ascii [openFile] {} = some [[]] := rfl
  have hwant : expected 3 openFile.texts = [⟨false, 0, 3, ascii "abc"⟩] := by decide
  unfold AllReported
  rw [hrun, List.map_singleton, hwant]
  decide

end Strings

end Radare
