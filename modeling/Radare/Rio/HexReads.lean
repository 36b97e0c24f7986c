import Radare.Rio.HexBounds
import Radare.Rio.HexText
/-!
# Where `hexstr2binstr` reads

The places that the loop reads are listed as it reads them (`hexReads`): the
character that it is at, behind a `0` the next one, and for a number the whole
string, by `get_math`, and the characters up to the end of the word. The
header of the loop then steps over the character that ended the word, which
may be the NUL.

So the loop stays inside its string, unless the string ends in a number that
it comes to (`hexReads_inside_iff`). Here the output is apart from the input.
-/

namespace Radare

/-! ## The reads -/

/-- The places of a string, with its NUL. -/
def stringReads (mem : List u8) (i : ℕ) : List ℕ := List.range' i ((cstr (mem.drop i)).length + 1)

/-- What is read to see whether a number begins, and by `get_math` then. -/
def numberReads (mem : List u8) (ptr : ℕ) : List ℕ :=
  if mem[ptr]? = some 48 then
    (ptr + 1) :: if mem[ptr + 1]? = some 120 then stringReads mem ptr else []
  else []

/-- The places that a turn reads: everything up to where the loop goes on,
and what it looks at besides. -/
def turnReads (getMath : List u8 → ut64) (out : ℕ) (st : HexScan) : List ℕ :=
  let mem := if st.j = 2 then st.mem.set (out + st.len) st.c else st.mem
  st.ptr :: (if st.mem[st.ptr]?.any ignored then [] else numberReads mem st.ptr) ++
    match hexTurn getMath out st with
    | some (.next st') => List.range' st.ptr (st'.ptr - st.ptr)
    | _ => []

/-- The places that the loop reads. -/
def hexReads (getMath : List u8 → ut64) (out : ℕ) : ℕ → HexScan → List ℕ
  | 0, _ => []
  | fuel + 1, st =>
    turnReads getMath out st ++
      match hexTurn getMath out st with
      | some (.next st') => hexReads getMath out fuel st'
      | _ => []

/-- The text ends in a number: the first flag is up within one, which goes
from its `0x` to a blank or a tab. Before it there are digits, characters
that are passed over, and other numbers. -/
def endsInNumber : Bool → List u8 → Bool
  | true, [] => true
  | true, c :: rest => endsInNumber (!decide (c = 32 ∨ c = 9)) rest
  | false, [] => false
  | false, 48 :: 120 :: rest => endsInNumber true rest
  | false, c :: rest => (ignored c || (hexDigit c).isSome) && endsInNumber false rest

/-- Where a text is, and where its bytes go: in front of it, or behind. -/
structure HexApart (mem : List u8) (inp out : ℕ) (text : List u8) : Prop where
  string : StringAt mem inp text
  room : out + 2 * text.length ≤ inp ∨
    inp + text.length < out ∧ out + 2 * text.length ≤ mem.length

variable {getMath : List u8 → ut64} {mem rest text word pre post : List u8}
  {b c ch : u8} {st st' : HexScan} {inp ptr o fuel p : ℕ}

/-! ## Strings that are apart from the writes -/

theorem StringAt.head (h : StringAt mem ptr rest) : mem[ptr]? = some (rest.headD 0) := by
  obtain ⟨behind, hdrop⟩ := h
  have hget := congrArg List.head? hdrop
  rw [List.head?_drop] at hget
  rw [hget]
  cases rest <;> rfl

theorem StringAt.tail (h : StringAt mem ptr (ch :: rest)) : StringAt mem (ptr + 1) rest := by
  obtain ⟨behind, hdrop⟩ := h
  refine ⟨behind, ?_⟩
  rw [← List.drop_drop, hdrop]
  rfl

theorem StringAt.drop (h : StringAt mem ptr (pre ++ rest)) :
    StringAt mem (ptr + pre.length) rest := by
  induction pre generalizing ptr with
  | nil => exact h
  | cons c pre ih =>
    have hrest := ih h.tail
    rwa [Nat.add_assoc, Nat.add_comm 1] at hrest

theorem StringAt.lt_length (h : StringAt mem ptr rest) : ptr + rest.length < mem.length := by
  obtain ⟨behind, hdrop⟩ := h
  have hlength := congrArg List.length hdrop
  rw [List.length_drop, List.length_append, List.length_cons] at hlength
  omega

/-- A write in front of a string or behind it. -/
theorem StringAt.set (h : StringAt mem ptr rest) (hp : p < ptr ∨ ptr + rest.length < p) :
    StringAt (mem.set p c) ptr rest := by
  obtain ⟨behind, hdrop⟩ := h
  rcases hp with hlt | hlt
  · exact ⟨behind, by rw [List.drop_set, if_pos hlt, hdrop]⟩
  · obtain ⟨k, rfl⟩ : ∃ k, p = ptr + (rest.length + (k + 1)) :=
      ⟨p - ptr - rest.length - 1, by omega⟩
    refine ⟨behind.set k c, ?_⟩
    rw [List.drop_set, if_neg (by omega), hdrop, Nat.add_sub_cancel_left,
      List.set_append_right _ _ (Nat.le_add_right _ _), Nat.add_sub_cancel_left, List.set_cons_succ]

theorem StringAt.cstr (h : StringAt mem ptr rest) (hzero : 0 ∉ rest) :
    cstr (mem.drop ptr) = rest := by
  obtain ⟨behind, hdrop⟩ := h
  rw [hdrop]
  exact cstr_front hzero

/-- The word ends at the first character that may end it. -/
theorem wordEnd_of_drop (h : mem.drop ptr = word ++ b :: post)
    (hword : ∀ c ∈ word, c ≠ 0 ∧ c ≠ 32 ∧ c ≠ 9) (hb : b = 0 ∨ b = 32 ∨ b = 9) :
    wordEnd mem ptr = some (ptr + word.length) := by
  have hfind : (word ++ b :: post).findIdx? (fun c => decide (c = 0 ∨ c = 32 ∨ c = 9)) =
      some word.length := by
    rw [List.findIdx?_append, List.findIdx?_eq_none_iff.mpr fun c hc => ?_]
    · rw [List.findIdx?_cons, if_pos (decide_eq_true hb)]
      simp
    · obtain ⟨hzero, hblank, htab⟩ := hword c hc
      exact decide_eq_false fun h => h.elim hzero fun h => h.elim hblank htab
  unfold wordEnd
  rw [h, hfind]
  rfl

/-! ## The state -/

/-- What is still to be read, and the room that is left for its bytes. -/
structure HexScan.Ahead (st : HexScan) (o : ℕ) (rest : List u8) : Prop where
  string : StringAt st.mem st.ptr rest
  room : o + st.len + 2 * rest.length + st.j ≤ st.ptr ∨
    st.ptr + rest.length < o + st.len ∧ o + st.len + 2 * rest.length + st.j ≤ st.mem.length
  few : st.j ≤ 2

/-- The byte that is complete is stored. -/
def HexScan.flushAt (st : HexScan) (o : ℕ) : HexScan :=
  if st.j = 2 then
    { st with mem := st.mem.set (o + st.len) st.c, len := st.len + 1, c := 0, j := 0 }
  else st

theorem HexScan.Ahead.flush (h : st.Ahead o rest) :
    (st.flushAt o).Ahead o rest ∧ (st.flushAt o).j < 2 ∧ (st.flushAt o).ptr = st.ptr ∧
      (st.flushAt o).mem = if st.j = 2 then st.mem.set (o + st.len) st.c else st.mem := by
  have hroom := h.room
  have hfew := h.few
  unfold HexScan.flushAt
  split_ifs with hj
  · refine ⟨⟨h.string.set ?_, ?_, Nat.zero_le 2⟩, Nat.zero_lt_two, rfl, rfl⟩
    · omega
    · simp only [List.length_set]
      omega
  · exact ⟨h, by omega, rfl, rfl⟩

/-- A turn goes on behind the store of the byte that is complete. -/
theorem HexScan.Ahead.turn_eq (h : st.Ahead o rest) (hig : ignored (rest.headD 0) = false) :
    hexTurn getMath o st = (st.flushAt o).read getMath o (rest.headD 0) := by
  have hroom := h.room
  have hhead := h.flush.1.string.head
  have hlength := h.string.lt_length
  rw [hexTurn_eq h.string.head hig]
  unfold HexScan.flushAt at hhead ⊢
  split_ifs with hj
  · rw [if_pos hj] at hhead
    have hlt : o + st.len < st.mem.length := by omega
    rw [store, if_pos hlt, Option.map_some, Option.bind_some]
    exact congrArg (Option.bind · _) hhead
  · rw [Option.bind_some, h.string.head]
    rfl

/-! ## Turns -/

/-- A character passed over. -/
theorem HexScan.Ahead.ignored_next (h : st.Ahead o (ch :: rest)) (hig : ignored ch = true) :
    ∃ st', hexTurn getMath o st = some (.next st') ∧ st'.ptr = st.ptr + 1 ∧ st'.Ahead o rest := by
  have hroom := h.room
  have hhead : st.mem[st.ptr]? = some ch := h.string.head
  refine ⟨{ st with ptr := st.ptr + 1 }, ?_, rfl, h.string.tail, ?_, h.few⟩
  · unfold hexTurn
    simp only [hhead, Option.bind_eq_bind, Option.bind_some, hig, if_true]
    rfl
  · rw [List.length_cons] at hroom
    dsimp only
    omega

/-- A digit that is not the `0` of `0x`. -/
theorem HexScan.Ahead.digit_next (h : st.Ahead o (ch :: rest)) {d : ℕ} (hd : hexDigit ch = some d)
    (hx : ¬(ch = 48 ∧ rest.headD 0 = 120)) :
    ∃ st', hexTurn getMath o st = some (.next st') ∧ st'.ptr = st.ptr + 1 ∧ st'.Ahead o rest := by
  obtain ⟨hig, hzero, hblank, -⟩ := ne_of_digit hd
  obtain ⟨hahead, hj, hptr, -⟩ := h.flush
  have hroom := hahead.room
  have hsecond : (st.flushAt o).mem[(st.flushAt o).ptr + 1]? = some (rest.headD 0) :=
    hahead.string.tail.head
  have hnumber : ¬(ch = 48 ∧ (st.flushAt o).mem[(st.flushAt o).ptr + 1]? = some 120) := by
    rintro ⟨hch, hnext⟩
    rw [hsecond] at hnext
    exact hx ⟨hch, Option.some.inj hnext⟩
  refine ⟨(st.flushAt o).digit ((st.flushAt o).c * 16 + UInt8.ofNat d), ?_, ?_, ?_, ?_, ?_⟩
  · rw [h.turn_eq hig]
    unfold HexScan.read
    rw [List.headD_cons, if_neg hblank, if_neg hzero, if_neg hnumber, hex2int_of_digit hd]
  · exact congrArg (· + 1) hptr
  · exact hahead.string.tail
  · rw [List.length_cons] at hroom
    simp only [HexScan.digit]
    omega
  · exact hj

/-- The stores of a number leave what is still to be read. -/
theorem HexScan.Ahead.number_read (getMath : List u8 → ut64) (h : st.Ahead o (48 :: 120 :: text)) :
    ∃ mem, StringAt mem st.ptr (48 :: 120 :: text) ∧ mem.length = st.mem.length ∧
      st.number? getMath o = (wordEnd mem st.ptr).bind fun ptr =>
        some (.next { st with mem := mem, ptr := ptr + 1, len := st.len + 4, j := 0 }) := by
  have hroom := h.room
  have hlength := h.string.lt_length
  rw [List.length_cons, List.length_cons] at hroom hlength
  -- each of the four places is inside the memory and apart from the text
  have hplace : ∀ k < 4, o + st.len + k < st.mem.length ∧
      (o + st.len + k < st.ptr ∨ st.ptr + (48 :: 120 :: text).length < o + st.len + k) := by
    intro k hk
    rw [List.length_cons, List.length_cons]
    omega
  have hstore : ∀ (k : ℕ) (mem : List u8) (c : u8), k < 4 → mem.length = st.mem.length →
      StringAt mem st.ptr (48 :: 120 :: text) →
        store mem (o + st.len + k) c = some (mem.set (o + st.len + k) c) ∧
          (mem.set (o + st.len + k) c).length = st.mem.length ∧
          StringAt (mem.set (o + st.len + k) c) st.ptr (48 :: 120 :: text) := by
    intro k mem c hk hmem hstring
    obtain ⟨hlt, hapart⟩ := hplace k hk
    exact ⟨if_pos (hmem.symm ▸ hlt), by rw [List.length_set, hmem], hstring.set hapart⟩
  unfold HexScan.number?
  dsimp only
  generalize getMath ((st.mem.drop st.ptr).takeWhile (· ≠ 0)) = addr
  obtain ⟨hfst, hmem₁, hstr₁⟩ := hstore 0 _ addr.toUInt8 (by decide) rfl h.string
  obtain ⟨hsnd, hmem₂, hstr₂⟩ := hstore 1 _ (addr >>> 8).toUInt8 (by decide) hmem₁ hstr₁
  obtain ⟨hthd, hmem₃, hstr₃⟩ := hstore 2 _ (addr >>> 16).toUInt8 (by decide) hmem₂ hstr₂
  obtain ⟨hfth, hmem₄, hstr₄⟩ := hstore 3 _ (addr >>> 24).toUInt8 (by decide) hmem₃ hstr₃
  refine ⟨_, hstr₄, hmem₄, ?_⟩
  rw [Nat.add_zero] at hfst
  rw [hfst, Option.bind_some]
  rw [Nat.add_zero] at hsnd hthd hfth ⊢
  rw [hsnd, Option.bind_some, hthd, Option.bind_some, hfth, Option.bind_some]
  rfl

/-- A number, of a word with what ends it. -/
theorem HexScan.Ahead.number_next (getMath : List u8 → ut64) (h : st.Ahead o (48 :: 120 :: text))
    (hsplit : text ++ [0] = word ++ b :: post) (hword : ∀ c ∈ word, c ≠ 0 ∧ c ≠ 32 ∧ c ≠ 9)
    (hb : b = 0 ∨ b = 32 ∨ b = 9) :
    ∃ st', hexTurn getMath o st = some (.next st') ∧ st'.ptr = st.ptr + word.length + 3 ∧
      ∀ rest, post = rest ++ [0] → st'.Ahead o rest := by
  obtain ⟨hahead, hj, hptr, -⟩ := h.flush
  obtain ⟨mem, hstring, hlength, hnumber⟩ := hahead.number_read getMath
  have hroom := hahead.room
  have hend : wordEnd mem (st.flushAt o).ptr = some ((st.flushAt o).ptr + (word.length + 2)) := by
    obtain ⟨behind, hdrop⟩ := hstring
    have hmem : mem.drop (st.flushAt o).ptr = (48 :: 120 :: word) ++ b :: (post ++ behind) := by
      have htext : text ++ 0 :: behind = word ++ b :: (post ++ behind) := by
        rw [← List.cons_append, ← List.append_assoc, ← hsplit, List.append_assoc]
        rfl
      rw [hdrop, List.cons_append, List.cons_append, htext]
      rfl
    refine wordEnd_of_drop hmem (fun c hc => ?_) hb
    rcases List.mem_cons.mp hc with rfl | hc
    · decide
    rcases List.mem_cons.mp hc with rfl | hc
    · decide
    · exact hword c hc
  rw [hend, Option.bind_some] at hnumber
  refine ⟨{ (st.flushAt o) with
      mem := mem
      ptr := (st.flushAt o).ptr + (word.length + 2) + 1
      len := (st.flushAt o).len + 4
      j := 0 }, ?_, ?_, ?_⟩
  · rw [h.turn_eq (show ignored 48 = false by decide)]
    unfold HexScan.read
    rw [List.headD_cons, if_neg (by decide), if_neg (by decide),
      if_pos ⟨rfl, hahead.string.tail.head⟩, hnumber]
  · dsimp only
    rw [hptr]
    omega
  · rintro rest rfl
    have htext : text = word ++ b :: rest := by
      rw [← List.cons_append, ← List.append_assoc] at hsplit
      exact List.append_cancel_right hsplit
    have hpre : 48 :: 120 :: text = (48 :: 120 :: word ++ [b]) ++ rest := by rw [htext]; simp
    rw [hpre] at hstring
    have hrest := hstring.drop
    rw [hpre] at hroom
    simp only [List.length_append, List.length_cons, List.length_nil] at hroom hrest
    refine ⟨?_, ?_, Nat.zero_le 2⟩
    · have hplace : (st.flushAt o).ptr + (word.length + 2) + 1 =
          (st.flushAt o).ptr + (word.length + 1 + 1 + (0 + 1)) := by omega
      dsimp only
      rwa [hplace]
    · dsimp only
      rw [hlength]
      omega

/-! ## The loop -/

theorem endsInNumber_cons (hx : ¬(ch = 48 ∧ rest.headD 0 = 120)) :
    endsInNumber false (ch :: rest) =
      ((ignored ch || (hexDigit ch).isSome) && endsInNumber false rest) := by
  refine endsInNumber.eq_5 ch rest ?_
  rintro tail rfl rfl
  exact hx ⟨rfl, rfl⟩

/-- The number at the end of a text, or one with a blank or a tab behind. -/
theorem endsInNumber_cases (hzero : 0 ∉ text) :
    (∀ c ∈ text, c ≠ 0 ∧ c ≠ 32 ∧ c ≠ 9) ∧ endsInNumber true text = true ∨
      ∃ word b rest, text = word ++ b :: rest ∧ (∀ c ∈ word, c ≠ 0 ∧ c ≠ 32 ∧ c ≠ 9) ∧
        (b = 32 ∨ b = 9) ∧ endsInNumber true text = endsInNumber false rest := by
  induction text with
  | nil => exact Or.inl ⟨fun c hc => absurd hc List.not_mem_nil, rfl⟩
  | cons c text ih =>
    obtain ⟨hc, htext⟩ := not_or.mp (List.mem_cons.not.mp hzero)
    by_cases hb : c = 32 ∨ c = 9
    · refine Or.inr ⟨[], c, text, rfl, fun d hd => absurd hd List.not_mem_nil, hb, ?_⟩
      rw [endsInNumber, decide_eq_true hb]
      rfl
    · have hplain : c ≠ 0 ∧ c ≠ 32 ∧ c ≠ 9 := ⟨Ne.symm hc, not_or.mp hb⟩
      have hgo : endsInNumber true (c :: text) = endsInNumber true text := by
        rw [endsInNumber, decide_eq_false hb]
        rfl
      rw [hgo]
      rcases ih htext with ⟨hall, hends⟩ | ⟨word, b, rest, rfl, hword, hblank, hends⟩
      · exact Or.inl ⟨List.forall_mem_cons.mpr ⟨hplain, hall⟩, hends⟩
      · exact Or.inr ⟨c :: word, b, rest, rfl, List.forall_mem_cons.mpr ⟨hplain, hword⟩, hblank,
          hends⟩

/-- A turn itself reads no further than the NUL. -/
theorem turnReads_le (h : st.Ahead o rest) (hzero : 0 ∉ rest)
    (hnext : ∀ st', hexTurn getMath o st = some (.next st') → st'.ptr ≤ st.ptr + rest.length + 1) :
    ∀ i ∈ turnReads getMath o st, i ≤ st.ptr + rest.length := by
  obtain ⟨hahead, -, hptr, hmem⟩ := h.flush
  have hstring := hahead.string
  rw [hptr, hmem] at hstring
  intro i hi
  unfold turnReads at hi
  dsimp only at hi
  generalize (if st.j = 2 then st.mem.set (o + st.len) st.c else st.mem) = mem at hstring hi
  have hnumber : ∀ i ∈ numberReads mem st.ptr, i ≤ st.ptr + rest.length := by
    intro i hi
    unfold numberReads at hi
    rw [hstring.head] at hi
    cases rest with
    | nil => exact absurd hi List.not_mem_nil
    | cons c rest =>
      split_ifs at hi with hdigit hx
      · rcases List.mem_cons.mp hi with rfl | hi
        · rw [List.length_cons]
          omega
        · unfold stringReads at hi
          rw [hstring.cstr hzero, List.mem_range'_1] at hi
          omega
      · rw [List.mem_singleton.mp hi, List.length_cons]
        omega
      · exact absurd hi List.not_mem_nil
  rcases List.mem_append.mp hi with hi | hi
  · rcases List.mem_cons.mp hi with rfl | hi
    · exact Nat.le_add_right _ _
    split_ifs at hi
    · exact absurd hi List.not_mem_nil
    · exact hnumber i hi
  · split at hi
    · rename_i st' hturn
      have hle := hnext st' hturn
      rw [List.mem_range'_1] at hi
      omega
    · exact absurd hi List.not_mem_nil

/-- Behind a turn that goes on, from the NUL at most. -/
theorem hexReads_next (h : st.Ahead o rest) (hzero : 0 ∉ rest)
    (hturn : hexTurn getMath o st = some (.next st')) (hle : st'.ptr ≤ st.ptr + rest.length + 1) :
    (∀ i ∈ hexReads getMath o (fuel + 1) st, i ≤ st.ptr + rest.length) ↔
      ∀ i ∈ hexReads getMath o fuel st', i ≤ st.ptr + rest.length := by
  have hreads : ∀ i ∈ turnReads getMath o st, i ≤ st.ptr + rest.length := by
    refine turnReads_le h hzero fun st'' hst'' => ?_
    rw [hturn] at hst''
    obtain rfl := HexTurn.next.inj (Option.some.inj hst'')
    exact hle
  rw [hexReads, hturn]
  constructor
  · exact fun hall i hi => hall i (List.mem_append_right _ hi)
  · intro hall i hi
    rcases List.mem_append.mp hi with hi | hi
    · exact hreads i hi
    · exact hall i hi

/-- And where the loop ends. -/
theorem hexReads_last (h : st.Ahead o rest) (hzero : 0 ∉ rest)
    (hturn : ∀ st', hexTurn getMath o st ≠ some (.next st')) :
    ∀ i ∈ hexReads getMath o (fuel + 1) st, i ≤ st.ptr + rest.length := by
  intro i hi
  rw [hexReads] at hi
  rcases List.mem_append.mp hi with hi | hi
  · exact turnReads_le h hzero (fun st' hst' => absurd hst' (hturn st')) i hi
  · split at hi
    · rename_i st' hst'
      exact absurd hst' (hturn st')
    · exact absurd hi List.not_mem_nil

theorem ptr_mem_hexReads (getMath : List u8 → ut64) (o fuel : ℕ) (st : HexScan) :
    st.ptr ∈ hexReads getMath o (fuel + 1) st :=
  List.mem_append_left _ (List.mem_append_left _ List.mem_cons_self)

/-- A character that is no digit is the last one read. -/
theorem HexScan.Ahead.invalid (h : st.Ahead o (ch :: rest)) (hzero : ch ≠ 0)
    (hig : ignored ch = false) (hd : hexDigit ch = none) :
    ∀ st', hexTurn getMath o st ≠ some (.next st') := by
  intro st' hturn
  have hblank : ch ≠ 32 := by
    rintro rfl
    exact absurd hig (by decide)
  have hnumber : ¬(ch = 48 ∧ (st.flushAt o).mem[(st.flushAt o).ptr + 1]? = some 120) := by
    rintro ⟨rfl, -⟩
    exact absurd hd (by decide)
  rw [h.turn_eq hig] at hturn
  unfold HexScan.read at hturn
  rw [List.headD_cons, if_neg hblank, if_neg hzero, if_neg hnumber,
    hex2int_eq_none_iff.mpr hd] at hturn
  cases hturn

/-- A number, which ends at the NUL, or at a blank or a tab with the rest of the
loop behind. -/
theorem hexReads_number_iff {text : List u8} (h : st.Ahead o (48 :: 120 :: text))
    (hzero : 0 ∉ 48 :: 120 :: text) (hpos : 0 < fuel)
    (ih : ∀ {st' : HexScan} {rest : List u8}, st'.Ahead o rest → 0 ∉ rest →
      rest.length ≤ text.length → ((∀ i ∈ hexReads getMath o fuel st', i ≤ st'.ptr + rest.length) ↔
        endsInNumber false rest = false)) :
    (∀ i ∈ hexReads getMath o (fuel + 1) st, i ≤ st.ptr + (48 :: 120 :: text).length) ↔
      endsInNumber true text = false := by
  have htext : 0 ∉ text := fun hmem =>
    hzero (List.mem_cons_of_mem _ (List.mem_cons_of_mem _ hmem))
  rcases endsInNumber_cases htext with ⟨hword, hends⟩ | ⟨word, b, rest, rfl, hword, hb, hends⟩
  · obtain ⟨st', hturn, hptr, -⟩ := h.number_next getMath
      (show text ++ [0] = text ++ 0 :: [] from rfl) hword (Or.inl rfl)
    obtain ⟨fuel, rfl⟩ : ∃ m, fuel = m + 1 := ⟨fuel - 1, by omega⟩
    have hlength : (48 :: 120 :: text).length = text.length + 2 := rfl
    rw [hexReads_next h hzero hturn (by omega), hends]
    refine iff_of_false (fun hall => ?_) (by decide)
    have hle := hall _ (ptr_mem_hexReads getMath o fuel st')
    omega
  · have hsplit : word ++ b :: rest ++ [0] = word ++ b :: (rest ++ [0]) := by simp
    obtain ⟨st', hturn, hptr, hahead⟩ := h.number_next getMath hsplit hword (Or.inr hb)
    have hrest : 0 ∉ rest := fun hmem =>
      htext (List.mem_append_right _ (List.mem_cons_of_mem _ hmem))
    have hlength : (word ++ b :: rest).length = word.length + rest.length + 1 := by
      rw [List.length_append, List.length_cons, Nat.add_assoc]
    have hN : st'.ptr + rest.length = st.ptr + (48 :: 120 :: (word ++ b :: rest)).length := by
      rw [List.length_cons, List.length_cons]
      omega
    rw [hexReads_next h hzero hturn (by omega), hends, ← hN]
    exact ih (hahead rest rfl) hrest (by omega)

/-- **The loop reads no further than the NUL**, unless what is left ends in a
number. -/
theorem hexReads_le_iff (h : st.Ahead o rest) (hzero : 0 ∉ rest) (hfuel : rest.length + 2 ≤ fuel) :
    (∀ i ∈ hexReads getMath o fuel st, i ≤ st.ptr + rest.length) ↔
      endsInNumber false rest = false := by
  induction fuel generalizing st rest with
  | zero => omega
  | succ fuel ih =>
    -- one character further
    have hnext : ∀ {ch tail}, rest = ch :: tail → (∃ st', hexTurn getMath o st = some (.next st') ∧
        st'.ptr = st.ptr + 1 ∧ st'.Ahead o tail) →
        ((∀ i ∈ hexReads getMath o (fuel + 1) st, i ≤ st.ptr + rest.length) ↔
          endsInNumber false tail = false) := by
      rintro ch tail rfl ⟨st', hturn, hptr, hahead⟩
      have hN : st'.ptr + tail.length = st.ptr + (ch :: tail).length := by
        rw [hptr, List.length_cons]
        omega
      rw [List.length_cons] at hfuel
      rw [hexReads_next h hzero hturn (by omega), ← hN]
      exact ih hahead (fun hmem => hzero (List.mem_cons_of_mem _ hmem)) (by omega)
    cases rest with
    | nil =>
      refine iff_of_true (hexReads_last h hzero fun st' => ?_) rfl
      rw [h.turn_eq (by decide)]
      intro hstop
      cases hstop
    | cons ch tail =>
      by_cases hx : ch = 48 ∧ tail.headD 0 = 120
      · obtain ⟨rfl, hsecond⟩ := hx
        obtain ⟨text, rfl⟩ : ∃ text, tail = 120 :: text := by
          cases tail with
          | nil => exact absurd hsecond (by decide)
          | cons d text => exact ⟨text, congrArg (· :: text) hsecond⟩
        rw [List.length_cons, List.length_cons] at hfuel
        rw [endsInNumber]
        exact hexReads_number_iff h hzero (by omega) fun hahead hrest hle =>
          ih hahead hrest (by omega)
      · rw [endsInNumber_cons hx]
        cases hig : ignored ch with
        | true => exact hnext rfl (h.ignored_next hig)
        | false =>
          cases hd : hexDigit ch with
          | some d => exact hnext rfl (h.digit_next hd hx)
          | none =>
            have hch : ch ≠ 0 := fun hch => hzero (hch ▸ List.mem_cons_self)
            exact iff_of_true (hexReads_last h hzero (h.invalid hch hig hd)) rfl

/-- **When `hexstr2binstr` stays inside its input**: no character is read
behind the NUL, if and only if the text does not end in a number that the
loop comes to. -/
theorem hexReads_inside_iff (getMath : List u8 → ut64) (h : HexApart mem inp o text)
    (hzero : 0 ∉ text) :
    (∀ i ∈ hexReads getMath o (mem.length + 1) ⟨mem, inp, 0, 0, 0⟩, i ≤ inp + text.length) ↔
      endsInNumber false text = false := by
  have hlength := h.string.lt_length
  exact hexReads_le_iff ⟨h.string, h.room, Nat.zero_le 2⟩ hzero (by omega)

/-- `61 0x1 62` does not end in a number, and is read as far as its NUL. -/
theorem number_between_inside :
    endsInNumber false [54, 49, 32, 48, 120, 49, 32, 54, 50] = false ∧
      ∀ i ∈ hexReads (fun _ => 1) 10 27 ⟨[54, 49, 32, 48, 120, 49, 32, 54, 50, 0] ++
        List.replicate 18 0, 0, 0, 0, 0⟩, i ≤ 9 := by
  have hplace : HexApart ([54, 49, 32, 48, 120, 49, 32, 54, 50, 0] ++ List.replicate 18 0) 0 10
      [54, 49, 32, 48, 120, 49, 32, 54, 50] := ⟨⟨List.replicate 18 0, rfl⟩, by decide⟩
  have hends : endsInNumber false [54, 49, 32, 48, 120, 49, 32, 54, 50] = false := by decide
  exact ⟨hends, (hexReads_inside_iff (fun _ => 1) hplace (by decide)).mpr hends⟩

/-- **A number at the end**: of `0x1` the character behind the NUL is read. -/
theorem number_last_outside :
    ¬∀ i ∈ hexReads (fun _ => 1) 4 11 ⟨[48, 120, 49, 0] ++ List.replicate 6 0, 0, 0, 0, 0⟩,
      i ≤ 3 := by
  decide

end Radare
