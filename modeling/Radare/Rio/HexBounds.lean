import Mathlib.Logic.Relation
import Radare.Rio.Buffers
/-!
# Where `hexstr2binstr` writes

Pairs of digits come out behind the place where they are read, so that an
argument without `0x` stays inside its copies (`numbersFit_of_no_number`). A
number comes to four bytes however short it is, and is read up to the end
of its word, which the loop then steps over. From there on the bytes may be
ahead of the text, and be read as such.

So what has to be known is what the loop comes to: the bytes and the words
of numbers have to end before the text does (`hex_inside_iff`). Where it
meets a character that is no digit nothing more is looked at.
-/

namespace Radare

variable {getMath : List u8 → ut64} {arg bytes : List u8} {mode : WMode}
  {st st' f : HexScan} {t : HexTurn} {ch : u8} {L n fuel : ℕ} {r : ℕ × List u8}

/-! ## What a turn does -/

/-- A byte that is complete is stored. -/
def HexScan.flush (st : HexScan) : HexScan :=
  if st.j = 2 then { st with mem := st.mem.set st.len st.c, len := st.len + 1, c := 0, j := 0 }
  else st

/-- The character read is the first of a number. -/
def HexScan.AtNumber (st : HexScan) : Prop :=
  st.mem[st.ptr]? = some 48 ∧ st.mem[st.ptr + 1]? = some 120

/-- The memory with the bytes of a number in it. -/
def HexScan.stored (getMath : List u8 → ut64) (st : HexScan) : List u8 :=
  let addr := getMath ((st.mem.drop st.ptr).takeWhile (· ≠ 0))
  (((st.mem.set st.len addr.toUInt8).set (st.len + 1) (addr >>> 8).toUInt8).set (st.len + 2)
    (addr >>> 16).toUInt8).set (st.len + 3) (addr >>> 24).toUInt8

/-- The place behind the character that ends the word, with the bytes of
the number already there. -/
def HexScan.behindWord (getMath : List u8 → ut64) (st : HexScan) : ℕ :=
  st.ptr + ((st.stored getMath).drop st.ptr).findIdx (fun c => c = 0 ∨ c = 32 ∨ c = 9) + 1

/-- A number is read. -/
def HexScan.number (getMath : List u8 → ut64) (st : HexScan) : HexScan :=
  { st with
    mem := st.stored getMath
    ptr := st.behindWord getMath
    len := st.len + 4
    j := 0 }

/-- A digit is. -/
def HexScan.digit (st : HexScan) (c : u8) : HexScan :=
  { st with
    ptr := st.ptr + 1
    c := if st.j = 0 then (c ||| st.c) <<< 4 else c ||| st.c
    j := st.j + 1 }

/-- The stores of a number, where each is looked at. -/
def HexScan.number? (getMath : List u8 → ut64) (out : ℕ) (st : HexScan) : Option HexTurn :=
  let addr := getMath ((st.mem.drop st.ptr).takeWhile (· ≠ 0))
  (store st.mem (out + st.len) addr.toUInt8).bind fun mem =>
    (store mem (out + st.len + 1) (addr >>> 8).toUInt8).bind fun mem =>
      (store mem (out + st.len + 2) (addr >>> 16).toUInt8).bind fun mem =>
        (store mem (out + st.len + 3) (addr >>> 24).toUInt8).bind fun mem =>
          (wordEnd mem st.ptr).bind fun ptr =>
            some (.next { st with mem := mem, ptr := ptr + 1, len := st.len + 4, j := 0 })

/-- The turn behind the store of a byte. -/
def HexScan.read (getMath : List u8 → ut64) (out : ℕ) (st : HexScan) (ch : u8) : Option HexTurn :=
  if ch = 32 then some (.next { st with ptr := st.ptr + 1 })
  else if ch = 0 then some (.stop st)
  else if ch = 48 ∧ st.mem[st.ptr + 1]? = some 120 then st.number? getMath out
  else
    match hex2int st.c ch with
    | none => some (.invalid st)
    | some c => some (.next (st.digit c))

@[simp]
theorem flush_ptr (st : HexScan) : st.flush.ptr = st.ptr := by
  unfold HexScan.flush
  split_ifs <;> rfl

@[simp]
theorem length_flush (st : HexScan) : st.flush.mem.length = st.mem.length := by
  unfold HexScan.flush
  split_ifs
  · exact List.length_set
  · rfl

theorem le_flush_len (st : HexScan) : st.len ≤ st.flush.len := by
  unfold HexScan.flush
  split_ifs
  · exact Nat.le_succ _
  · exact Nat.le_refl _

@[simp]
theorem length_stored (getMath : List u8 → ut64) (st : HexScan) :
    (st.stored getMath).length = st.mem.length := by
  simp only [HexScan.stored, List.length_set]

theorem ptr_lt_behindWord (getMath : List u8 → ut64) (st : HexScan) :
    st.ptr < st.behindWord getMath := by
  unfold HexScan.behindWord
  omega

theorem hexTurn_outside (hch : st.mem[st.ptr]? = none) : hexTurn getMath 0 st = none := by
  unfold hexTurn
  rw [hch]
  rfl

theorem ptr_lt_of_turn (h : hexTurn getMath 0 st = some t) : st.ptr < st.mem.length := by
  by_contra hge
  rw [hexTurn_outside (List.getElem?_eq_none (not_lt.mp hge))] at h
  cases h

theorem hexTurn_ignored (hch : st.mem[st.ptr]? = some ch) (hig : ignored ch = true) :
    hexTurn getMath 0 st = some (.next { st with ptr := st.ptr + 1 }) := by
  unfold hexTurn
  simp only [hch, Option.bind_eq_bind, Option.bind_some, hig, if_true]
  rfl

theorem hexTurn_eq {out : ℕ} (hch : st.mem[st.ptr]? = some ch) (hig : ignored ch = false) :
    hexTurn getMath out st = (if st.j = 2 then
      (store st.mem (out + st.len) st.c).map fun mem =>
        { st with mem := mem, len := st.len + 1, c := 0, j := 0 }
    else some st).bind fun st => st.mem[st.ptr]?.bind (st.read getMath out) := by
  unfold hexTurn
  rw [hch]
  show (if ignored ch = true then _ else _) = _
  rw [if_neg (by rw [hig]; decide)]
  by_cases hj : st.j = 2
  · rw [if_pos hj, if_pos hj]
    rfl
  · rw [if_neg hj, if_neg hj]
    rfl

/-- With room for the byte that is complete, the turn goes on behind its
store. -/
theorem hexTurn_read (getMath : List u8 → ut64) (hch : st.mem[st.ptr]? = some ch)
    (hig : ignored ch = false) (hroom : st.j = 2 → st.len < st.mem.length) :
    ∃ ch', st.flush.mem[st.flush.ptr]? = some ch' ∧
      hexTurn getMath 0 st = st.flush.read getMath 0 ch' := by
  have hptr : st.flush.ptr < st.flush.mem.length := by
    rw [flush_ptr, length_flush]
    exact (List.getElem?_eq_some_iff.mp hch).1
  refine ⟨_, List.getElem?_eq_getElem hptr, ?_⟩
  have hflush : (if st.j = 2 then (store st.mem (0 + st.len) st.c).map fun mem =>
      { st with mem := mem, len := st.len + 1, c := 0, j := 0 } else some st) = some st.flush := by
    unfold HexScan.flush
    split_ifs with hj
    · rw [Nat.zero_add, store, if_pos (hroom hj)]
      rfl
    · rfl
  rw [hexTurn_eq hch hig, hflush, Option.bind_some, List.getElem?_eq_getElem hptr]
  rfl

/-- And without room there is none. -/
theorem hexTurn_full (hch : st.mem[st.ptr]? = some ch) (hig : ignored ch = false) (hj : st.j = 2)
    (hfull : st.mem.length ≤ st.len) : hexTurn getMath 0 st = none := by
  rw [hexTurn_eq hch hig, if_pos hj, Nat.zero_add, store, if_neg (by omega)]
  rfl

/-- **A turn** passes a character over, or goes on behind the store of the
byte that is complete. -/
theorem hexTurn_cases (h : hexTurn getMath 0 st = some t) :
    ∃ ch, st.mem[st.ptr]? = some ch ∧
      (ignored ch = true ∧ t = .next { st with ptr := st.ptr + 1 } ∨
        ignored ch = false ∧ (st.j = 2 → st.len < st.mem.length) ∧
        ∃ ch', st.flush.mem[st.flush.ptr]? = some ch' ∧ st.flush.read getMath 0 ch' = some t) := by
  obtain ⟨ch, hch⟩ : ∃ ch, st.mem[st.ptr]? = some ch :=
    ⟨_, List.getElem?_eq_getElem (ptr_lt_of_turn h)⟩
  refine ⟨ch, hch, ?_⟩
  cases hig : ignored ch with
  | true =>
    rw [hexTurn_ignored hch hig] at h
    exact .inl ⟨rfl, (Option.some.inj h).symm⟩
  | false =>
    -- there is a turn, so that a byte that was complete has found room
    have hroom : st.j = 2 → st.len < st.mem.length := by
      intro hj
      by_contra hfull
      rw [hexTurn_full hch hig hj (not_lt.mp hfull)] at h
      cases h
    obtain ⟨ch', hch', hread⟩ := hexTurn_read getMath hch hig hroom
    exact .inr ⟨rfl, hroom, ch', hch', hread.symm.trans h⟩

theorem store_eq_some_iff {mem mem' : List u8} {i : ℕ} {c : u8} :
    store mem i c = some mem' ↔ i < mem.length ∧ mem' = mem.set i c := by
  unfold store
  split_ifs with h
  · rw [Option.some_inj, eq_comm]
    exact (and_iff_right h).symm
  · exact iff_of_false (by simp) fun h' => h h'.1

/-- The word ends in the memory, or it does not. -/
theorem wordEnd_eq_some_iff (hptr : st.ptr < st.mem.length) :
    wordEnd (st.stored getMath) st.ptr = some n ↔
      st.behindWord getMath ≤ st.mem.length ∧ n + 1 = st.behindWord getMath := by
  unfold wordEnd HexScan.behindWord
  simp only [Option.map_eq_some_iff, List.findIdx?_eq_some_iff_findIdx_eq, List.length_drop,
    length_stored]
  constructor
  · rintro ⟨i, ⟨hi, hidx⟩, rfl⟩
    rw [hidx]
    omega
  · rintro ⟨hle, hn⟩
    exact ⟨_, ⟨by omega, rfl⟩, by omega⟩

/-- A number has a turn where its stores and the end of its word are inside
of the memory. -/
theorem number?_eq_some_iff (hptr : st.ptr < st.mem.length) :
    st.number? getMath 0 = some t ↔ st.len + 4 ≤ st.mem.length ∧
      st.behindWord getMath ≤ st.mem.length ∧ t = .next (st.number getMath) := by
  unfold HexScan.number?
  simp only [Option.bind_eq_some_iff, store_eq_some_iff, Nat.zero_add]
  constructor
  · -- the last of the four stores has room, and so have the others
    rintro ⟨_, ⟨-, rfl⟩, _, ⟨-, rfl⟩, _, ⟨-, rfl⟩, _, ⟨hlast, rfl⟩, n, hword, ht⟩
    obtain ⟨hle, hn⟩ := (wordEnd_eq_some_iff hptr).mp hword
    simp only [List.length_set] at hlast
    refine ⟨hlast, hle, ?_⟩
    rw [← Option.some_inj.mp ht, HexScan.number, ← hn]
    rfl
  · rintro ⟨hroom, hle, rfl⟩
    refine ⟨_, ⟨by omega, rfl⟩, _, ⟨by rw [List.length_set]; omega, rfl⟩, _,
      ⟨by simp only [List.length_set]; omega, rfl⟩, _, ⟨by simp only [List.length_set]; omega, rfl⟩,
      st.behindWord getMath - 1, (wordEnd_eq_some_iff hptr).mpr ⟨hle, ?_⟩, ?_⟩
    · have := ptr_lt_behindWord getMath st
      omega
    · have := ptr_lt_behindWord getMath st
      rw [HexScan.number, Nat.sub_add_cancel (by omega)]
      rfl

/-! ## Steps of the loop -/

/-- One turn, after which there is another. -/
def HexScan.Next (getMath : List u8 → ut64) (st st' : HexScan) : Prop :=
  hexTurn getMath 0 st = some (.next st')

/-- The loop comes from one state to the other. -/
def HexScan.ComesTo (getMath : List u8 → ut64) : HexScan → HexScan → Prop :=
  Relation.ReflTransGen (HexScan.Next getMath)

/-- What the turn makes of the character it reads. -/
theorem read_next (hch : st.mem[st.ptr]? = some ch)
    (h : st.read getMath 0 ch = some (.next st')) :
    ch ≠ 0 ∧ (¬st.AtNumber ∧ st' = { st with ptr := st.ptr + 1 } ∨
      st.AtNumber ∧ st.len + 4 ≤ st.mem.length ∧ st' = st.number getMath ∨
      ¬st.AtNumber ∧ ∃ c, st' = st.digit c) := by
  have hptr := (List.getElem?_eq_some_iff.mp hch).1
  unfold HexScan.read at h
  unfold HexScan.AtNumber
  rw [hch]
  split_ifs at h with hblank hnul hnumber
  · subst hblank
    obtain rfl := HexTurn.next.inj (Option.some.inj h)
    exact ⟨by decide, .inl ⟨fun h => absurd h.1 (by decide), rfl⟩⟩
  · cases h
  · obtain ⟨rfl, hx⟩ := hnumber
    obtain ⟨hroom, -, hnext⟩ := (number?_eq_some_iff hptr).mp h
    exact ⟨hnul, .inr (.inl ⟨⟨rfl, hx⟩, hroom, HexTurn.next.inj hnext⟩)⟩
  · have hnumber' : ¬(some ch = some 48 ∧ st.mem[st.ptr + 1]? = some 120) :=
      fun h => hnumber ⟨Option.some.inj h.1, h.2⟩
    split at h
    · cases h
    · rename_i c _
      exact ⟨hnul, .inr (.inr ⟨hnumber', c, (HexTurn.next.inj (Option.some.inj h)).symm⟩)⟩

/-- **What a turn can do**: pass a character over, before or behind the
store of a byte, or read a number, or a digit. -/
theorem HexScan.Next.cases (h : st.Next getMath st') :
    ∃ ch, st.mem[st.ptr]? = some ch ∧
      (ignored ch = true ∧ st' = { st with ptr := st.ptr + 1 } ∨
        ignored ch = false ∧ (st.j = 2 → st.len < st.mem.length) ∧
        ∃ ch', st.flush.mem[st.flush.ptr]? = some ch' ∧ ch' ≠ 0 ∧
          (¬st.flush.AtNumber ∧ st' = { st.flush with ptr := st.flush.ptr + 1 } ∨
            st.flush.AtNumber ∧ st.flush.len + 4 ≤ st.flush.mem.length ∧
              st' = st.flush.number getMath ∨
            ¬st.flush.AtNumber ∧ ∃ c, st' = st.flush.digit c)) := by
  obtain ⟨ch, hch, ⟨hig, hnext⟩ | ⟨hig, hroom, ch', hch', hread⟩⟩ := hexTurn_cases h
  · exact ⟨ch, hch, .inl ⟨hig, HexTurn.next.inj hnext⟩⟩
  · exact ⟨ch, hch, .inr ⟨hig, hroom, ch', hch', read_next hch' hread⟩⟩

/-- A turn steps on, keeps the memory's length, and takes nothing back. -/
theorem HexScan.Next.grows (h : st.Next getMath st') :
    st.ptr < st'.ptr ∧ st'.mem.length = st.mem.length ∧ st.len ≤ st'.len := by
  have hflush := le_flush_len st
  obtain ⟨ch, -, ⟨-, rfl⟩ | ⟨-, -, ch', -, -, ⟨-, rfl⟩ | ⟨-, -, rfl⟩ | ⟨-, c, rfl⟩⟩⟩ := h.cases
  · exact ⟨Nat.lt_succ_self _, rfl, Nat.le_refl _⟩
  · exact ⟨by simp, by simp, hflush⟩
  · have hptr := ptr_lt_behindWord getMath st.flush
    rw [flush_ptr] at hptr
    exact ⟨hptr, by simp [HexScan.number], by simp only [HexScan.number]; omega⟩
  · exact ⟨by simp [HexScan.digit], by simp [HexScan.digit], by simpa [HexScan.digit] using hflush⟩

theorem HexScan.ComesTo.grows (h : st.ComesTo getMath st') :
    st'.mem.length = st.mem.length ∧ st.len ≤ st'.len := by
  induction h with
  | refl => exact ⟨rfl, Nat.le_refl _⟩
  | tail _ hnext ih =>
    obtain ⟨-, hlength, hlen⟩ := hnext.grows
    exact ⟨hlength.trans ih.1, ih.2.trans hlen⟩

theorem next_unique : Relator.RightUnique (HexScan.Next getMath) := by
  intro st a b ha hb
  exact HexTurn.next.inj (Option.some.inj (ha.symm.trans hb))

/-- A loop that returns has come to its last turn. -/
theorem hexLoop_ends (h : hexLoop getMath 0 fuel st = some r) :
    ∃ st' f, st.ComesTo getMath st' ∧
      (hexTurn getMath 0 st' = some (.stop f) ∧ r = (f.len, f.mem) ∨
        hexTurn getMath 0 st' = some (.invalid f) ∧ r = (0, f.mem)) := by
  induction fuel generalizing st with
  | zero => cases h
  | succ fuel ih =>
    rw [hexLoop] at h
    obtain ⟨t, hturn, h⟩ := Option.bind_eq_some_iff.mp h
    cases t with
    | next st₁ =>
      obtain ⟨st', f, hcomes, hends⟩ := ih h
      exact ⟨st', f, hcomes.head hturn, hends⟩
    -- the end of the text, or a character that is no digit
    | stop f => exact ⟨st, f, .refl, .inl ⟨hturn, (Option.some.inj h).symm⟩⟩
    | invalid f => exact ⟨st, f, .refl, .inr ⟨hturn, (Option.some.inj h).symm⟩⟩

/-- And one that comes to a complaint returns. -/
theorem hexLoop_invalid (hcomes : st.ComesTo getMath st')
    (hturn : hexTurn getMath 0 st' = some (.invalid f)) (hfuel : st.mem.length - st.ptr < fuel) :
    hexLoop getMath 0 fuel st = some (0, f.mem) := by
  induction hcomes using Relation.ReflTransGen.head_induction_on generalizing fuel with
  | refl =>
    obtain ⟨fuel, rfl⟩ : ∃ m, fuel = m + 1 := ⟨fuel - 1, by omega⟩
    rw [hexLoop, hturn]
    rfl
  -- the turn steps on, and one of the turns left is enough for each byte
  | head hnext _ ih =>
    obtain ⟨fuel, rfl⟩ : ∃ m, fuel = m + 1 := ⟨fuel - 1, by omega⟩
    obtain ⟨hptr, hlength, -⟩ := hnext.grows
    obtain ⟨ch, hch, -⟩ := hnext.cases
    have hlt := (List.getElem?_eq_some_iff.mp hch).1
    rw [hexLoop, hnext]
    exact ih (by omega)

/-- The last turn, at the end of the text. -/
theorem hexTurn_stop (h : hexTurn getMath 0 st = some (.stop f)) :
    ∃ ch, st.mem[st.ptr]? = some ch ∧ ignored ch = false ∧ ¬st.flush.AtNumber ∧ f = st.flush := by
  obtain ⟨ch, hch, ⟨-, hnext⟩ | ⟨hig, -, ch', hch', hread⟩⟩ := hexTurn_cases h
  · cases hnext
  refine ⟨ch, hch, hig, ?_⟩
  have hptr := (List.getElem?_eq_some_iff.mp hch').1
  unfold HexScan.read at hread
  unfold HexScan.AtNumber
  split_ifs at hread with hblank hnul hnumber
  · cases hread
  · -- the terminator is not the `0` of a number
    refine ⟨fun hat => ?_, (HexTurn.stop.inj (Option.some.inj hread)).symm⟩
    rw [hch', hnul] at hat
    exact absurd hat.1 (by decide)
  · cases ((number?_eq_some_iff hptr).mp hread).2.2
  · split at hread <;> cases hread

/-! ## The invariant of a loop that fits -/

/-- What the turn is to write ends before the text does: the byte that is
complete, the bytes of a number, and the word it is read from. -/
def HexScan.Fits (getMath : List u8 → ut64) (strlen : ℕ) (st : HexScan) : Prop :=
  ∀ ch, st.mem[st.ptr]? = some ch → ignored ch = false →
    st.flush.len ≤ strlen ∧
      (st.flush.AtNumber → st.flush.len + 4 ≤ strlen ∧ st.flush.behindWord getMath ≤ strlen)

/-- The loop is inside of its copy, and has left the terminator. -/
structure HexScan.Inside (strlen : ℕ) (st : HexScan) : Prop where
  length : st.mem.length = strlen + 1
  ends : st.mem[strlen]? = some 0
  ptr_le : st.ptr ≤ strlen
  len_le : st.len ≤ strlen

theorem HexScan.Inside.flush (h : st.Inside L) (hlen : st.flush.len ≤ L) : st.flush.Inside L := by
  refine ⟨(length_flush st).trans h.length, ?_, (flush_ptr st).trans_le h.ptr_le, hlen⟩
  unfold HexScan.flush at hlen ⊢
  split_ifs at hlen ⊢
  · exact (List.getElem?_set_ne (by simp only at hlen; omega)).trans h.ends
  · exact h.ends

theorem HexScan.Inside.number (h : st.Inside L) (hlen : st.len + 4 ≤ L)
    (hword : st.behindWord getMath ≤ L) : (st.number getMath).Inside L := by
  refine ⟨(length_stored getMath st).trans h.length, ?_, hword, hlen⟩
  simp only [HexScan.number, HexScan.stored]
  rw [List.getElem?_set_ne (by omega), List.getElem?_set_ne (by omega),
    List.getElem?_set_ne (by omega), List.getElem?_set_ne (by omega)]
  exact h.ends

/-- A character that is not the terminator is before it. -/
theorem HexScan.Inside.ptr_lt (h : st.Inside L) (hch : st.mem[st.ptr]? = some ch) (hne : ch ≠ 0) :
    st.ptr < L := by
  refine lt_of_le_of_ne h.ptr_le fun heq => ?_
  rw [heq, h.ends] at hch
  exact hne (Option.some.inj hch).symm

theorem ignored_ne_zero (hig : ignored ch = true) : ch ≠ 0 := by
  rintro rfl
  cases hig

/-- **A turn that fits stays inside.** -/
theorem HexScan.Inside.next (h : st.Inside L) (hfits : st.Fits getMath L)
    (hnext : st.Next getMath st') : st'.Inside L := by
  obtain ⟨ch, hch, ⟨hig, rfl⟩ | ⟨hig, -, ch', hch', hne, hcases⟩⟩ := hnext.cases
  · exact ⟨h.length, h.ends, h.ptr_lt hch (ignored_ne_zero hig), h.len_le⟩
  · obtain ⟨hlen, hnumber⟩ := hfits ch hch hig
    have hflush := h.flush hlen
    obtain ⟨-, rfl⟩ | ⟨hat, -, rfl⟩ | ⟨-, c, rfl⟩ := hcases
    · exact ⟨hflush.length, hflush.ends, hflush.ptr_lt hch' hne, hflush.len_le⟩
    · exact hflush.number (hnumber hat).1 (hnumber hat).2
    · exact ⟨hflush.length, hflush.ends, hflush.ptr_lt hch' hne, hflush.len_le⟩

/-- And there is one. -/
theorem HexScan.Inside.turn (h : st.Inside L) (hfits : st.Fits getMath L) :
    ∃ t, hexTurn getMath 0 st = some t := by
  have hptr : st.ptr < st.mem.length := by
    rw [h.length]
    exact Nat.lt_succ_of_le h.ptr_le
  have hch := List.getElem?_eq_getElem hptr
  cases hig : ignored st.mem[st.ptr] with
  | true => exact ⟨_, hexTurn_ignored hch hig⟩
  | false =>
    obtain ⟨hlen, hnumber⟩ := hfits _ hch hig
    have hflush := h.flush hlen
    obtain ⟨ch', hch', hread⟩ := hexTurn_read getMath hch hig fun _ => by
      rw [h.length]
      exact Nat.lt_succ_of_le h.len_le
    rw [hread]
    unfold HexScan.read
    -- a blank, the end, a number that has room by what fits, or a digit
    split_ifs with hblank hnul hat
    · exact ⟨_, rfl⟩
    · exact ⟨_, rfl⟩
    · obtain ⟨hroom, hword⟩ := hnumber ⟨hch'.trans (congrArg some hat.1), hat.2⟩
      exact ⟨_, (number?_eq_some_iff (by rwa [flush_ptr, length_flush])).mpr
        ⟨by rw [hflush.length]; omega, by rw [hflush.length]; omega, rfl⟩⟩
    · split <;> exact ⟨_, rfl⟩

/-- **A loop whose turns all fit returns**, with no more bytes than the text
has characters. -/
theorem HexScan.Inside.loop (h : st.Inside L)
    (hfits : ∀ st', st.ComesTo getMath st' → st'.Fits getMath L) (hfuel : L - st.ptr < fuel) :
    ∃ len mem, hexLoop getMath 0 fuel st = some (len, mem) ∧ len ≤ L ∧
      (len ≠ 0 → mem.length = L + 1) := by
  induction fuel generalizing st with
  | zero => exact absurd hfuel (Nat.not_lt_zero _)
  | succ fuel ih =>
    obtain ⟨t, ht⟩ := h.turn (hfits st .refl)
    rw [hexLoop, ht]
    cases t with
    | next st' =>
      have hinside := h.next (hfits st .refl) ht
      obtain ⟨hptr, -, -⟩ := HexScan.Next.grows ht
      have := hinside.ptr_le
      exact ih hinside (fun st'' hcomes => hfits st'' (hcomes.head ht)) (by omega)
    | stop f =>
      obtain ⟨ch, hch, hig, -, rfl⟩ := hexTurn_stop ht
      have hflush := h.flush (hfits st .refl ch hch hig).1
      exact ⟨_, _, rfl, hflush.len_le, fun _ => hflush.length⟩
    | invalid f => exact ⟨_, _, rfl, Nat.zero_le _, fun hne => absurd rfl hne⟩

/-! ## Text without numbers -/

theorem infix_pair {l : List u8} {i : ℕ} {a b : u8} (ha : l[i]? = some a)
    (hb : l[i + 1]? = some b) : [a, b] <:+: l := by
  obtain ⟨hi, rfl⟩ := List.getElem?_eq_some_iff.mp ha
  obtain ⟨hi', rfl⟩ := List.getElem?_eq_some_iff.mp hb
  refine ⟨l.take i, l.drop (i + 1 + 1), ?_⟩
  rw [List.append_assoc, List.cons_append, List.cons_append, List.nil_append,
    List.getElem_cons_drop, List.getElem_cons_drop, List.take_append_drop]

/-- What is left of the text is as it was, and the bytes are behind. -/
structure HexScan.Unread (arg : List u8) (st : HexScan) : Prop where
  rest : st.mem.drop st.ptr = (arg ++ [0]).drop st.ptr
  behind : 2 * st.len + st.j ≤ st.ptr
  digits : st.j ≤ 2
  ptr_le : st.ptr ≤ arg.length

theorem HexScan.Unread.getElem? (h : st.Unread arg) (k : ℕ) :
    st.mem[st.ptr + k]? = (arg ++ [0])[st.ptr + k]? := by
  rw [← List.getElem?_drop, h.rest, List.getElem?_drop]

theorem HexScan.Unread.flush (h : st.Unread arg) : st.flush.Unread arg ∧ st.flush.j < 2 := by
  have hbehind := h.behind
  have hdigits := h.digits
  unfold HexScan.flush
  split_ifs with hj
  · have hlt : st.len < st.ptr := by omega
    refine ⟨⟨?_, ?_, Nat.zero_le _, h.ptr_le⟩, Nat.zero_lt_two⟩
    · exact (List.drop_set_of_lt hlt).trans h.rest
    · show 2 * (st.len + 1) + 0 ≤ st.ptr
      omega
  · exact ⟨h, by omega⟩

/-- The text goes on behind what is not its end. -/
theorem HexScan.Unread.ptr_lt (h : st.Unread arg) (hch : st.mem[st.ptr]? = some ch)
    (hne : ch ≠ 0) : st.ptr < arg.length := by
  refine lt_of_le_of_ne h.ptr_le fun heq => ?_
  have hend := h.getElem? 0
  rw [Nat.add_zero, hch, heq, List.getElem?_concat_length] at hend
  exact hne (Option.some.inj hend)

/-- A number would be in the text. -/
theorem HexScan.Unread.not_number (h : st.Unread arg) (harg : ¬[48, 120] <:+: arg) :
    ¬st.AtNumber := by
  rintro ⟨hzero, hx⟩
  have hlt := h.ptr_lt hzero (by decide)
  have hx' := h.getElem? 1
  rw [hx] at hx'
  have hlt' : st.ptr + 1 < arg.length := by
    by_contra hge
    -- the `x` would be the terminator
    have heq : st.ptr + 1 = arg.length := by omega
    rw [heq, List.getElem?_concat_length] at hx'
    cases hx'
  have hzero' := h.getElem? 0
  rw [Nat.add_zero, hzero, List.getElem?_append_left hlt] at hzero'
  rw [List.getElem?_append_left hlt'] at hx'
  exact harg (infix_pair hzero'.symm hx'.symm)

/-- What is left behind a character passed over. -/
theorem HexScan.Unread.pass (h : st.Unread arg) (hch : st.mem[st.ptr]? = some ch) (hne : ch ≠ 0) :
    st.mem.drop (st.ptr + 1) = (arg ++ [0]).drop (st.ptr + 1) ∧ st.ptr + 1 ≤ arg.length := by
  refine ⟨?_, h.ptr_lt hch hne⟩
  rw [← List.drop_drop, h.rest, List.drop_drop]

/-- A turn keeps the bytes behind. -/
theorem HexScan.Unread.next (h : st.Unread arg) (harg : ¬[48, 120] <:+: arg)
    (hnext : st.Next getMath st') : st'.Unread arg := by
  obtain ⟨ch, hch, ⟨hig, rfl⟩ | ⟨hig, -, ch', hch', hne, hcases⟩⟩ := hnext.cases
  · obtain ⟨hrest, hle⟩ := h.pass hch (ignored_ne_zero hig)
    exact ⟨hrest, h.behind.trans (Nat.le_succ _), h.digits, hle⟩
  · obtain ⟨hflush, hj⟩ := h.flush
    obtain ⟨hrest, hle⟩ := hflush.pass hch' hne
    have hbehind := hflush.behind
    obtain ⟨-, rfl⟩ | ⟨hat, -⟩ | ⟨-, c, rfl⟩ := hcases
    · exact ⟨hrest, hbehind.trans (Nat.le_succ _), hflush.digits, hle⟩
    · exact absurd hat (hflush.not_number harg)
    · exact ⟨hrest, Nat.succ_le_succ hbehind, hj, hle⟩

/-- **Without `0x` everything fits.** -/
theorem HexScan.Unread.fits (h : st.Unread arg) (harg : ¬[48, 120] <:+: arg) :
    st.Fits getMath arg.length := by
  intro ch hch hig
  have hflush := h.flush.1
  have hbehind := hflush.behind
  have hle := hflush.ptr_le
  exact ⟨by omega, fun hat => absurd hat (hflush.not_number harg)⟩

/-! ## The argument in its copies -/

/-- The loop at the start of its copy. -/
def hexStart (arg : List u8) : HexScan := ⟨arg ++ [0], 0, 0, 0, 0⟩

/-- The loop comes to a character that is no digit. -/
def HexComplains (getMath : List u8 → ut64) (arg : List u8) : Prop :=
  ∃ st f, (hexStart arg).ComesTo getMath st ∧ hexTurn getMath 0 st = some (.invalid f)

/-- Every turn the loop comes to fits. -/
def NumbersFit (getMath : List u8 → ut64) (arg : List u8) : Prop :=
  ∀ st, (hexStart arg).ComesTo getMath st → st.Fits getMath arg.length

theorem hexStart_inside (arg : List u8) : (hexStart arg).Inside arg.length where
  length := List.length_append
  ends := List.getElem?_concat_length
  ptr_le := Nat.zero_le _
  len_le := Nat.zero_le _

theorem hexStart_unread (arg : List u8) : (hexStart arg).Unread arg where
  rest := rfl
  behind := Nat.zero_le _
  digits := Nat.zero_le _
  ptr_le := Nat.zero_le _

/-- Text without `0x` fits. -/
theorem numbersFit_of_no_number (harg : ¬[48, 120] <:+: arg) : NumbersFit getMath arg := by
  intro st hcomes
  have hunread : st.Unread arg := by
    induction hcomes with
    | refl => exact hexStart_unread arg
    | tail _ hnext ih => exact ih.next harg hnext
  exact hunread.fits harg

/-- What `radare_write` does with a hexadecimal argument. -/
theorem hex_eq :
    ((decodeStr getMath (arg ++ [0]) .hex).bind fun (len, str) =>
      indexCopies (arg ++ [0]) len str) =
      (hexLoop getMath 0 (arg.length + 2) (hexStart arg)).bind fun (len, str) =>
        indexCopies (arg ++ [0]) len str := by
  unfold decodeStr hexstr2binstr
  rw [List.length_append]
  rfl

/-- All that a loop that stops has come to fits, if its bytes do. -/
theorem fits_of_stop (hcomes : (hexStart arg).ComesTo getMath st)
    (hturn : hexTurn getMath 0 st = some (.stop f)) (hlen : f.len ≤ arg.length) :
    NumbersFit getMath arg := by
  intro st₁ hcomes₁ ch hch hig
  obtain ⟨-, -, -, hat, rfl⟩ := hexTurn_stop hturn
  -- the loop has one way only: it goes through this state, and on to the last turn
  have hrest : st₁.ComesTo getMath st := by
    obtain h | h := Relation.ReflTransGen.total_of_right_unique next_unique hcomes₁ hcomes
    · exact h
    · obtain rfl | ⟨st', hnext, -⟩ := Relation.ReflTransGen.cases_head h
      · exact .refl
      · cases Option.some.inj (hturn.symm.trans hnext)
  have hle := le_flush_len st
  obtain rfl | ⟨st₂, hnext, hrest₂⟩ := Relation.ReflTransGen.cases_head hrest
  · exact ⟨hlen, fun h => absurd h hat⟩
  · obtain ⟨hlength, hlen₂⟩ := HexScan.ComesTo.grows hrest₂
    -- behind the word of a number the loop has read on, so that it was still in the text
    have hptr₂ : st₂.ptr < st₂.mem.length := by
      obtain rfl | ⟨st₃, hnext₃, -⟩ := Relation.ReflTransGen.cases_head hrest₂
      · exact ptr_lt_of_turn hturn
      · exact ptr_lt_of_turn hnext₃
    have hmem : st₂.mem.length = arg.length + 1 :=
      (HexScan.ComesTo.grows (hcomes₁.tail hnext)).1.trans (hexStart_inside arg).length
    obtain ⟨ch₁, hch₁, ⟨hig₁, -⟩ | ⟨-, -, -, -, -, hcases⟩⟩ := hnext.cases
    · rw [Option.some.inj (hch.symm.trans hch₁), hig₁] at hig
      cases hig
    · obtain ⟨hno, rfl⟩ | ⟨-, -, rfl⟩ | ⟨hno, c, rfl⟩ := hcases
      · exact ⟨hlen₂.trans (hle.trans hlen), fun h => absurd h hno⟩
      · have hfour : st₁.flush.len + 4 ≤ arg.length := hlen₂.trans (hle.trans hlen)
        exact ⟨by omega, fun _ => ⟨hfour, Nat.le_of_lt_succ (hptr₂.trans_eq hmem)⟩⟩
      · exact ⟨hlen₂.trans (hle.trans hlen), fun h => absurd h hno⟩

/-- **Where a hexadecimal argument stays inside its copies.** -/
theorem hex_inside_iff :
    ((decodeStr getMath (arg ++ [0]) .hex).bind fun (len, str) =>
      indexCopies (arg ++ [0]) len str).isSome ↔
      HexComplains getMath arg ∨ NumbersFit getMath arg := by
  rw [hex_eq]
  constructor
  · intro h
    obtain ⟨bytes, hbytes⟩ := Option.isSome_iff_exists.mp h
    obtain ⟨⟨len, mem⟩, hloop, hindex⟩ := Option.bind_eq_some_iff.mp hbytes
    obtain ⟨st, f, hcomes, ⟨hturn, hr⟩ | ⟨hturn, -⟩⟩ := hexLoop_ends hloop
    · obtain ⟨rfl, rfl⟩ := Prod.mk.inj hr
      have hlen : f.len ≤ arg.length := by
        by_cases hzero : f.len = 0
        · omega
        · exact le_of_indexCopies hzero (Option.isSome_iff_exists.mpr ⟨bytes, hindex⟩)
      exact .inr (fits_of_stop hcomes hturn hlen)
    · exact .inl ⟨st, f, hcomes, hturn⟩
  · rintro (⟨st, f, hcomes, hturn⟩ | hfits)
    · -- a complaint: the value is 0, and no byte is looked at
      have hfuel : (hexStart arg).mem.length - (hexStart arg).ptr < arg.length + 2 := by
        rw [(hexStart_inside arg).length]
        exact Nat.lt_succ_self _
      rw [hexLoop_invalid hcomes hturn hfuel]
      rfl
    · have hfuel : arg.length - (hexStart arg).ptr < arg.length + 2 := by
        show arg.length - 0 < _
        omega
      obtain ⟨len, mem, hloop, hlen, hmem⟩ := (hexStart_inside arg).loop hfits hfuel
      rw [hloop, Option.bind_some]
      show (indexCopies (arg ++ [0]) len mem).isSome
      by_cases hzero : len = 0
      · rw [indexCopies, if_pos hzero]
        rfl
      · rw [indexCopies_eq (by rw [hmem hzero]; omega) hlen]
        rfl

/-! ## Every argument -/

/-- What keeps an argument inside its copies, by the mode it is taken in. -/
def WriteFits (getMath : List u8 → ut64) (arg : List u8) : WMode → Prop
  | .char => True
  | .string => escapesApart arg
  | .wstring => escapesApart arg ∧ (escapeBuffer arg = none ∨ plainCount arg ≤ 2 * hexCount arg)
  | .hex => ¬[48, 120] <:+: arg ∨ HexComplains getMath arg ∨ NumbersFit getMath arg

/-- **What `radare_write` looks at is inside of its buffers** for a string
whose escapes are not copied over themselves, for a wide one of these whose escapes
make up for the characters doubled, and for a hexadecimal one in which what numbers
come to ends before the text does. -/
theorem buffers_inside_iff (harg : 0 ∉ arg) :
    (writeBuffers getMath arg mode).isSome ↔ WriteFits getMath arg (writeMode arg mode) := by
  rw [writeBuffers_eq]
  cases writeMode arg mode with
  | char => exact ⟨fun _ => trivial, fun _ => rfl⟩
  | string => exact string_inside_iff harg
  | wstring => exact wide_inside_iff harg
  | hex =>
    rw [hex_inside_iff]
    exact ⟨.inr, fun h => h.elim (fun hno => .inr (numbersFit_of_no_number hno)) id⟩

/-- And the bytes are those of the decoders. -/
theorem writeBytes_of_inside (harg : 0 ∉ arg) (h : writeBuffers getMath arg mode = some bytes) :
    writeBytes getMath [] arg mode = some bytes := by
  rw [writeBuffers_eq] at h
  unfold writeBytes
  cases hmode : writeMode arg mode with
  | char =>
    rw [hmode] at h
    exact h
  | string =>
    rw [hmode] at h
    rwa [string_inside harg ((string_inside_iff harg).mp (Option.isSome_of_eq_some h))] at h
  | wstring =>
    rw [hmode] at h
    rw [wide_eq harg ((wide_inside_iff harg).mp (Option.isSome_of_eq_some h)).1] at h
    have hlength := length_wide ((escapeBuffer arg).getD [])
    by_cases hlen : 2 * ((escapeBuffer arg).getD []).length = 0
    · rw [indexCopies, if_pos hlen] at h
      rw [← h, List.length_eq_zero_iff.mp (by omega : ((escapeBuffer arg).getD []).length = 0)]
      rfl
    · rw [indexCopies_eq hlength.ge (le_of_indexCopies hlen (Option.isSome_iff_exists.mpr ⟨_, h⟩)),
        ← hlength, List.take_length] at h
      exact h
  | hex =>
    rw [hmode, hex_eq] at h
    obtain ⟨⟨len, mem⟩, hloop, hindex⟩ := Option.bind_eq_some_iff.mp h
    replace hindex : indexCopies (arg ++ [0]) len mem = some bytes := hindex
    have hrun : hexstr2binstr getMath (arg ++ [0]) 0 0 = some (len, mem) := by
      unfold hexstr2binstr
      rw [List.length_append]
      exact hloop
    refine (congrArg (Option.map _) hrun).trans ?_
    by_cases hzero : len = 0
    · rw [hzero, indexCopies, if_pos rfl] at hindex
      rw [hzero, ← hindex]
      rfl
    · have hlen := le_of_indexCopies hzero (Option.isSome_iff_exists.mpr ⟨bytes, hindex⟩)
      obtain ⟨st, f, hcomes, ⟨hturn, hr⟩ | ⟨-, hr⟩⟩ := hexLoop_ends hloop
      · obtain ⟨rfl, rfl⟩ := Prod.mk.inj hr
        obtain ⟨-, -, -, -, rfl⟩ := hexTurn_stop hturn
        have hmem : st.flush.mem.length = arg.length + 1 :=
          (length_flush st).trans (hcomes.grows.1.trans (hexStart_inside arg).length)
        rw [← hindex]
        exact (indexCopies_eq (by omega) hlen).symm
      · exact absurd (Prod.mk.inj hr).1 hzero

/-- A wide escape is longer than the two bytes it comes to. -/
theorem wide_escape_inside :
    (0 : u8) ∉ [92, 120, 52, 49] ∧
      (writeBuffers (fun _ => 0) [92, 120, 52, 49] .wstring).isSome :=
  ⟨by decide, (buffers_inside_iff (by decide)).mpr ⟨by decide, .inr (by decide)⟩⟩

/-- Two wide characters come to four bytes, in a copy of three. So do the
four bytes of a short number, and behind a longer one the text is left by
reading. What is behind a newline is copied over itself. -/
theorem copies_left :
    writeBuffers (fun _ => 0) [97, 98] .wstring = none ∧
      writeBuffers (fun _ => 1) [48, 120, 49] .hex = none ∧
      writeBuffers (fun _ => 0x41424344) [48, 120, 52, 49, 52, 50, 52, 51, 52, 52] .string =
        none ∧
      writeBuffers (fun _ => 0) [92, 110, 97] .string = none := by
  decide

end Radare
