import Radare.Common.Overlay
import Radare.Rio.Copies
/-!
# Write masks

A byte goes through the mask as `old & ~mask | data & mask`, the mask put
cyclically over the data. Both writers read the old bytes and then make
nothing of them: what they write is `data & mask`, and a bit that the mask
protects becomes 0 (`masked_write_iff`).
-/

namespace Radare

variable {fresh : ℕ → u8} {s s' t : State} {off : ut64} {mask data : List u8} {p n x : ℕ}

/-- `radare_write_mask`. -/
def radareWriteMask (s : State) (mask : Option (List u8)) : State × ℕ :=
  match mask with
  | none => ({ s with writeMask := none }, 0)
  | some mask => ({ s with writeMask := some mask }, 1)

/-- The program with a mask set. -/
def State.under (s : State) (mask : List u8) : State := { s with writeMask := some mask }

theorem radareWriteMask_some : (radareWriteMask s (some mask)).1 = s.under mask := rfl

/-! ## What a mask is for -/

/-- A byte through its mask. -/
def mix (old c m : u8) : u8 := old &&& ~~~m ||| c &&& m

/-- The byte of the data, and that of the mask, for the place so many bytes
behind the first copy's start. -/
def dataAt (data : List u8) (i : ℕ) : u8 := data.getD (i % data.length) 0

def maskAt (mask data : List u8) (i : ℕ) : u8 := mask.getD (i % data.length % mask.length) 0

/-- So many copies of the data from a place on, through the mask, and
nothing else. -/
def State.MaskWritten (s s' : State) (mask data : List u8) (p n : ℕ) : Prop :=
  ∀ x, s'.file[x]? = s.file[x]?.map fun old =>
    if p ≤ x ∧ x < p + n * data.length then
      mix old (dataAt data (x - p)) (maskAt mask data (x - p))
    else old

/-- What holds of every byte that is to be written, of the data and of the
mask there. -/
def State.Throughout (s : State) (mask data : List u8) (p n : ℕ) (P : u8 → u8 → u8 → Prop) :
    Prop :=
  ∀ x old, p ≤ x → x < p + n * data.length → s.file[x]? = some old →
    P old (dataAt data (x - p)) (maskAt mask data (x - p))

/-- Bytes are the same bit for bit. -/
theorem eq_iff_getLsbD (a b : u8) :
    a = b ↔ ∀ i < 8, a.toBitVec.getLsbD i = b.toBitVec.getLsbD i :=
  UInt8.toBitVec_inj.symm.trans BitVec.eq_of_getLsbD_eq_iff

theorem getLsbD_and (a b : u8) (i : ℕ) :
    (a &&& b).toBitVec.getLsbD i = (a.toBitVec.getLsbD i && b.toBitVec.getLsbD i) := by
  rw [UInt8.toBitVec_and, BitVec.getLsbD_and]

theorem getLsbD_not (a : u8) {i : ℕ} (hi : i < 8) :
    (~~~a).toBitVec.getLsbD i = !a.toBitVec.getLsbD i := by
  rw [UInt8.toBitVec_not, BitVec.getLsbD_not, decide_eq_true hi, Bool.true_and]

theorem getLsbD_mix (old c m : u8) {i : ℕ} (hi : i < 8) :
    (mix old c m).toBitVec.getLsbD i =
      (old.toBitVec.getLsbD i && !m.toBitVec.getLsbD i ||
        c.toBitVec.getLsbD i && m.toBitVec.getLsbD i) := by
  unfold mix
  rw [UInt8.toBitVec_or, BitVec.getLsbD_or, getLsbD_and, getLsbD_and, getLsbD_not m hi]

/-- **A mask that is only laid over the data** gives the byte it should
where no bit that it protects is set. -/
theorem and_eq_mix_iff (old c m : u8) : c &&& m = mix old c m ↔ old &&& ~~~m = 0 := by
  have hzero : ∀ i, (0 : u8).toBitVec.getLsbD i = false := fun i => BitVec.getLsbD_zero
  rw [eq_iff_getLsbD, eq_iff_getLsbD]
  refine forall₂_congr fun i hi => ?_
  rw [getLsbD_mix _ _ _ hi, getLsbD_and, getLsbD_and, getLsbD_not m hi, hzero]
  -- a bit of the old byte, one of the data and one of the mask are left
  generalize old.toBitVec.getLsbD i = a, c.toBitVec.getLsbD i = b, m.toBitVec.getLsbD i = d
  revert a b d
  decide

/-- And a byte that is left gives it where the mask lets nothing new
through. -/
theorem eq_mix_iff (old c m : u8) : old = mix old c m ↔ old &&& m = c &&& m := by
  rw [eq_iff_getLsbD, eq_iff_getLsbD]
  refine forall₂_congr fun i hi => ?_
  rw [getLsbD_mix _ _ _ hi, getLsbD_and, getLsbD_and]
  generalize old.toBitVec.getLsbD i = a, c.toBitVec.getLsbD i = b, m.toBitVec.getLsbD i = d
  revert a b d
  decide

/-! ## What is written -/

theorem getElem?_flatten_replicate (l : List u8) (n : ℕ) (hx : x < n * l.length) :
    (List.replicate n l).flatten[x]? = l[x % l.length]? := by
  induction n generalizing x with
  | zero => omega
  -- in the first copy, or as far into the others
  | succ n ih =>
    rw [Nat.succ_mul] at hx
    rw [List.replicate_succ, List.flatten_cons]
    rcases Nat.lt_or_ge x l.length with hlt | hge
    · rw [List.getElem?_append_left hlt, Nat.mod_eq_of_lt hlt]
    · rw [List.getElem?_append_right hge, ih (by omega), Nat.mod_eq_sub_mod hge]

/-- The copies byte by byte, as the mask lets them through. -/
theorem getElem?_masked_copies (hx : x < n * data.length) :
    (List.replicate n (masked mask data)).flatten[x]? =
      some (dataAt data x &&& maskAt mask data x) := by
  have hpos : 0 < data.length := Nat.pos_of_ne_zero (by rintro h; rw [h] at hx; omega)
  have hlt : x % data.length < data.length := Nat.mod_lt _ hpos
  rw [getElem?_flatten_replicate _ _ (by rwa [length_masked]), length_masked]
  have hdata : data.getD (x % data.length) 0 = data[x % data.length] := by
    rw [List.getD, List.getElem?_eq_getElem hlt, Option.getD_some]
  unfold masked dataAt maskAt
  rw [List.getElem?_mapIdx, List.getElem?_eq_getElem hlt, hdata]
  rfl

/-- **The mask laid over the data** leaves what it should where it protects
no bit that is set. -/
theorem written_iff (hle : p + n * data.length ≤ s.file.length)
    (hfile : s'.file = s.file.take p ++ (List.replicate n (masked mask data)).flatten ++
      s.file.drop (p + n * data.length)) :
    s.MaskWritten s' mask data p n ↔
      s.Throughout mask data p n fun old _ m => old &&& ~~~m = 0 := by
  have hlength : ((List.replicate n (masked mask data)).flatten).length = n * data.length := by
    rw [List.length_flatten, List.map_replicate, List.sum_replicate_nat, length_masked]
  rw [← hlength] at hfile hle
  have hover : s'.file = Common.overlay s.file p (List.replicate n (masked mask data)).flatten :=
    hfile
  unfold State.MaskWritten State.Throughout
  refine forall_congr' fun x => ?_
  rw [hover, Common.getElem?_overlay hle, hlength]
  by_cases hin : p ≤ x ∧ x < p + n * data.length
  · -- a byte that is written: the mask laid over the data is what is there
    have hx : x < s.file.length := by omega
    rw [if_pos hin, getElem?_masked_copies (by omega), List.getElem?_eq_getElem hx, Option.map_some,
      if_pos hin, Option.some.injEq, and_eq_mix_iff]
    exact ⟨fun h old _ _ hold => Option.some.inj hold ▸ h, fun h => h _ hin.1 hin.2 rfl⟩
  · rw [if_neg hin]
    simp only [hin, if_false, Option.map_id']
    exact iff_of_true trivial (fun old hp hx _ => absurd ⟨hp, hx⟩ hin)

/-- Nor is there anything else behind it. -/
theorem written_behind_iff {behind : List u8} (hle : p + n * data.length ≤ s.file.length)
    (hfile : s'.file = s.file.take p ++ (List.replicate n (masked mask data)).flatten ++ behind) :
    s.MaskWritten s' mask data p n ↔ behind = s.file.drop (p + n * data.length) ∧
      s.Throughout mask data p n fun old _ m => old &&& ~~~m = 0 := by
  have hlength : (s.file.take p ++ (List.replicate n (masked mask data)).flatten).length =
      p + n * data.length := by
    rw [List.length_append, List.length_take_of_le (by omega), List.length_flatten,
      List.map_replicate, List.sum_replicate_nat, length_masked]
  have hbehind : s.MaskWritten s' mask data p n → behind = s.file.drop (p + n * data.length) := by
    intro h
    refine List.ext_getElem? fun i => ?_
    have hat := h (p + n * data.length + i)
    rw [hfile, ← hlength, List.getElem?_append_right (Nat.le_add_right _ _),
      Nat.add_sub_cancel_left, hlength] at hat
    have hout : ¬(p ≤ p + n * data.length + i ∧ p + n * data.length + i < p + n * data.length) :=
      fun h => by omega
    simp only [hout, if_false, Option.map_id'] at hat
    rw [hat, List.getElem?_drop]
  constructor
  · intro h
    have heq := hbehind h
    exact ⟨heq, (written_iff hle (heq ▸ hfile)).mp h⟩
  · rintro ⟨heq, h⟩
    exact (written_iff hle (heq ▸ hfile)).mpr h

/-- A file left as it is: it should be, where the mask lets nothing new
through. -/
theorem left_iff (hfile : s'.file = s.file) :
    s.MaskWritten s' mask data p n ↔
      s.Throughout mask data p n fun old c m => old &&& m = c &&& m := by
  unfold State.MaskWritten State.Throughout
  refine forall_congr' fun x => ?_
  rw [hfile]
  by_cases hin : p ≤ x ∧ x < p + n * data.length
  swap
  · simp only [hin, if_false, Option.map_id']
    exact iff_of_true trivial (fun old hp hx _ => absurd ⟨hp, hx⟩ hin)
  cases hx : s.file[x]? with
  | none => exact iff_of_true rfl (fun old _ _ hold => by cases hold)
  | some old =>
    rw [Option.map_some, if_pos hin, Option.some.injEq, eq_mix_iff]
    exact ⟨fun h old' _ _ hold => Option.some.inj hold ▸ h, fun h => h old hin.1 hin.2 rfl⟩

/-! ## The two writers -/

/-- `radare_write_at` refuses the offset: the section there has
`SECTION_W`. -/
def State.Barred (s : State) (off : ut64) : Prop :=
  (sectionGet s.sections off).any fun sec => sec.rwx &&& sectionW ≠ 0

instance : Decidable (s.Barred off) := inferInstanceAs (Decidable (_ = true))

theorem file_ioWrite :
    (ioWrite s data).1.file =
      if s.eval.write then fileWrite s.file s.pos (data.take readMost) else s.file := by
  unfold ioWrite
  split_ifs <;> rfl

/-- Elsewhere it comes to write what the mask lets through, and seeks
back. -/
theorem radareWriteAt_of_not_barred (fresh : ℕ → u8) (data : List u8) (hv : s.config.vaddr = 0)
    (hoff : off.toNat < 2 ^ 63) (hbar : ¬s.Barred off) :
    ∃ records, (radareWriteAt fresh s off data).1 =
      (radareSeek (ioWrite { s.seekTo off with undoWList := records } (s.through data)).1
        s.config.seek .set).1 := by
  have hat : (s.seekTo off).At off.toNat := ⟨hv, rfl, rfl, hoff⟩
  -- the undo record, where it is switched on, leaves everything else
  obtain ⟨t, ht, records, hrecords⟩ : ∃ t, (if (s.seekTo off).eval.undowrite then
      undoWriteNew fresh (s.seekTo off) off data else s.seekTo off) = t ∧
        ∃ records, t = { s.seekTo off with undoWList := records } := by
    refine ⟨_, rfl, ?_⟩
    split_ifs
    · exact hat.undoWriteNew fresh data hoff
    · exact ⟨_, rfl⟩
  have hat' : t.At off.toNat := hrecords ▸ ⟨hv, rfl, rfl, hoff⟩
  have hmask : t.writeMask = s.writeMask := by
    rw [hrecords]
    rfl
  have hbar' : ¬((sectionGet (s.seekTo off).sections off).any
      fun sec => sec.rwx &&& sectionW ≠ 0) = true := hbar
  refine ⟨records, ?_⟩
  unfold radareWriteAt State.through
  dsimp only
  rw [radareSeek_eq hv hoff, ht, if_neg hbar', hmask, ← hrecords]
  cases s.writeMask with
  | none => rfl
  | some mask =>
    dsimp only
    rw [hat'.radareReadAt hoff]

/-- **What `radare_write_at` leaves** in the file, of bytes that one write
takes. -/
theorem file_radareWriteAt (fresh : ℕ → u8) (data : List u8) (hv : s.config.vaddr = 0)
    (hmost : data.length ≤ readMost) (hoff : off.toNat < 2 ^ 63) :
    (radareWriteAt fresh s off data).1.file =
      if s.eval.write = true ∧ ¬s.Barred off then fileWrite s.file off.toNat (s.through data)
      else s.file := by
  by_cases hbar : s.Barred off
  · rw [if_neg fun h => h.2 hbar]
    have hbar' : ((sectionGet (s.seekTo off).sections off).any
      fun sec => sec.rwx &&& sectionW ≠ 0) = true := hbar
    unfold radareWriteAt
    dsimp only
    rw [radareSeek_eq hv hoff, if_pos hbar']
    rfl
  · obtain ⟨records, hrun⟩ := radareWriteAt_of_not_barred fresh data hv hoff hbar
    rw [hrun, file_radareSeek, file_ioWrite, List.take_of_length_le (by rwa [length_through])]
    simp only [hbar, not_false_eq_true, and_true]
    rfl

/-- **`radare_write_at` through a mask.** -/
theorem maskedWriteAt_iff (hv : s.config.vaddr = 0) (hsmall : s.file.length < 2 ^ 63)
    (hmost : data.length ≤ readMost) (hin : off.toNat + data.length ≤ s.file.length) :
    s.MaskWritten (radareWriteAt fresh (radareWriteMask s (some mask)).1 off data).1 mask data
        off.toNat 1 ↔
      if s.eval.write = true ∧ ¬s.Barred off then
        s.Throughout mask data off.toNat 1 fun old _ m => old &&& ~~~m = 0
      else s.Throughout mask data off.toNat 1 fun old c m => old &&& m = c &&& m := by
  have hfile := file_radareWriteAt (s := (radareWriteMask s (some mask)).1) fresh data hv hmost
    (show off.toNat < 2 ^ 63 by omega)
  have hwrite : fileWrite s.file off.toNat (masked mask data) =
      s.file.take off.toNat ++ (List.replicate 1 (masked mask data)).flatten ++
        s.file.drop (off.toNat + 1 * data.length) := by
    rw [fileWrite_eq (by omega), length_masked, List.replicate_one, List.flatten_singleton,
      Nat.one_mul]
  by_cases hon : s.eval.write = true ∧ ¬s.Barred off
  · rw [if_pos hon]
    exact written_iff (by omega) (hfile.trans ((if_pos hon).trans hwrite))
  · rw [if_neg hon]
    exact left_iff (hfile.trans (if_neg hon))

/-- What `file.insert` moves up is what is there already: only of a file that
one write does not move. -/
def State.MovesOnto (fresh : ℕ → u8) (s : State) (n : ℕ) : Prop :=
  ((s.seekTo s.config.seek).rest fresh).take readMost =
    (s.file.drop (s.config.seek.toNat + n)).take readMost

/-- Bytes written into a file are what was there. -/
theorem append_drop_eq_iff {bytes file : List u8} (hpos : 0 < n) (hlt : p + n ≤ file.length)
    (hlength : bytes.length = file.length - p) :
    bytes.take readMost ++ file.drop (p + n + (bytes.take readMost).length) =
        file.drop (p + n) ↔
      bytes.take readMost = (file.drop (p + n)).take readMost := by
  have hwritten : (bytes.take readMost).length = min readMost (file.length - p) := by
    rw [List.length_take, hlength]
  rw [← List.drop_drop]
  constructor
  · intro h
    -- the bytes are a part of what is behind, so one write did not take all of them
    have hshort := congrArg List.length h
    rw [List.length_append, List.length_drop, List.length_drop] at hshort
    have hmost : (bytes.take readMost).length = readMost := by omega
    have htake := congrArg (List.take readMost) h
    rwa [List.take_left' hmost] at htake
  · intro h
    have hshort := congrArg List.length h
    rw [hwritten, List.length_take, List.length_drop] at hshort
    have hmost : (bytes.take readMost).length = readMost := by omega
    rw [hmost, h, List.take_append_drop]

/-- Where it does not come to write, `radare_write` leaves the file. -/
theorem radareWriteData_nil (fresh : ℕ → u8) (s : State) :
    radareWriteData fresh s [] = (s, 0) := by
  unfold radareWriteData
  dsimp only
  rw [if_pos rfl, ite_self]

/-- A run that is known, and the file it leaves. -/
theorem exists_maskWritten_iff {run : Option (State × ℤ)} {u : State × ℤ} (h : run = some u) :
    (∃ s' ret, run = some (s', ret) ∧ s.MaskWritten s' mask data p n) ↔
      s.MaskWritten u.1 mask data p n := by
  rw [h]
  constructor
  · rintro ⟨s', ret, heq, hwritten⟩
    rwa [Option.some.inj heq]
  · intro hwritten
    exact ⟨u.1, u.2, rfl, hwritten⟩

/-- Once its argument is decoded, `radare_write` counts and writes. -/
theorem radareWrite_under {getMath : List u8 → ut64} {behind arg : List u8} {mode : WMode}
    (hwrite : s.eval.write = true) (hdata : writeBytes getMath behind arg mode = some data) :
    radareWrite getMath fresh behind (s.under mask) arg mode =
      if !decodesApart arg mode then none
      else if arg.length < data.length then none
      else if s.Shifts ∧ 2 ^ 31 ≤ data.length * writeTimes s.eval.count then none
      else some (radareWriteData fresh (s.under mask) data) := by
  have hwrite' : (s.under mask).eval.write = true := hwrite
  unfold radareWrite
  rw [hwrite', if_neg (by decide), hdata, Option.bind_some]
  rfl

/-- **The copies lie over what was there**, each through the mask. -/
theorem maskWritten_stay_iff (fresh : ℕ → u8) (mask : List u8) (hs : s.Sized)
    (hwrite : s.eval.write = true) (hv : s.config.vaddr = 0) (hne : data ≠ [])
    (hmost : data.length ≤ readMost)
    (hin : s.config.seek.toNat + data.length * writeTimes s.eval.count ≤ s.file.length)
    (hstay : ¬s.Shifts) :
    s.MaskWritten (radareWriteData fresh (s.under mask) data).1 mask data s.config.seek.toNat
        (writeTimes s.eval.count) ↔
      s.Throughout mask data s.config.seek.toNat (writeTimes s.eval.count)
        fun old _ m => old &&& ~~~m = 0 := by
  have hsmall := hs.small
  obtain ⟨u, hu, hfile, -⟩ := radareWriteData_eq (s := s.under mask) fresh hwrite hv hne
    (by omega : s.config.seek.toNat < 2 ^ 63)
  obtain ⟨hlooped, -⟩ := looped_stay (s := s.under mask) fresh data hwrite hv hmost
    (by omega : s.config.seek.toNat ≤ s.file.length)
    (by omega : s.config.seek.toNat + data.length * writeTimes s.eval.count < 2 ^ 63) hstay
  have hspliced := hfile.trans hlooped
  rw [Nat.mul_comm data.length] at hspliced hin
  rw [hu]
  exact written_iff hin hspliced

/-- Where bytes are moved up, what is behind them is to stay too. -/
theorem maskWritten_shift_iff (fresh : ℕ → u8) (mask : List u8) (hs : s.Sized)
    (hwrite : s.eval.write = true) (hv : s.config.vaddr = 0) (hne : data ≠ [])
    (hmost : data.length ≤ readMost)
    (hin : s.config.seek.toNat + data.length * writeTimes s.eval.count ≤ s.file.length)
    (hshifts : s.Shifts) :
    s.MaskWritten (radareWriteData fresh (s.under mask) data).1 mask data s.config.seek.toNat
        (writeTimes s.eval.count) ↔
      s.MovesOnto fresh (data.length * writeTimes s.eval.count) ∧
      s.Throughout mask data s.config.seek.toNat (writeTimes s.eval.count)
        fun old _ m => old &&& ~~~m = 0 := by
  have hsmall := hs.small
  have hpos : 0 < data.length * writeTimes s.eval.count :=
    Nat.mul_pos (List.length_pos_iff.mpr hne) (writeTimes_pos _)
  have hlength := length_rest_seekTo fresh s
  obtain ⟨u, hu, hfile, -⟩ := radareWriteData_eq (s := s.under mask) fresh hwrite hv hne
    (by omega : s.config.seek.toNat < 2 ^ 63)
  obtain ⟨hlooped, -⟩ := looped_shifts (s := s.under mask) fresh data
    ⟨hs.size, hs.seek_le, hs.small⟩ hwrite hv hmost
    (by omega : s.config.seek.toNat + data.length * writeTimes s.eval.count < 2 ^ 63) hshifts
  have hrest : ((s.under mask).seekTo s.config.seek).rest fresh =
      (s.seekTo s.config.seek).rest fresh := by
    unfold State.rest
    dsimp only
    rw [bytes_ioRead, bytes_ioRead]
    rfl
  have hmoved : (fileWrite s.file
      (s.config.seek.toNat + data.length * writeTimes s.eval.count)
      (((s.seekTo s.config.seek).rest fresh).take readMost)).drop
        (s.config.seek.toNat + data.length * writeTimes s.eval.count) =
      ((s.seekTo s.config.seek).rest fresh).take readMost ++ s.file.drop
        (s.config.seek.toNat + data.length * writeTimes s.eval.count +
          (((s.seekTo s.config.seek).rest fresh).take readMost).length) := by
    rw [fileWrite_eq hin, List.append_assoc, List.drop_left' (List.length_take_of_le hin)]
  have hspliced := hfile.trans hlooped
  rw [show (s.under mask).config = s.config from rfl, show (s.under mask).file = s.file from rfl,
    show (s.under mask).eval = s.eval from rfl, hrest, hmoved] at hspliced
  have hin' := hin
  rw [Nat.mul_comm data.length] at hin'
  rw [hu, written_behind_iff hin' hspliced, Nat.mul_comm _ data.length]
  exact and_congr_left' (append_drop_eq_iff hpos hin hlength)

/-- **`radare_write` through a mask.** -/
theorem maskedWrite_iff (getMath : List u8 → ut64) (behind arg : List u8) (mode : WMode)
    (hs : s.Sized) (hv : s.config.vaddr = 0)
    (hdata : writeBytes getMath behind arg mode = some data) (hmost : data.length ≤ readMost)
    (hin : s.config.seek.toNat + data.length * writeTimes s.eval.count ≤ s.file.length) :
    (∃ s' ret, radareWrite getMath fresh behind (radareWriteMask s (some mask)).1 arg mode =
        some (s', ret) ∧
      s.MaskWritten s' mask data s.config.seek.toNat (writeTimes s.eval.count)) ↔
      if s.eval.write = true then
        (decodesApart arg mode ∧ data.length ≤ arg.length) ∧
        (data ≠ [] → s.Shifts → data.length * writeTimes s.eval.count < 2 ^ 31 ∧
          s.MovesOnto fresh (data.length * writeTimes s.eval.count)) ∧
        s.Throughout mask data s.config.seek.toNat (writeTimes s.eval.count)
          fun old _ m => old &&& ~~~m = 0
      else s.Throughout mask data s.config.seek.toNat (writeTimes s.eval.count)
        fun old c m => old &&& m = c &&& m := by
  have hleft : s.MaskWritten (s.under mask) mask data s.config.seek.toNat
      (writeTimes s.eval.count) ↔ _ := left_iff rfl
  rw [radareWriteMask_some]
  by_cases hwrite : s.eval.write = true
  swap
  · -- without `file.write` nothing is decoded
    have hoff : radareWrite getMath fresh behind (s.under mask) arg mode = some (s.under mask, 0) :=
      if_pos (Bool.not_eq_true' _ ▸ (Bool.not_eq_true _ ▸ hwrite))
    rw [if_neg hwrite, exists_maskWritten_iff hoff]
    exact hleft
  rw [if_pos hwrite, radareWrite_under hwrite hdata]
  rcases Bool.eq_false_or_eq_true (decodesApart arg mode) with hapart | hapart
  swap
  · -- an escape is copied over itself
    rw [hapart, if_pos (by decide)]
    exact iff_of_false (fun ⟨_, _, h, _⟩ => absurd h (by simp))
      (fun h => Bool.noConfusion h.1.1)
  rw [hapart, if_neg (by decide), and_iff_right (rfl : true = true)]
  by_cases hne : data = []
  · subst hne
    -- no byte is to be written, and none is
    have hnone : ∀ P, s.Throughout mask [] s.config.seek.toNat (writeTimes s.eval.count) P :=
      fun P x old hp hx _ => absurd hx (by rw [List.length_nil, Nat.mul_zero]; omega)
    rw [if_neg (fun h => by simp at h), if_neg (fun h => by simp at h), radareWriteData_nil,
      exists_maskWritten_iff rfl]
    exact hleft.trans (iff_of_true (hnone _)
      ⟨Nat.zero_le _, fun h => absurd rfl h, hnone _⟩)
  by_cases hbehind : arg.length < data.length
  · -- the zero is set behind the copy of the argument
    rw [if_pos hbehind]
    exact iff_of_false (fun ⟨_, _, h, _⟩ => absurd h (by simp)) (fun h => by omega)
  rw [if_neg hbehind, and_iff_right (Nat.not_lt.mp hbehind)]
  by_cases hshifts : s.Shifts
  swap
  · rw [if_neg fun h => hshifts h.1, exists_maskWritten_iff rfl,
      maskWritten_stay_iff fresh mask hs hwrite hv hne hmost hin hshifts]
    exact ⟨fun h => ⟨fun _ h' => absurd h' hshifts, h⟩, fun h => h.2⟩
  by_cases hmany : 2 ^ 31 ≤ data.length * writeTimes s.eval.count
  · rw [if_pos ⟨hshifts, hmany⟩]
    exact iff_of_false (fun ⟨_, _, h, _⟩ => absurd h (by simp))
      (fun h => absurd (h.1 hne hshifts).1 (by omega))
  · rw [if_neg fun h => hmany h.2, exists_maskWritten_iff rfl,
      maskWritten_shift_iff fresh mask hs hwrite hv hne hmost hin hshifts]
    exact and_congr_left' ⟨fun h _ _ => ⟨by omega, h⟩, fun h => (h hne hshifts).2⟩

/-- **When a mask protects.** A write that is made, of bytes that one write
takes, leaves each byte as the mask wants it exactly if no bit that the mask
protects is set in it; `radare_write` also copies escapes down and sets a zero
in a copy of its argument, behind the bytes, and moves up what is behind where
`file.insert` is on. -/
theorem masked_write_iff (getMath : List u8 → ut64) (fresh : ℕ → u8) (behind : List u8)
    (s : State) (mask : List u8) (off : ut64) (hs : s.Sized) (hv : s.config.vaddr = 0)
    (_hmask : mask ≠ []) :
    (∀ data, data.length ≤ readMost → off.toNat + data.length ≤ s.file.length →
      (s.MaskWritten (radareWriteAt fresh (radareWriteMask s (some mask)).1 off data).1 mask data
          off.toNat 1 ↔
        if s.eval.write = true ∧ ¬s.Barred off then
          s.Throughout mask data off.toNat 1 fun old _ m => old &&& ~~~m = 0
        else s.Throughout mask data off.toNat 1 fun old c m => old &&& m = c &&& m)) ∧
    ∀ arg mode data, writeBytes getMath behind arg mode = some data → data.length ≤ readMost →
      s.config.seek.toNat + data.length * writeTimes s.eval.count ≤ s.file.length →
      ((∃ s' ret, radareWrite getMath fresh behind (radareWriteMask s (some mask)).1 arg mode =
          some (s', ret) ∧
        s.MaskWritten s' mask data s.config.seek.toNat (writeTimes s.eval.count)) ↔
        if s.eval.write = true then
          (decodesApart arg mode ∧ data.length ≤ arg.length) ∧
          (data ≠ [] → s.Shifts → data.length * writeTimes s.eval.count < 2 ^ 31 ∧
            s.MovesOnto fresh (data.length * writeTimes s.eval.count)) ∧
          s.Throughout mask data s.config.seek.toNat (writeTimes s.eval.count)
            fun old _ m => old &&& ~~~m = 0
        else s.Throughout mask data s.config.seek.toNat (writeTimes s.eval.count)
          fun old c m => old &&& m = c &&& m) :=
  ⟨fun _ hmost hin => maskedWriteAt_iff hv hs.small hmost hin,
    fun arg mode _ hdata hmost hin =>
      maskedWrite_iff getMath behind arg mode hs hv hdata hmost hin⟩

/-- `AB` through the mask `0f`, over bytes with nothing in the upper
half. -/
theorem low_halves_written :
    let s := openFile [0x07, 0x03] 2 1
    s.MaskWritten (radareWriteAt (fun _ => 0) (radareWriteMask s (some [0x0f])).1 0
      [0x41, 0x42]).1 [0x0f] [0x41, 0x42] 0 1 := by
  intro s
  have hs : s.Sized := ⟨rfl, by decide, by decide⟩
  refine ((masked_write_iff (fun _ => 0) (fun _ => 0) [] s [0x0f] 0 hs rfl (by decide)).1
    [0x41, 0x42] (by decide) (by decide)).mpr ?_
  rw [if_pos ⟨rfl, by decide⟩]
  intro x old hp hx hold
  have hx2 : x < 2 := hx
  obtain rfl | rfl : x = 0 ∨ x = 1 := by omega
  · obtain rfl := Option.some.inj hold
    decide
  · obtain rfl := Option.some.inj hold
    decide

/-- **What the mask protects is lost**, by either writer: `00` written
through `0f` over `ff`. -/
theorem high_half_lost :
    let s := openFile [0xff] 1 1
    s.Sized ∧
      (radareWriteAt (fun _ => 0) (radareWriteMask s (some [0x0f])).1 0 [0x00]).1.file = [0x00] ∧
      ¬s.MaskWritten (radareWriteAt (fun _ => 0) (radareWriteMask s (some [0x0f])).1 0 [0x00]).1
        [0x0f] [0x00] 0 1 ∧
      ¬∃ s' ret, radareWrite (fun _ => 0) (fun _ => 0) [] (radareWriteMask s (some [0x0f])).1
          [0x30, 0x30] .hex = some (s', ret) ∧ s.MaskWritten s' [0x0f] [0x00] 0 1 := by
  intro s
  refine ⟨⟨rfl, by decide, by decide⟩, by decide, fun h => absurd (h 0) (by decide), ?_⟩
  rintro ⟨s', ret, hrun, h⟩
  have hfile : (radareWrite (fun _ => 0) (fun _ => 0) [] (radareWriteMask s (some [0x0f])).1
      [0x30, 0x30] .hex).map (fun p => p.1.file) = some [0x00] := by decide
  have hzero : s'.file = [0x00] := by
    rw [hrun] at hfile
    exact Option.some.inj hfile
  have hwritten := h 0
  rw [hzero] at hwritten
  exact absurd hwritten (by decide)

end Radare
