import Radare.Rio.Cursor
import Radare.Rio.Undo
/-!
# The copies of a write

What `radare_write` leaves in the file. Its loop writes copy behind copy
over what was there (`writeLoop_eq`), each as the mask lets it through; with
`file.insert` on, what is behind the seek has first been moved up
(`insertShift_shifts`), by as many bytes as there are to come.
-/

namespace Radare

variable {fresh : ℕ → u8} {s : State} {off : ut64} {data buf file : List u8} {p n : ℕ}

/-! ## Writes in order -/

/-- Bytes written no further than at the end of the file. -/
theorem fileWrite_eq (h : p ≤ file.length) :
    fileWrite file p data = file.take p ++ data ++ file.drop (p + data.length) := by
  unfold fileWrite
  split_ifs with hnil
  · rw [hnil, List.append_nil, List.length_nil, Nat.add_zero, List.take_append_drop]
  · rw [Nat.sub_eq_zero_of_le h, List.replicate_zero, List.append_nil]

/-- A map that answers leaves the descriptor where it was; a read moves it
on. -/
theorem ioRead_fst (s : State) (n : ℕ) : ∃ pos, (ioRead s n).1 = { s with pos := pos } := by
  unfold ioRead
  dsimp only
  split_ifs
  · exact ⟨s.pos, rfl⟩
  · exact ⟨_, rfl⟩

/-- A read comes back, whatever it has read. -/
theorem radareReadAt_fst (hv : s.config.vaddr = 0) (hoff : off.toNat < 2 ^ 63)
    (hseek : s.config.seek.toNat < 2 ^ 63) :
    (radareReadAt s off buf).1 = s.seekTo s.config.seek := by
  obtain ⟨pos, hpos⟩ := ioRead_fst (s.seekTo off) buf.length
  unfold radareReadAt
  simp only [radareSeek_eq hv hoff, hpos]
  exact radareSeek_eq hv hseek

/-- The program with its position at the seek. -/
structure State.At (s : State) (p : ℕ) : Prop where
  vaddr : s.config.vaddr = 0
  pos : s.pos = p
  seek : s.config.seek.toNat = p
  small : p < 2 ^ 63

theorem State.At.seekTo (h : s.At p) : s.seekTo s.config.seek = s := by
  unfold State.seekTo
  rw [h.seek, ← h.pos]

/-- A read elsewhere comes back. -/
theorem State.At.radareReadAt (h : s.At p) (hoff : off.toNat < 2 ^ 63) (buf : List u8) :
    (radareReadAt s off buf).1 = s :=
  (radareReadAt_fst h.vaddr hoff (h.seek ▸ h.small)).trans h.seekTo

/-- What is recorded does not move the place. -/
theorem State.At.undoWriteNew (h : s.At p) (fresh : ℕ → u8) (data : List u8)
    (hoff : off.toNat < 2 ^ 63) :
    ∃ records, undoWriteNew fresh s off data = { s with undoWList := records } := by
  by_cases hrecords : s.Records off data
  · rw [undoWriteNew_of_records hrecords, h.radareReadAt hoff]
    exact ⟨_, rfl⟩
  · exact ⟨s.undoWList, undoWriteNew_of_not_records hrecords⟩

/-- The program at a place where it writes. -/
structure State.Writing (s : State) (p : ℕ) : Prop extends s.At p where
  write : s.eval.write = true

/-- The bytes that the mask lets through. -/
def State.through (s : State) (data : List u8) : List u8 :=
  match s.writeMask with
  | none => data
  | some mask => masked mask data

theorem length_masked {mask : List u8} : (masked mask data).length = data.length :=
  List.length_mapIdx

theorem length_through : (s.through data).length = data.length := by
  unfold State.through
  split
  · rfl
  · exact length_masked

/-- The program behind one copy. -/
def State.copied (s : State) (p : ℕ) (data : List u8) (records : List UndoW) : State :=
  { s with
    file := fileWrite s.file p (s.through data)
    undoWList := records
    pos := p + data.length
    config := { s.config with seek := s.config.seek + UInt64.ofNat data.length } }

/-- One turn of the loop, with bytes that one write transfers. -/
theorem State.Writing.writeLoop_succ (fresh : ℕ → u8) (data : List u8) (n : ℕ) (h : s.Writing p)
    (hmost : data.length ≤ readMost) (hoff : off.toNat < 2 ^ 63) :
    ∃ records, writeLoop fresh off data (n + 1) s =
      writeLoop fresh off data n (s.copied p data records) := by
  obtain ⟨records, hrecords⟩ := h.undoWriteNew fresh (s.through data) hoff
  refine ⟨records, ?_⟩
  have hread : (radareReadAt s s.config.seek (malloc fresh data.length)).1 = s :=
    h.radareReadAt (h.seek ▸ h.small) _
  have hmask := hrecords
  unfold State.copied
  unfold State.through at hmask ⊢
  rw [writeLoop]
  split at hmask
  · -- no mask: the bytes go as they are
    rename_i hnone
    rw [hnone]
    dsimp only
    rw [hmask, ioWrite, if_pos h.write, ← h.pos]
    dsimp only
    rw [hnone, List.take_of_length_le hmost]
  · -- a mask: the old bytes are read first, and the descriptor comes back
    rename_i mask hsome
    rw [hsome]
    dsimp only
    rw [hread, hmask, ioWrite, if_pos h.write, ← h.pos]
    dsimp only
    rw [hsome, List.take_of_length_le (by rwa [length_masked]), length_masked]

/-- It writes on from the end of the copy. -/
theorem State.Writing.copied (h : s.Writing p) (records : List UndoW)
    (hroom : p + data.length < 2 ^ 63) :
    (s.copied p data records).Writing (p + data.length) := by
  refine ⟨⟨h.vaddr, rfl, ?_, hroom⟩, h.write⟩
  show (s.config.seek + UInt64.ofNat data.length).toNat = p + data.length
  rw [UInt64.toNat_add, h.seek, UInt64.toNat_ofNat']
  omega

/-- A copy in a file, and what is before and behind its end. -/
theorem file_copied (records : List UndoW) (hfile : p ≤ s.file.length) :
    p + data.length ≤ (s.copied p data records).file.length ∧
      (s.copied p data records).file.take (p + data.length) = s.file.take p ++ s.through data ∧
      ∀ m, (s.copied p data records).file.drop (p + data.length + m) =
        s.file.drop (p + data.length + m) := by
  have hwrite : (s.copied p data records).file =
      s.file.take p ++ s.through data ++ s.file.drop (p + data.length) :=
    (fileWrite_eq hfile).trans (by rw [length_through])
  have hlength : (s.file.take p ++ s.through data).length = p + data.length := by
    rw [List.length_append, List.length_take_of_le hfile, length_through]
  rw [hwrite]
  refine ⟨?_, List.take_left' hlength, fun m => ?_⟩
  · rw [List.length_append, hlength]
    exact Nat.le_add_right _ _
  · rw [List.drop_append, hlength, Nat.add_sub_cancel_left,
      List.drop_eq_nil_of_le (by omega), List.nil_append, List.drop_drop]

/-- **The copies come one behind the other**, over what was there. -/
theorem writeLoop_eq (fresh : ℕ → u8) (h : s.Writing p) (hmost : data.length ≤ readMost)
    (hfile : p ≤ s.file.length) (hsmall : p + n * data.length < 2 ^ 63) (hoff : off.toNat < 2 ^ 63) :
    ∃ records pos seek, writeLoop fresh off data n s =
      { s with
        file := s.file.take p ++ (List.replicate n (s.through data)).flatten ++
          s.file.drop (p + n * data.length)
        undoWList := records
        pos := pos
        config := { s.config with seek := seek } } := by
  induction n generalizing s p with
  | zero =>
    refine ⟨s.undoWList, s.pos, s.config.seek, ?_⟩
    rw [writeLoop, List.replicate_zero, List.flatten_nil, List.append_nil, Nat.zero_mul,
      Nat.add_zero, List.take_append_drop]
  -- one copy is written, and the others from its end on
  | succ n ih =>
    rw [Nat.succ_mul] at hsmall
    obtain ⟨records, hstep⟩ := h.writeLoop_succ fresh data n hmost hoff
    obtain ⟨hle, htake, hdrop⟩ : p + data.length ≤ _ ∧ _ ∧ _ := file_copied records hfile
    obtain ⟨records', pos, seek, hloop⟩ := ih (h.copied records (by omega)) hle
      (by omega)
    refine ⟨records', pos, seek, ?_⟩
    have hthrough : (s.copied p data records).through data = s.through data := rfl
    rw [hstep, hloop, htake, hdrop, hthrough, Nat.succ_mul, Nat.add_comm (n * data.length),
      ← Nat.add_assoc, List.replicate_succ, List.flatten_cons, List.append_assoc _ (s.through data)]
    rfl

/-! ## The shift -/

theorem ioLseek_eq (hoff : off.toNat < 2 ^ 63) : ioLseek s off = { s with pos := off.toNat } :=
  if_pos hoff

theorem ioWrite_eq (hwrite : s.eval.write = true) :
    (ioWrite s data).1 =
      { s with
        file := fileWrite s.file s.pos (data.take readMost)
        pos := s.pos + (data.take readMost).length } := by
  rw [ioWrite, if_pos hwrite]

/-- The bytes from the position on, as they are read before they are
moved. -/
def State.rest (fresh : ℕ → u8) (s : State) : List u8 :=
  let rest := s.file.length - s.pos
  overlay (malloc fresh rest) (ioRead s rest).2.2

theorem length_fileWrite (file : List u8) (p : ℕ) (data : List u8) (hne : data ≠ []) :
    (fileWrite file p data).length = max file.length (p + data.length) := by
  unfold fileWrite
  rw [if_neg hne, List.length_append, List.length_append, List.length_take, List.length_append,
    List.length_replicate, List.length_drop]
  omega

theorem length_le_fileWrite (file : List u8) (p : ℕ) (data : List u8) :
    file.length ≤ (fileWrite file p data).length := by
  by_cases hne : data = []
  · rw [hne]
    exact le_rfl
  · rw [length_fileWrite _ _ _ hne]
    exact Nat.le_max_left _ _

/-- A write leaves what is before it. -/
theorem take_fileWrite {m : ℕ} (hle : m ≤ file.length) (hmp : m ≤ p) :
    (fileWrite file p data).take m = file.take m := by
  unfold fileWrite
  split_ifs
  · rfl
  · rw [List.append_assoc, List.take_append_of_le_length
      (by rw [List.length_take, List.length_append, List.length_replicate]; omega),
      List.take_take, Nat.min_eq_left hmp, List.take_append_of_le_length hle]

theorem length_rest (fresh : ℕ → u8) (s : State) :
    (s.rest fresh).length = s.file.length - s.pos := by
  have hle := ioRead_length_le (s := s) (n := s.file.length - s.pos)
  unfold State.rest overlay malloc
  dsimp only
  rw [List.length_append, List.length_drop, List.length_map, List.length_range]
  omega

theorem length_rest_seekTo (fresh : ℕ → u8) (s : State) :
    ((s.seekTo s.config.seek).rest fresh).length = s.file.length - s.config.seek.toNat :=
  length_rest fresh (s.seekTo s.config.seek)

/-- No map has bytes for the seek, or the one that has gives what is in the
file from a place on, as far as one write goes. -/
def State.MapsAgree (fresh : ℕ → u8) (s : State) (p : ℕ) : Prop :=
  let rest := s.file.length - p
  let mapped := ioMapReadAt s.ioMaps s.config.seek (UInt64.ofNat rest)
  mapped = [] ∨ (overlay (malloc fresh rest) mapped).take readMost = (s.file.drop p).take readMost

theorem bytes_ioRead (s : State) (n : ℕ) :
    (ioRead s n).2.2 = if ioMapReadAt s.ioMaps s.config.seek (UInt64.ofNat n) ≠ [] then
      ioMapReadAt s.ioMaps s.config.seek (UInt64.ofNat n)
    else (s.file.drop s.pos).take (min n readMost) := by
  unfold ioRead
  dsimp only
  split_ifs <;> rfl

/-- **What is read is what is there**, off the maps. -/
theorem rest_eq_iff :
    (s.rest fresh).take readMost = (s.file.drop s.pos).take readMost ↔
      s.MapsAgree fresh s.pos := by
  have htake : (s.file.drop s.pos).take (min (s.file.length - s.pos) readMost) =
      (s.file.drop s.pos).take readMost := by
    rw [Nat.min_comm, ← List.length_drop, ← List.take_eq_take_min]
  unfold State.rest State.MapsAgree
  dsimp only
  rw [bytes_ioRead, htake]
  split_ifs with hmap
  · exact ⟨Or.inr, fun h => h.resolve_left hmap⟩
  · refine iff_of_true ?_ (Or.inl (not_not.mp hmap))
    -- what `malloc` gave is behind the end of the file, or of what one write takes
    have hlen : ((s.file.drop s.pos).take readMost).length =
        min readMost (s.file.length - s.pos) := by
      rw [List.length_take, List.length_drop]
    unfold overlay
    rcases Nat.le_total readMost (s.file.length - s.pos) with hle | hle
    · rw [List.take_append_of_le_length (by omega), List.take_take, Nat.min_self]
    · have hfull : (malloc fresh (s.file.length - s.pos)).drop
          ((s.file.drop s.pos).take readMost).length = [] :=
        List.drop_eq_nil_of_le (by rw [length_malloc]; omega)
      rw [hfull, List.append_nil, List.take_take, Nat.min_self]

/-- Bytes written behind a gap, to the end of a file and on. -/
theorem fileWrite_gap (n : ℕ) (hne : data ≠ []) (hle : p ≤ file.length)
    (hend : file.length ≤ p + n + data.length) :
    ∃ gap, gap.length = n ∧ fileWrite file (p + n) data = file.take p ++ gap ++ data := by
  -- the gap is what was there, and zeros where it goes behind the end
  refine ⟨((file ++ List.replicate (p + n - file.length) 0).drop p).take n, ?_, ?_⟩
  · rw [List.length_take, List.length_drop, List.length_append, List.length_replicate]
    omega
  · unfold fileWrite
    rw [if_neg hne, List.drop_eq_nil_of_le hend, List.append_nil, List.take_add,
      List.take_append_of_le_length hle]

/-- The size of the file is known, and the seek is in it. -/
structure State.Sized (s : State) : Prop where
  size : s.config.size = UInt64.ofNat s.file.length
  seek_le : s.config.seek ≤ s.config.size
  small : s.file.length < 2 ^ 63

theorem State.Sized.size_toNat (h : s.Sized) : s.config.size.toNat = s.file.length := by
  have hsmall := h.small
  rw [h.size, UInt64.toNat_ofNat']
  omega

theorem State.Sized.seek_toNat_le (h : s.Sized) : s.config.seek.toNat ≤ s.file.length := by
  rw [← h.size_toNat]
  exact UInt64.le_iff_toNat_le.mp h.seek_le

/-- A shift is one before the end of the file. -/
theorem State.Sized.lt_of_shifts (h : s.Sized) (hshifts : s.Shifts) :
    s.config.seek.toNat < s.file.length := by
  refine Nat.lt_of_le_of_ne h.seek_toNat_le fun heq => ?_
  exact hshifts.2.2.2 (UInt64.toNat_inj.mp (h.size_toNat.trans heq.symm))

theorem State.Sized.size_ne (h : s.Sized) : s.config.size ≠ -1 := by
  intro heq
  have hnat := h.size_toNat
  have hsmall := h.small
  rw [heq] at hnat
  have hall : (-1 : ut64).toNat = 2 ^ 64 - 1 := rfl
  omega

/-- **The shift** writes the rest so many bytes on, as much of it as one
write takes. -/
theorem insertShift_shifts (fresh : ℕ → u8) (h : s.Sized) (hwriteOn : s.eval.write = true)
    (hshifts : s.Shifts)
    (hpos : s.pos = s.config.seek.toNat) (hroom : s.config.seek.toNat + n < 2 ^ 63) :
    insertShift fresh s s.config.seek n =
      { s with
        file := fileWrite s.file (s.config.seek.toNat + n) ((s.rest fresh).take readMost)
        config := { s.config with size := s.config.size + UInt64.ofNat n } } := by
  have hsize := h.size_toNat
  have hle := h.seek_toNat_le
  have hlt := h.lt_of_shifts hshifts
  have hrest : (s.config.size - s.config.seek).toNat = s.file.length - s.config.seek.toNat := by
    rw [UInt64.toNat_sub_of_le _ _ h.seek_le, hsize]
  have hsum : (s.config.seek + UInt64.ofNat n).toNat = s.config.seek.toNat + n := by
    rw [UInt64.toNat_add, UInt64.toNat_ofNat']
    omega
  obtain ⟨pos, hread⟩ := ioRead_fst s (s.file.length - s.config.seek.toNat)
  unfold insertShift
  dsimp only
  rw [if_neg hshifts.2.1, hshifts.2.2.1, if_neg (by decide), hrest, if_neg (by omega), hread]
  -- the two seeks: back to the rest, and up to where it goes
  have hback : ∀ t : State, ioLseek t s.config.seek = { t with pos := s.config.seek.toNat } :=
    fun t => ioLseek_eq (by omega)
  have hup : ∀ t : State, ioLseek t (s.config.seek + UInt64.ofNat n) =
      { t with pos := s.config.seek.toNat + n } := by
    intro t
    rw [ioLseek_eq (by rw [hsum]; omega), hsum]
  have hrestore : overlay (malloc fresh (s.file.length - s.config.seek.toNat))
      (ioRead s (s.file.length - s.config.seek.toNat)).2.2 = s.rest fresh := by
    unfold State.rest
    rw [hpos]
  rw [hback, hup, hrestore]
  dsimp only
  rw [ioWrite_eq]
  swap
  · exact hwriteOn
  rw [← hpos]

/-! ## The whole write -/

theorem config_ioLseek : (ioLseek s off).config = s.config := by
  unfold ioLseek
  split_ifs <;> rfl

theorem size_radareSeek : (radareSeek s off .set).1.config.size = s.config.size := by
  unfold radareSeek
  simp only [reduceCtorEq, false_and, if_false, if_true]
  split_ifs <;> simp only [config_ioLseek, config_sectionAlign]

theorem size_radareRead : (radareRead s false).1.config.size = s.config.size := by
  have hread : ∀ t : State, (ioRead t s.config.block.length).1.config.size = t.config.size := by
    intro t
    obtain ⟨pos, hpos⟩ := ioRead_fst t s.config.block.length
    rw [hpos]
  unfold radareRead
  by_cases hneg : s.config.seek = -1
  · rw [if_pos hneg]
  · rw [if_neg hneg]
    exact (hread _).trans size_radareSeek

theorem file_radareSeek : (radareSeek s off .set).1.file = s.file :=
  congrArg Core.file (core_radareSeek .set)

theorem file_radareRead : (radareRead s false).1.file = s.file :=
  congrArg Core.file (core_radareRead false)

theorem file_radareOpen : (radareOpen s).file = s.file :=
  congrArg Core.file core_radareOpen

/-- The bytes a write comes to, with all its copies. -/
def copies (s : State) (data : List u8) : List u8 :=
  (List.replicate (writeTimes s.eval.count) (s.through data)).flatten

theorem length_copies : (copies s data).length = data.length * writeTimes s.eval.count := by
  unfold copies
  rw [List.length_flatten, List.map_replicate, List.sum_replicate_nat, length_through,
    Nat.mul_comm]

theorem writeTimes_pos (count : ut64) : 0 < writeTimes count := by
  unfold writeTimes
  dsimp only
  split_ifs <;> omega

/-- The program before the loop of `radare_write`. -/
def State.shifted (fresh : ℕ → u8) (s : State) (data : List u8) : State :=
  if s.eval.insert then
    insertShift fresh (s.seekTo s.config.seek) s.config.seek
      (data.length * writeTimes s.eval.count)
  else s.seekTo s.config.seek

/-- And behind it. -/
def State.looped (fresh : ℕ → u8) (s : State) (data : List u8) : State :=
  writeLoop fresh s.config.seek data (writeTimes s.eval.count) (s.shifted fresh data)

/-- The file `radare_write` looks at a second time: the bytes of one copy
end behind its size. -/
def State.Reopens (s : State) (seek : ut64) (data : List u8) : Prop :=
  !s.config.debug ∧ !s.config.unksize ∧ seek + UInt64.ofNat data.length > s.config.size

/-- `radare_write` is its shift, its loop, and another look at the size. -/
theorem radareWriteData_eq (fresh : ℕ → u8) (hwrite : s.eval.write = true)
    (hv : s.config.vaddr = 0) (hne : data ≠ []) (hseek : s.config.seek.toNat < 2 ^ 63) :
    ∃ s', radareWriteData fresh s data = (s', 1) ∧ s'.file = (s.looped fresh data).file ∧
      ((s.looped fresh data).Reopens s.config.seek data →
        s'.config.size = UInt64.ofNat (s.looped fresh data).file.length) ∧
      (¬(s.looped fresh data).Reopens s.config.seek data →
        s'.config.size = (s.looped fresh data).config.size) := by
  have hinsert : (s.seekTo s.config.seek).eval.insert = s.eval.insert := rfl
  have hlooped : writeLoop fresh s.config.seek data (writeTimes s.eval.count)
      (if s.eval.insert = true then insertShift fresh (s.seekTo s.config.seek) s.config.seek
        (data.length * writeTimes s.eval.count) else s.seekTo s.config.seek) =
        s.looped fresh data := rfl
  unfold radareWriteData
  dsimp only
  rw [hwrite, if_neg (by decide), if_neg hne, radareSeek_eq hv hseek, hinsert, hlooped]
  refine ⟨_, rfl, ?_, ?_, ?_⟩
  · -- opening it again, the seek and the read leave the file
    rw [file_radareRead, file_radareSeek]
    split_ifs
    · exact file_radareOpen
    · rfl
  · intro h
    unfold State.Reopens at h
    rw [size_radareRead, size_radareSeek, if_pos h]
    unfold radareOpen
    dsimp only
    rw [config_ioLseek]
  · intro h
    unfold State.Reopens at h
    rw [size_radareRead, size_radareSeek, if_neg h]

/-- **Copies over what was there**, where nothing is moved. -/
theorem looped_stay (fresh : ℕ → u8) (data : List u8) (hwrite : s.eval.write = true)
    (hv : s.config.vaddr = 0) (hmost : data.length ≤ readMost)
    (hle : s.config.seek.toNat ≤ s.file.length)
    (hroom : s.config.seek.toNat + data.length * writeTimes s.eval.count < 2 ^ 63)
    (hstay : ¬s.Shifts) :
    (s.looped fresh data).file = s.file.take s.config.seek.toNat ++ copies s data ++
        s.file.drop (s.config.seek.toNat + data.length * writeTimes s.eval.count) ∧
      (s.looped fresh data).config.size = s.config.size ∧
      (s.looped fresh data).config.debug = s.config.debug ∧
      (s.looped fresh data).config.unksize = s.config.unksize := by
  have hshift : s.shifted fresh data = s.seekTo s.config.seek := by
    unfold State.shifted
    split_ifs with hinsert
    · have hstay' : ¬(s.seekTo s.config.seek).Shifts := hstay
      exact insertShift_eq hstay' hinsert
    · rfl
  have hwriting : (s.seekTo s.config.seek).Writing s.config.seek.toNat :=
    ⟨⟨hv, rfl, rfl, by omega⟩, hwrite⟩
  rw [Nat.mul_comm] at hroom
  obtain ⟨records, pos, seek, hloop⟩ := writeLoop_eq fresh hwriting hmost hle hroom
    (show s.config.seek.toNat < 2 ^ 63 by omega)
  unfold State.looped
  rw [hshift, hloop, Nat.mul_comm data.length]
  exact ⟨rfl, rfl, rfl, rfl⟩

/-- **Copies before what the shift has moved.** -/
theorem looped_shifts (fresh : ℕ → u8) (data : List u8) (hs : s.Sized)
    (hwrite : s.eval.write = true) (hv : s.config.vaddr = 0) (hmost : data.length ≤ readMost)
    (hroom : s.config.seek.toNat + data.length * writeTimes s.eval.count < 2 ^ 63)
    (hshifts : s.Shifts) :
    (s.looped fresh data).file = s.file.take s.config.seek.toNat ++ copies s data ++
        (fileWrite s.file (s.config.seek.toNat + data.length * writeTimes s.eval.count)
          (((s.seekTo s.config.seek).rest fresh).take readMost)).drop
            (s.config.seek.toNat + data.length * writeTimes s.eval.count) ∧
      (s.looped fresh data).config.size =
        s.config.size + UInt64.ofNat (data.length * writeTimes s.eval.count) := by
  have hle := hs.seek_toNat_le
  have hs' : (s.seekTo s.config.seek).Sized := ⟨hs.size, hs.seek_le, hs.small⟩
  have hshifted : s.shifted fresh data = _ :=
    (if_pos hshifts.1).trans (insertShift_shifts fresh hs' hwrite hshifts rfl hroom)
  have hwriting : (s.shifted fresh data).Writing s.config.seek.toNat := by
    rw [hshifted]
    exact ⟨⟨hv, rfl, rfl, by omega⟩, hwrite⟩
  have hfile : (s.shifted fresh data).file = fileWrite s.file
      (s.config.seek.toNat + data.length * writeTimes s.eval.count)
      (((s.seekTo s.config.seek).rest fresh).take readMost) := by
    rw [hshifted]
    rfl
  have hlong : s.file.length ≤ (s.shifted fresh data).file.length := by
    rw [hfile]
    exact length_le_fileWrite _ _ _
  obtain ⟨records, pos, seek, hloop⟩ := writeLoop_eq fresh hwriting hmost
    (hle.trans hlong) (n := writeTimes s.eval.count) (by rwa [Nat.mul_comm])
    (show s.config.seek.toNat < 2 ^ 63 by omega)
  have hthrough : (s.shifted fresh data).through data = s.through data := by
    rw [hshifted]
    rfl
  have hcopies : (List.replicate (writeTimes s.eval.count) (s.through data)).flatten =
      copies s data := rfl
  unfold State.looped
  rw [hloop]
  dsimp only
  rw [hthrough, hcopies, hfile, take_fileWrite hle (Nat.le_add_right _ _), Nat.mul_comm, hshifted]
  exact ⟨rfl, rfl⟩

/-- **Copies between the two parts of the file**, where one write takes all of
the rest. -/
theorem looped_shift (fresh : ℕ → u8) (data : List u8) (hs : s.Sized) (hwrite : s.eval.write = true)
    (hv : s.config.vaddr = 0) (hmost : data.length ≤ readMost)
    (hrest : s.file.length - s.config.seek.toNat ≤ readMost)
    (hroom : s.config.seek.toNat + data.length * writeTimes s.eval.count < 2 ^ 63)
    (hshifts : s.Shifts) :
    (s.looped fresh data).file = s.file.take s.config.seek.toNat ++ copies s data ++
        (s.seekTo s.config.seek).rest fresh ∧
      (s.looped fresh data).config.size =
        s.config.size + UInt64.ofNat (data.length * writeTimes s.eval.count) := by
  have hle := hs.seek_toNat_le
  have hlength := length_rest_seekTo fresh s
  have hpos := hs.lt_of_shifts hshifts
  obtain ⟨hfile, hsize⟩ := looped_shifts fresh data hs hwrite hv hmost hroom hshifts
  have htake : ((s.seekTo s.config.seek).rest fresh).take readMost =
      (s.seekTo s.config.seek).rest fresh := List.take_of_length_le (by omega)
  rw [htake] at hfile
  -- the copies fill the gap before the rest
  obtain ⟨gap, hgap, hmoved⟩ := fileWrite_gap (data.length * writeTimes s.eval.count)
    (show (s.seekTo s.config.seek).rest fresh ≠ [] by rw [← List.length_pos_iff]; omega) hle
    (by omega)
  rw [hmoved, List.drop_left' (by rw [List.length_append, List.length_take_of_le hle, hgap])]
    at hfile
  exact ⟨hfile, hsize⟩

/-- Where one write does not take all of the rest, the file is left too
short. -/
theorem length_looped_shift (fresh : ℕ → u8) (data : List u8) (hs : s.Sized)
    (hwrite : s.eval.write = true) (hv : s.config.vaddr = 0) (hmost : data.length ≤ readMost)
    (hrest : readMost < s.file.length - s.config.seek.toNat)
    (hroom : s.config.seek.toNat + data.length * writeTimes s.eval.count < 2 ^ 63)
    (hshifts : s.Shifts) :
    (s.looped fresh data).file.length = max s.file.length
      (s.config.seek.toNat + data.length * writeTimes s.eval.count + readMost) := by
  have hpos : 0 < readMost := by decide
  have hmoved : (((s.seekTo s.config.seek).rest fresh).take readMost).length = readMost := by
    rw [List.length_take, length_rest_seekTo]
    omega
  obtain ⟨hfile, -⟩ := looped_shifts fresh data hs hwrite hv hmost hroom hshifts
  rw [hfile, List.length_append, List.length_append, List.length_drop,
    length_fileWrite _ _ _ (by rw [← List.length_pos_iff]; omega), hmoved, length_copies,
    List.length_take]
  omega

end Radare
