import Mathlib.Data.UInt
import Radare.Rio.Copies
/-!
# Bytes that are inserted

With `file.insert` on, `radare_write` first moves what is behind the seek up
by the bytes to come, and then writes them copy by copy into the place left.
How far it moves is a product of two `int`s (`insert_iff`).
-/

namespace Radare

variable {fresh : ℕ → u8} {s : State} {off : ut64} {data : List u8} {n : ℕ}

/-- The program of which the size of the file is known, and the seek in it,
with `file.write` and `file.insert` on, no mask and no base address. -/
structure State.Inserting (s : State) : Prop extends s.Sized where
  write : s.eval.write = true
  insert : s.eval.insert = true
  writeMask : s.writeMask = none
  vaddr : s.config.vaddr = 0

/-- What an inserting write leaves: the copies between the two parts of the
file, and the size that much larger. -/
def State.Inserted (s s' : State) (data : List u8) : Prop :=
  s'.file = s.file.take s.config.seek.toNat ++
      (List.replicate (writeTimes s.eval.count) data).flatten ++
      s.file.drop s.config.seek.toNat ∧
    s'.config.size = s.config.size + UInt64.ofNat (data.length * writeTimes s.eval.count)

theorem copies_eq (h : s.writeMask = none) :
    copies s data = (List.replicate (writeTimes s.eval.count) data).flatten := by
  unfold copies State.through
  rw [h]

/-- What the two halves of the size come to. -/
theorem State.Inserting.written_iff (hs : s.Inserting) (hne : data ≠ []) {t : State}
    (ht : s.looped fresh data = t) :
    (∃ s', radareWriteData fresh s data = (s', 1) ∧ s.Inserted s' data) ↔
      t.file = s.file.take s.config.seek.toNat ++ copies s data ++
          s.file.drop s.config.seek.toNat ∧
        (t.Reopens s.config.seek data → UInt64.ofNat t.file.length =
          s.config.size + UInt64.ofNat (data.length * writeTimes s.eval.count)) ∧
        (¬t.Reopens s.config.seek data → t.config.size =
          s.config.size + UInt64.ofNat (data.length * writeTimes s.eval.count)) := by
  have hle := hs.seek_toNat_le
  have hsmall := hs.small
  obtain ⟨s', hrun, hfile, hyes, hno⟩ := radareWriteData_eq fresh hs.write hs.vaddr hne
    (by omega)
  rw [ht] at hfile hyes hno
  rw [hrun]
  simp only [Prod.mk.injEq, and_true, exists_eq_left']
  unfold State.Inserted
  rw [hfile, copies_eq hs.writeMask]
  by_cases hre : t.Reopens s.config.seek data
  · rw [hyes hre]
    exact and_congr_right fun _ =>
      ⟨fun h => ⟨fun _ => h, fun h' => absurd hre h'⟩, fun h => h.1 hre⟩
  · rw [hno hre]
    exact and_congr_right fun _ =>
      ⟨fun h => ⟨fun h' => absurd h' hre, fun _ => h⟩, fun h => h.2 hre⟩

theorem length_le_copies (s : State) (hne : data ≠ []) :
    data.length ≤ data.length * writeTimes s.eval.count ∧ 0 < data.length :=
  ⟨Nat.le_mul_of_pos_right _ (writeTimes_pos _), List.length_pos_iff.mpr hne⟩

/-- A size that has grown by less than the words there are is another. -/
theorem size_ne_add (hpos : 0 < n) (hsmall : n < 2 ^ 63) : off ≠ off + UInt64.ofNat n := by
  intro h
  have hnat := congrArg UInt64.toNat h
  rw [UInt64.toNat_add, UInt64.toNat_ofNat'] at hnat
  have := off.toNat_lt
  omega

/-- **At the end of the file** the copies are added, and the size follows
where it is looked at. -/
theorem State.Inserting.append_iff (fresh : ℕ → u8) (hs : s.Inserting) (hne : data ≠ [])
    (hmost : data.length ≤ readMost)
    (hroom : s.file.length + data.length * writeTimes s.eval.count < 2 ^ 63)
    (hend : s.config.seek = s.config.size) :
    (∃ s', radareWriteData fresh s data = (s', 1) ∧ s.Inserted s' data) ↔
      s.config.debug = false ∧ s.config.unksize = false := by
  obtain ⟨hlen, hpos⟩ := length_le_copies s hne
  have hseek : s.config.seek.toNat = s.file.length := by
    rw [hend, hs.size_toNat]
  obtain ⟨hfile, hsize, hdebug, hunk⟩ := looped_stay fresh data hs.write
    hs.vaddr hmost hseek.le (by omega) (fun h => h.2.2.2 hend.symm)
  generalize ht : s.looped fresh data = t at hfile hsize hdebug hunk
  rw [hs.written_iff hne ht]
  -- one copy already ends behind the old size, so the file is opened again
  have hbehind : s.config.seek + UInt64.ofNat data.length > t.config.size := by
    refine UInt64.lt_iff_toNat_lt.mpr ?_
    rw [hsize, ← hend, UInt64.toNat_add, UInt64.toNat_ofNat']
    omega
  have hre : t.Reopens s.config.seek data ↔
      s.config.debug = false ∧ s.config.unksize = false := by
    unfold State.Reopens
    rw [hdebug, hunk, Bool.not_eq_true', Bool.not_eq_true']
    exact ⟨fun h => ⟨h.1, h.2.1⟩, fun h => ⟨h.1, h.2, hbehind⟩⟩
  have hdrop : s.file.drop s.config.seek.toNat = [] := by
    rw [hseek, List.drop_length]
  have hdrop' : s.file.drop (s.config.seek.toNat + data.length * writeTimes s.eval.count) = [] :=
    List.drop_eq_nil_of_le (by omega)
  have hlength : UInt64.ofNat t.file.length =
      s.config.size + UInt64.ofNat (data.length * writeTimes s.eval.count) := by
    rw [hfile, hdrop', List.append_nil, List.length_append, length_copies, hs.size,
      UInt64.ofNat_add, List.length_take, hseek, Nat.min_self]
  rw [← hre]
  constructor
  · rintro ⟨-, -, hno⟩
    -- not opened again, the size is still the old one
    by_contra h
    exact size_ne_add (by omega) (by omega) (hsize.symm.trans (hno h))
  · intro h
    exact ⟨by rw [hfile, hdrop, hdrop'], fun _ => hlength, fun h' => absurd h h'⟩

/-- **Nothing is inserted before the end of the file** where the shift is
switched off: the copies go over what was there. -/
theorem State.Inserting.not_inserted (hs : s.Inserting) (hne : data ≠ [])
    (hmost : data.length ≤ readMost)
    (hroom : s.file.length + data.length * writeTimes s.eval.count < 2 ^ 63)
    (hend : s.config.seek ≠ s.config.size) (hblock : s.eval.insertblock = true) :
    ¬∃ s', radareWriteData fresh s data = (s', 1) ∧ s.Inserted s' data := by
  obtain ⟨hlen, hpos⟩ := length_le_copies s hne
  have hle := hs.seek_toNat_le
  obtain ⟨hfile, -⟩ := looped_stay fresh data hs.write hs.vaddr hmost hle (by omega)
    (fun h => Bool.noConfusion (hblock.symm.trans h.2.2.1))
  have hlt : s.config.seek.toNat ≠ s.file.length := fun h =>
    hend (UInt64.toNat_inj.mp (h.trans hs.size_toNat.symm))
  rw [hs.written_iff hne rfl]
  rintro ⟨hfile', -⟩
  -- the file is too short: what the copies went over is gone
  have hlength := congrArg List.length (hfile.symm.trans hfile')
  rw [List.length_append, List.length_append, List.length_append, List.length_append,
    List.length_drop, List.length_drop] at hlength
  omega

/-- **Before the end of the file** the rest is moved, and comes back behind
the copies as it was read, where one read and one write take it. -/
theorem State.Inserting.moved_iff (hs : s.Inserting) (hne : data ≠ [])
    (hmost : data.length ≤ readMost)
    (hroom : s.file.length + data.length * writeTimes s.eval.count < 2 ^ 63)
    (hshifts : s.Shifts) :
    (∃ s', radareWriteData fresh s data = (s', 1) ∧ s.Inserted s' data) ↔
      s.file.length - s.config.seek.toNat ≤ readMost ∧
        s.MapsAgree fresh s.config.seek.toNat := by
  obtain ⟨hlen, hpos⟩ := length_le_copies s hne
  have hle := hs.seek_toNat_le
  by_cases hmuch : readMost < s.file.length - s.config.seek.toNat
  · -- the file is too short by what was not moved
    have hshort := length_looped_shift fresh data hs.toSized hs.write hs.vaddr hmost hmuch
      (by omega) hshifts
    refine iff_of_false ?_ (fun h => by omega)
    rw [hs.written_iff hne rfl]
    rintro ⟨hfile, -⟩
    rw [hfile, List.length_append, List.length_append, List.length_take, List.length_drop,
      length_copies] at hshort
    omega
  have hrestLe : s.file.length - s.config.seek.toNat ≤ readMost := Nat.not_lt.mp hmuch
  rw [and_iff_right hrestLe]
  obtain ⟨hfile, hsize⟩ := looped_shift fresh data hs.toSized hs.write
    hs.vaddr hmost hrestLe (by omega) hshifts
  generalize ht : s.looped fresh data = t at hfile hsize
  have hsmall := hs.size_toNat
  -- the size has been counted up, so the file is not opened again
  have hstay : ¬t.Reopens s.config.seek data := by
    rintro ⟨-, -, hbehind⟩
    have hnat := UInt64.lt_iff_toNat_lt.mp hbehind
    rw [hsize, UInt64.toNat_add, UInt64.toNat_add, UInt64.toNat_ofNat', UInt64.toNat_ofNat']
      at hnat
    omega
  rw [hs.written_iff hne ht, hfile, List.append_cancel_left_eq]
  have hlength := length_rest_seekTo fresh s
  have hrest : (s.seekTo s.config.seek).rest fresh = s.file.drop s.config.seek.toNat ↔
      s.MapsAgree fresh s.config.seek.toNat := by
    have hread : ((s.seekTo s.config.seek).rest fresh).take readMost =
        (s.file.drop s.config.seek.toNat).take readMost ↔
          s.MapsAgree fresh s.config.seek.toNat := rest_eq_iff
    rwa [List.take_of_length_le (by omega),
      List.take_of_length_le (by rwa [List.length_drop])] at hread
  rw [← hrest]
  exact ⟨fun h => h.1, fun h => ⟨h, fun h' => absurd h' hstay, fun _ => hsize⟩⟩

/-- **When an inserting write inserts**, of bytes that one write takes. No
escape of the argument is copied over itself, and the bytes are no more than it
has, as a zero is set behind them in a copy of it. At the end of the file the size is looked at again; before it the shift
is switched on, the bytes to come can be counted by an `int`, one read takes
the rest of the file, and no map stands before it. -/
theorem insert_iff (getMath : List u8 → ut64) (fresh : ℕ → u8) (behind arg : List u8)
    (mode : WMode) (s : State) (hs : s.Inserting)
    (hdata : writeBytes getMath behind arg mode = some data) (hne : data ≠ [])
    (hmost : data.length ≤ readMost)
    (hroom : s.file.length + data.length * writeTimes s.eval.count < 2 ^ 63) :
    (∃ s', radareWrite getMath fresh behind s arg mode = some (s', 1) ∧ s.Inserted s' data) ↔
      decodesApart arg mode ∧ data.length ≤ arg.length ∧
        if s.config.seek = s.config.size then s.config.debug = false ∧ s.config.unksize = false
        else s.eval.insertblock = false ∧ data.length * writeTimes s.eval.count < 2 ^ 31 ∧
          s.file.length - s.config.seek.toNat ≤ readMost ∧
          s.MapsAgree fresh s.config.seek.toNat := by
  unfold radareWrite
  rw [hs.write, if_neg (by decide), hdata, Option.bind_some]
  rcases Bool.eq_false_or_eq_true (decodesApart arg mode) with hapart | hapart
  swap
  · -- an escape is copied over itself
    rw [hapart, if_pos (by decide)]
    exact iff_of_false (fun ⟨_, h, _⟩ => absurd h (by simp)) (fun h => Bool.noConfusion h.1)
  rw [hapart, if_neg (by decide), and_iff_right rfl]
  by_cases hbehind : arg.length < data.length
  · -- the zero is set behind the copy
    rw [if_pos hbehind]
    exact iff_of_false (fun ⟨_, h, _⟩ => absurd h (by simp)) (fun h => by omega)
  rw [if_neg hbehind, and_iff_right (Nat.not_lt.mp hbehind)]
  by_cases hend : s.config.seek = s.config.size
  · -- nothing is behind the seek, and the product is not asked for
    rw [if_pos hend, if_neg (fun h => h.1.2.2.2 hend.symm),
      ← hs.append_iff fresh hne hmost hroom hend]
    simp only [Option.some.injEq]
  rw [if_neg hend]
  rcases Bool.eq_false_or_eq_true s.eval.insertblock with hblock | hblock
  · rw [if_neg (fun h => Bool.noConfusion (hblock.symm.trans h.1.2.2.1))]
    simp only [Option.some.injEq]
    exact iff_of_false (hs.not_inserted hne hmost hroom hend hblock)
      (fun h => Bool.noConfusion (hblock.symm.trans h.1))
  have hshifts : s.Shifts := ⟨hs.insert, hs.size_ne, hblock, Ne.symm hend⟩
  by_cases hmany : data.length * writeTimes s.eval.count < 2 ^ 31
  · rw [if_neg (fun h => by omega)]
    simp only [Option.some.injEq]
    rw [hs.moved_iff hne hmost hroom hshifts]
    exact ⟨fun h => ⟨hblock, hmany, h⟩, fun h => h.2.2⟩
  · -- the product of the two `int`s overflows
    rw [if_pos ⟨hshifts, by omega⟩]
    exact iff_of_false (fun ⟨_, h, _⟩ => absurd h (by simp)) (fun h => hmany h.2.1)

/-- `x` set twice between `A` and `B`. -/
theorem insert_between :
    let s := { openFile [0x41, 0x42] 2 2 with eval := ⟨2, true, true, false, true⟩ }
    let s := { s with config := { s.config with seek := 1 } }
    ∃ s', radareWrite (fun _ => 0) (fun _ => 0) [] s [0x78] .string = some (s', 1) ∧
      s'.file = [0x41, 0x78, 0x78, 0x42] ∧ s'.config.size = 4 := by
  intro s₀ s
  have hs : s.Inserting := ⟨⟨rfl, by decide, by decide⟩, rfl, rfl, rfl, rfl⟩
  have hdata : writeBytes (fun _ => 0) [] [0x78] .string = some [0x78] := by decide
  obtain ⟨s', hrun, hfile, hsize⟩ := (insert_iff (fun _ => 0) (fun _ => 0) [] [0x78] .string s hs
    hdata (by decide) (by decide) (by decide)).mpr ⟨by decide, by decide, by
      rw [if_neg (by decide)]
      exact ⟨rfl, by decide, by decide, Or.inl rfl⟩⟩
  exact ⟨s', hrun, hfile, hsize⟩

/-- **More than an `int` counts.** Two bytes written `2 ^ 30` times before
the one byte of a file: the bytes to come overflow. -/
theorem insert_overflows :
    let s := { openFile [0x41] 2 1 with eval := ⟨2 ^ 30, true, true, false, true⟩ }
    s.Inserting ∧ writeBytes (fun _ => 0) [] [0x78, 0x79] .string = some [0x78, 0x79] ∧
      s.file.length + [0x78, 0x79].length * writeTimes s.eval.count < 2 ^ 63 ∧
      ¬∃ s', radareWrite (fun _ => 0) (fun _ => 0) [] s [0x78, 0x79] .string = some (s', 1) ∧
        s.Inserted s' [0x78, 0x79] := by
  intro s
  have hnone : radareWrite (fun _ => 0) (fun _ => 0) [] s [0x78, 0x79] .string = none := by
    have hdata : writeBytes (fun _ => 0) [] [0x78, 0x79] .string = some [0x78, 0x79] := by decide
    have hshifts : s.Shifts := ⟨rfl, by decide, rfl, by decide⟩
    have hmany : 2 ^ 31 ≤ [(0x78 : u8), 0x79].length * writeTimes s.eval.count := by decide
    unfold radareWrite
    rw [if_neg (by decide), hdata, Option.bind_some, if_neg (by decide), if_neg (by decide),
      if_pos ⟨hshifts, hmany⟩]
  refine ⟨⟨⟨rfl, by decide, by decide⟩, rfl, rfl, rfl, rfl⟩, by decide, by decide, ?_⟩
  rintro ⟨s', hrun, -⟩
  exact absurd (hnone.symm.trans hrun) (by simp)

end Radare
