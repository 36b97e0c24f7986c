import Radare.Rio.Frame
/-!
# Reads that a map answers

`io_read` asks the maps first: `io_map_read_at` seeks the descriptor of the
first map with the offset and reads from it, no further than the end of the
map. Whatever this gives, unless it is 0, `io_read` returns the count it was
asked for. Here the bytes of the buffer are told by where they come from, and
a descriptor is one of the system: its position stays where a seek is
refused, and there are files that can be opened and not be read.

`ioRead_complete_iff` is when the count returned is the truth.
-/

namespace Radare

/-- A descriptor of the system, of a file that `read` takes or refuses. -/
structure Descriptor where
  data : List u8
  readable : Bool := true
  pos : ℕ := 0
  /-- `off_t` is signed. -/
  pos_lt : pos < 2 ^ 63 := by decide

/-- `lseek` with `SEEK_SET`, which refuses a negative offset. -/
def Descriptor.seek (fd : Descriptor) (offset : ut64) : Descriptor :=
  if h : offset.toNat < 2 ^ 63 then { fd with pos := offset.toNat, pos_lt := h } else fd

/-- The value that `read` returns. -/
def Descriptor.readRet (fd : Descriptor) (len : ℕ) : ℤ :=
  if fd.readable then (min (min len readMost) (fd.data.length - fd.pos) : ℕ) else -1

/-- The positions in the file of the bytes that `read` stores. -/
def Descriptor.readAt (fd : Descriptor) (len : ℕ) : List ℕ :=
  (List.range (fd.readRet len).toNat).map (fd.pos + ·)

/-- `struct io_maps_t`, with its descriptor. -/
structure FdMap where
  from_ : ut64
  to_ : ut64
  delta : ut64
  /-- The map has a file name. -/
  named : Bool
  fd : Descriptor

/-- Where a byte of the buffer comes from: a position in the file of a map,
or in the file that is open. -/
inductive Source
  | map (im : FdMap) (p : ℕ)
  | file (p : ℕ)

/-- The first map with an address. -/
def fdMapAt (maps : List FdMap) (off : ut64) : Option FdMap :=
  maps.find? fun im => im.named ∧ off ≥ im.from_ ∧ off < im.to_

/-- The descriptor of a map, at an address. -/
def FdMap.at_ (im : FdMap) (off : ut64) : Descriptor := im.fd.seek (off - im.from_ + im.delta)

/-- The length that is read from a map. -/
def FdMap.len (im : FdMap) (off len : ut64) : ut64 :=
  if off + len > im.to_ then im.to_ - off else len

/-- `io_map_read_at`: the value returned, and the bytes stored. -/
def fdMapReadAt (maps : List FdMap) (off len : ut64) : ℤ × List Source :=
  match fdMapAt maps off with
  | none => (0, [])
  | some im =>
    let len := (im.len off len).toNat
    ((im.at_ off).readRet len, ((im.at_ off).readAt len).map (.map im))

/-- `io_read` of the file that is open. -/
def fdRead (maps : List FdMap) (file : Descriptor) (off count : ut64) : ℤ × List Source :=
  let (ret, stored) := fdMapReadAt maps off count
  if ret ≠ 0 then (count.toNat, stored)
  else (file.readRet count.toNat, (file.readAt count.toNat).map .file)

/-- A map covers an address. -/
def FdMap.Covers (im : FdMap) (addr : ℕ) : Prop := im.from_.toNat ≤ addr ∧ addr < im.to_.toNat

/-- A byte of the buffer is from where it should be: the file that is open,
or a map that covers its address, and there the byte of this address. -/
def Source.Proper (maps : List FdMap) (file : Descriptor) (off : ut64) (k : ℕ) : Source → Prop
  | .map im p =>
    im ∈ maps ∧ im.named = true ∧ im.Covers (off.toNat + k) ∧
      UInt64.ofNat p = off + UInt64.ofNat k - im.from_ + im.delta ∧ p < im.fd.data.length
  | .file p => p < file.data.length

/-- A read that returns its count has stored every byte. -/
def ReadWhole (maps : List FdMap) (file : Descriptor) (off count : ut64) : Prop :=
  (fdRead maps file off count).1 = count.toNat → (fdMapAt maps off).isSome →
    ∀ k < count.toNat, ∃ src, (fdRead maps file off count).2[k]? = some src ∧
      src.Proper maps file off k

variable {maps : List FdMap} {file fd : Descriptor} {im : FdMap} {off count : ut64} {k len : ℕ}

/-! ## The bytes of one descriptor -/

/-- The `k`-th byte stored is from the `k`-th position on. -/
theorem getElem?_readAt : (fd.readAt len)[k]? =
    if k < (fd.readRet len).toNat then some (fd.pos + k) else none := by
  unfold Descriptor.readAt
  rw [List.getElem?_map]
  split_ifs with hk
  · rw [List.getElem?_range hk]
    rfl
  · rw [List.getElem?_eq_none (by rw [List.length_range]; omega)]
    rfl

theorem readRet_of_readable (h : fd.readable = true) :
    fd.readRet len = (min (min len readMost) (fd.data.length - fd.pos) : ℕ) := if_pos h

/-- What is stored is in the file. -/
theorem lt_length_of_readRet (h : k < (fd.readRet len).toNat) : fd.pos + k < fd.data.length := by
  unfold Descriptor.readRet at h
  split_ifs at h <;> omega

@[simp] theorem seek_data (offset : ut64) : (fd.seek offset).data = fd.data := by
  unfold Descriptor.seek
  split_ifs <;> rfl

@[simp] theorem seek_readable (offset : ut64) : (fd.seek offset).readable = fd.readable := by
  unfold Descriptor.seek
  split_ifs <;> rfl

/-- **A seek gets to its offset** if this is not negative. -/
theorem seek_pos_iff (offset : ut64) :
    UInt64.ofNat (fd.seek offset).pos = offset ↔ offset.toNat < 2 ^ 63 := by
  unfold Descriptor.seek
  split_ifs with h
  · exact iff_of_true (UInt64.ofNat_toNat) h
  · refine iff_of_false (fun heq => ?_) h
    have hpos := fd.pos_lt
    have hval := congrArg UInt64.toNat heq
    rw [UInt64.toNat_ofNat_of_lt' (by rw [UInt64.size]; omega)] at hval
    omega

/-! ## Reads that give all -/

/-- The first map with an address covers it. -/
theorem of_fdMapAt (h : fdMapAt maps off = some im) :
    im ∈ maps ∧ im.named = true ∧ im.Covers off.toNat := by
  have hprop := List.find?_some h
  simp only [decide_eq_true_eq] at hprop
  exact ⟨List.mem_of_find?_eq_some h, hprop.1, UInt64.le_iff_toNat_le.mp hprop.2.1,
    UInt64.lt_iff_toNat_lt.mp hprop.2.2⟩

/-- A read inside of a map is not cut. -/
theorem len_eq_of_le (h : off.toNat + count.toNat ≤ im.to_.toNat) : im.len off count = count := by
  have hto := im.to_.toNat_lt
  unfold FdMap.len
  rw [if_neg]
  rw [gt_iff_lt, UInt64.lt_iff_toNat_lt, UInt64.toNat_add]
  omega

/-- A map that covers an offset gives something to read there. -/
theorem len_pos (h : im.Covers off.toNat) (hcount : 0 < count.toNat) :
    0 < (im.len off count).toNat := by
  unfold FdMap.len
  split_ifs
  · rw [UInt64.toNat_sub_of_le _ _ (UInt64.le_iff_toNat_le.mpr h.2.le)]
    exact Nat.sub_pos_of_lt h.2
  · exact hcount

theorem len_le (h : im.Covers off.toNat) : (im.len off count).toNat ≤ count.toNat := by
  obtain ⟨-, hto⟩ := h
  unfold FdMap.len
  split_ifs with hover
  · rw [gt_iff_lt, UInt64.lt_iff_toNat_lt, UInt64.toNat_add] at hover
    rw [UInt64.toNat_sub_of_le _ _ (UInt64.le_iff_toNat_le.mpr hto.le)]
    omega
  · exact le_rfl

/-- The map gives its bytes, all from where they should be. -/
def FdMap.Gives (im : FdMap) (off count : ut64) : Prop :=
  count.toNat ≤ readMost ∧ off.toNat + count.toNat ≤ im.to_.toNat ∧
    (im.at_ off).pos + count.toNat ≤ im.fd.data.length ∧
    (off - im.from_ + im.delta).toNat < 2 ^ 63

/-- A byte is from the place of its address if the seek was not refused. -/
theorem place_iff : UInt64.ofNat ((im.at_ off).pos + k) =
      off + UInt64.ofNat k - im.from_ + im.delta ↔
    (off - im.from_ + im.delta).toNat < 2 ^ 63 := by
  have hseek : UInt64.ofNat (im.fd.seek (off - im.from_ + im.delta)).pos = _ ↔ _ :=
    seek_pos_iff _
  rw [← hseek, UInt64.ofNat_add]
  unfold FdMap.at_
  constructor
  · intro hk
    grind
  · intro hk
    rw [hk]
    grind

/-- A file that cannot be read gives an error, and no bytes. -/
theorem read_of_unreadable (len : ℕ) (hreadable : fd.readable = false) :
    fd.readRet len = -1 ∧ fd.readAt len = [] := by
  have hret : fd.readRet len = -1 := by
    unfold Descriptor.readRet
    rw [hreadable, if_neg Bool.false_ne_true]
  unfold Descriptor.readAt
  rw [hret]
  exact ⟨rfl, rfl⟩

/-- **All bytes from a map**: exactly if the map, its file and one `read`
are long enough, and the seek was not refused. -/
theorem readAt_proper_iff (h : fdMapAt maps off = some im) (hcount : 0 < count.toNat)
    (hreadable : im.fd.readable = true) :
    (∀ k < count.toNat, ∃ src,
        (((im.at_ off).readAt (im.len off count).toNat).map (Source.map im))[k]? = some src ∧
          src.Proper maps file off k) ↔ im.Gives off count := by
  obtain ⟨hmem, hnamed, hcovers⟩ := of_fdMapAt h
  have hreadable' : (im.at_ off).readable = true := (seek_readable _).trans hreadable
  have hdata : (im.at_ off).data = im.fd.data := seek_data _
  have hret : (im.at_ off).readRet (im.len off count).toNat = _ := readRet_of_readable hreadable'
  rw [hdata] at hret
  constructor
  · intro hall
    obtain ⟨src, hsrc, hproper⟩ := hall (count.toNat - 1) (by omega)
    rw [List.getElem?_map, getElem?_readAt] at hsrc
    split_ifs at hsrc with hlast
    · obtain rfl := Option.some.inj hsrc
      obtain ⟨-, -, hto, hpos, -⟩ := hproper
      rw [hret] at hlast
      refine ⟨by omega, ?_, by omega, place_iff.mp hpos⟩
      have := hto.2
      omega
    · exact absurd hsrc (by simp)
  · rintro ⟨hmost, hto, hlen, hseek⟩ k hk
    rw [len_eq_of_le hto] at hret ⊢
    have hin : k < ((im.at_ off).readRet count.toNat).toNat := by
      rw [hret]
      omega
    refine ⟨.map im ((im.at_ off).pos + k), ?_, hmem, hnamed, ⟨?_, by omega⟩,
      place_iff.mpr hseek, by omega⟩
    · rw [List.getElem?_map, getElem?_readAt, if_pos hin]
      rfl
    · exact hcovers.1.trans (Nat.le_add_right _ _)

/-- **When the count returned is the truth**: for all maps, offsets and
counts, a read that returns its count although a map has the offset has
stored every byte from where it should be, if and only if there is nothing
to read, no map has the offset, or the file of the first one that has can be
read, and either has nothing there or has all of it: the bytes are within the
map and its file, and are not more than one `read` gives. -/
theorem ioRead_complete_iff (maps : List FdMap) (file : Descriptor) (off count : ut64) :
    ReadWhole maps file off count ↔
      count = 0 ∨ ∀ im, fdMapAt maps off = some im → im.fd.readable = true ∧
        (im.fd.data.length ≤ (im.at_ off).pos ∨ im.Gives off count) := by
  have hzero : count = 0 ↔ count.toNat = 0 := by
    rw [← UInt64.toNat_inj]
    rfl
  rcases Nat.eq_zero_or_pos count.toNat with hnone | hcount
  · refine iff_of_true (fun _ _ k hk => ?_) (Or.inl (hzero.mpr hnone))
    omega
  rw [or_iff_right (by rw [hzero]; omega)]
  unfold ReadWhole fdRead fdMapReadAt
  cases hmap : fdMapAt maps off with
  | none => exact iff_of_true (fun _ h => absurd h (by decide)) fun _ h => by cases h
  | some im =>
    simp only [Option.isSome_some, forall_const, Option.some.injEq, forall_eq']
    have hlen := len_pos (of_fdMapAt hmap).2.2 hcount
    cases hreadable : im.fd.readable with
    | false =>
      -- the error counts as an answer
      have hreadable' : (im.at_ off).readable = false := (seek_readable _).trans hreadable
      obtain ⟨hret, hnothing⟩ := read_of_unreadable (im.len off count).toNat hreadable'
      rw [hret, hnothing, if_pos (by decide)]
      refine iff_of_false (fun h => ?_) fun h => Bool.false_ne_true h.1
      obtain ⟨src, hsrc, -⟩ := h rfl 0 hcount
      exact absurd hsrc (by simp)
    | true =>
      rw [eq_self_iff_true, true_and]
      have hret : (im.at_ off).readRet (im.len off count).toNat = _ :=
        readRet_of_readable ((seek_readable _).trans hreadable)
      have hdata : (im.at_ off).data = im.fd.data := seek_data _
      rw [hdata] at hret
      have hmost : 0 < readMost := by decide
      by_cases hend : im.fd.data.length ≤ (im.at_ off).pos
      · -- the file of the map has ended, and the file that is open is read
        rw [if_neg (by rw [hret]; omega)]
        refine iff_of_true (fun hall k hk => ?_) (Or.inl hend)
        replace hall : file.readRet count.toNat = count.toNat := hall
        have hin : k < (file.readRet count.toNat).toNat := by
          rw [hall]
          exact hk
        refine ⟨.file (file.pos + k), ?_, lt_length_of_readRet hin⟩
        rw [List.getElem?_map, getElem?_readAt, if_pos hin]
        rfl
      · rw [if_pos (by rw [hret]; omega), or_iff_right hend, forall_prop_of_true rfl]
        exact readAt_proper_iff hmap hcount hreadable

/-- **Four bytes pass for sixteen**: a map of a file that is shorter. -/
theorem short_map_passes :
    let im : FdMap := ⟨0x100, 0x110, 0, true, { data := [1, 2, 3, 4] }⟩
    (fdRead [im] { data := [] } 0x100 16).1 = 16 ∧
      (fdRead [im] { data := [] } 0x100 16).2.length = 4 ∧
      ¬ReadWhole [im] { data := [] } 0x100 16 := by
  intro im
  have hlength : (fdRead [im] { data := [] } 0x100 16).2.length = 4 := by decide
  refine ⟨by decide, hlength, fun h => ?_⟩
  obtain ⟨src, hsrc, -⟩ := h (by decide) (by decide) 15 (by decide)
  rw [List.getElem?_eq_none (by rw [hlength]; decide)] at hsrc
  exact absurd hsrc (by simp)

/-! ## The maps of the state -/

/-- A map without what its descriptor does. -/
def FdMap.toIoMap (im : FdMap) : IoMap := ⟨im.from_, im.to_, im.delta, im.fd.data, im.named⟩

/-- The byte that came. -/
def Source.byte (file : Descriptor) : Source → Option u8
  | .map im p => im.fd.data[p]?
  | .file p => file.data[p]?

/-- The bytes at positions that follow each other. -/
theorem filterMap_range (data : List u8) (p n : ℕ) :
    (List.range (min n (data.length - p))).filterMap (fun k => data[p + k]?) =
      (data.drop p).take n := by
  refine List.ext_getElem? fun k => ?_
  have hsome : ∀ j ∈ List.range (min n (data.length - p)),
      data[p + j]? = some ((data.drop p).getD j 0) := by
    intro j hj
    have hlt := List.mem_range.mp hj
    rw [List.getD_eq_getElem?_getD, List.getElem?_drop, List.getElem?_eq_getElem (by omega)]
    rfl
  rw [List.filterMap_congr hsome, List.filterMap_eq_map', List.getElem?_map, List.getElem?_take]
  by_cases hk : k < min n (data.length - p)
  · rw [List.getElem?_range hk, if_pos (by omega), Option.map_some, List.getD_eq_getElem?_getD,
      List.getElem?_drop, List.getElem?_eq_getElem (by omega)]
    rfl
  · rw [List.getElem?_eq_none (by rw [List.length_range]; omega), Option.map_none]
    split_ifs
    · rw [List.getElem?_drop, List.getElem?_eq_none (by omega)]
    · rfl

/-- The bytes that a `read` stores. -/
theorem bytes_readAt (len : ℕ) (h : fd.readable = true) :
    (fd.readAt len).filterMap (fun p => fd.data[p]?) =
      (fd.data.drop fd.pos).take (min len readMost) := by
  unfold Descriptor.readAt
  rw [readRet_of_readable h, Int.toNat_natCast, List.filterMap_map]
  exact filterMap_range fd.data fd.pos (min len readMost)

/-- And how many they are. -/
theorem readRet_eq_length (len : ℕ) (h : fd.readable = true) :
    fd.readRet len = ((fd.data.drop fd.pos).take (min len readMost)).length := by
  rw [readRet_of_readable h, List.length_take, List.length_drop]

/-- **The bytes of a map** are those of the state's, where its file can be
read and the seek is not refused. -/
theorem ioMapReadAt_bytes (file : Descriptor) (count : ut64)
    (h : ∀ im, fdMapAt maps off = some im → im.fd.readable = true ∧
      (off - im.from_ + im.delta).toNat < 2 ^ 63) :
    (fdMapReadAt maps off count).2.filterMap (Source.byte file) =
        ioMapReadAt (maps.map FdMap.toIoMap) off count ∧
      (fdMapReadAt maps off count).1 = (ioMapReadAt (maps.map FdMap.toIoMap) off count).length := by
  have hfind : (maps.map FdMap.toIoMap).find? (fun im => im.named ∧ off ≥ im.from_ ∧ off < im.to_) =
      (fdMapAt maps off).map FdMap.toIoMap := List.find?_map
  unfold fdMapReadAt ioMapReadAt
  rw [hfind]
  cases hmap : fdMapAt maps off with
  | none => exact ⟨rfl, rfl⟩
  | some im =>
    obtain ⟨hreadable, hseek⟩ := h im hmap
    have hreadable' : (im.at_ off).readable = true := (seek_readable _).trans hreadable
    have hpos : (im.at_ off).pos = (off - im.from_ + im.delta).toNat := by
      unfold FdMap.at_ Descriptor.seek
      rw [dif_pos hseek]
    have hdata : (im.at_ off).data = im.fd.data := seek_data _
    have hbytes := bytes_readAt (im.len off count).toNat hreadable'
    have hret := readRet_eq_length (im.len off count).toNat hreadable'
    rw [hdata, hpos] at hbytes hret
    rw [Option.map_some, List.filterMap_map]
    exact ⟨hbytes, hret⟩

/-- **`io_read` of the state** is that of the descriptors, in the value
returned and the bytes stored. -/
theorem ioRead_bytes (s : State) (file : Descriptor) (hmaps : s.ioMaps = maps.map FdMap.toIoMap)
    (hfile : file.data = s.file ∧ file.pos = s.pos ∧ file.readable = true)
    (h : ∀ im, fdMapAt maps s.config.seek = some im → im.fd.readable = true ∧
      (s.config.seek - im.from_ + im.delta).toNat < 2 ^ 63) :
    (ioRead s count.toNat).2 = ((fdRead maps file s.config.seek count).1.toNat,
      (fdRead maps file s.config.seek count).2.filterMap (Source.byte file)) := by
  obtain ⟨hbytes, hret⟩ := ioMapReadAt_bytes file count h
  obtain ⟨hdata, hpos, hreadable⟩ := hfile
  unfold ioRead fdRead
  dsimp only
  rw [hmaps, UInt64.ofNat_toNat, hret]
  by_cases hnil : ioMapReadAt (maps.map FdMap.toIoMap) s.config.seek count = []
  · have hread := bytes_readAt count.toNat hreadable
    have hlength := readRet_eq_length count.toNat hreadable
    rw [hdata, hpos] at hread hlength
    rw [if_neg (not_not_intro hnil), hnil, if_neg (by simp), List.filterMap_map, hlength]
    refine Prod.ext rfl ?_
    rw [← hread, ← hdata]
    rfl
  · have hlength := List.length_pos_iff.mpr hnil
    rw [if_pos hnil, if_pos (by omega), hbytes]
    rfl

end Radare
