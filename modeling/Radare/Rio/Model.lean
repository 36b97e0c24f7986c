import Radare.Model.Bytes
import Radare.Rio.Decode
/-!
# Reading, seeking and writing

`io.c`, `rio.c`, `section.c` and the write half of `undo.c`, over one open
file. A seek sets `config.seek` and moves the file's own position; a read
takes from the position, unless a mapped file has `config.seek`; a write
goes to the position and moves it on. So the two can part, and between a
seek and a write they do: `undo_write_new` reads where it records, and
seeks back.

The plugin behind the descriptor is the plain one (`posix.c`): `read`
stops at the end of the file, `write` grows it, and `lseek` refuses an
offset beyond `2 ^ 63`, leaving the position. Messages, and what other
parts keep in `config`, are left out.
-/

namespace Radare

/-- `struct io_maps_t`: another file's bytes at an address. -/
structure IoMap where
  from_ : ut64
  to_ : ut64
  delta : ut64
  data : List u8
  /-- The map has a file name. -/
  named : Bool
deriving DecidableEq

/-- `struct section_t`. -/
structure SectionT where
  from_ : ut64
  to_ : ut64
  vaddr : ut64
  paddr : ut64
  rwx : ℕ
  comment : List u8
deriving DecidableEq

/-- `SECTION_W`. -/
def sectionW : ℕ := 2

/-- `struct undow_t`: a write, with what was there before. -/
structure UndoW where
  set : Bool
  off : ut64
  /-- The old data. -/
  o : List u8
  /-- The new data. -/
  n : List u8
deriving DecidableEq

/-- The part of `struct config_t` that is read here. -/
structure Config where
  seek : ut64
  size : ut64
  limit : ut64
  vaddr : ut64
  paddr : ut64
  /-- The block; its length is `block_size`. -/
  block : List u8
  debug : Bool
  unksize : Bool
  verbose : Bool
  interrupted : Bool
deriving DecidableEq

/-- The variables `config_get` and `config_get_i` are asked for. -/
structure Eval where
  /-- `cfg.count`. -/
  count : ut64
  /-- `file.write`. -/
  write : Bool
  /-- `file.insert`. -/
  insert : Bool
  /-- `file.insertblock`. -/
  insertblock : Bool
  /-- `file.undowrite`. -/
  undowrite : Bool
deriving DecidableEq

/-- The program, with its file. -/
structure State where
  file : List u8
  /-- The position of the descriptor. -/
  pos : ℕ
  ioMaps : List IoMap
  sections : List SectionT
  lastAlign : ut64
  writeMask : Option (List u8)
  /-- `undo_w_list`, the oldest write first. -/
  undoWList : List UndoW
  undoWLock : Bool
  config : Config
  eval : Eval
deriving DecidableEq

/-- A file just opened for writing, with a block size and `cfg.count`. -/
def openFile (file : List u8) (blockSize : ℕ) (count : ut64) : State where
  file := file
  pos := 0
  ioMaps := []
  sections := []
  lastAlign := 0
  writeMask := none
  undoWList := []
  undoWLock := false
  config :=
    { seek := 0, size := UInt64.ofNat file.length, limit := UInt64.ofNat file.length, vaddr := 0,
      paddr := 0, block := List.replicate blockSize 0, debug := false, unksize := false,
      verbose := false, interrupted := false }
  eval := ⟨count, true, false, false, true⟩

/-- A buffer with bytes read into its front. -/
def overlay (buf data : List u8) : List u8 := data ++ buf.drop data.length

/-! ## `io.c` -/

/-- `io_map_read_at`: the bytes the first map with the address gives. -/
def ioMapReadAt (maps : List IoMap) (off len : ut64) : List u8 :=
  match maps.find? fun im => im.named ∧ off ≥ im.from_ ∧ off < im.to_ with
  | none => []
  | some im =>
    let len := if off + len > im.to_ then im.to_ - off else len
    (im.data.drop (off - im.from_ + im.delta).toNat).take (min len.toNat readMost)

/-- `io_read`: the value returned and the bytes stored. A map that gives
any byte gives them all. -/
def ioRead (s : State) (count : ℕ) : State × ℕ × List u8 :=
  let data := ioMapReadAt s.ioMaps s.config.seek (UInt64.ofNat count)
  if data ≠ [] then (s, count, data)
  else
    let data := (s.file.drop s.pos).take (min count readMost)
    ({ s with pos := s.pos + data.length }, data.length, data)

/-- `io_lseek` with `SEEK_SET`. -/
def ioLseek (s : State) (offset : ut64) : State :=
  if offset.toNat < 2 ^ 63 then { s with pos := offset.toNat } else s

/-- A file with bytes written at a position, grown by zeros up to it. -/
def fileWrite (file : List u8) (pos : ℕ) (data : List u8) : List u8 :=
  if data = [] then file
  else (file ++ List.replicate (pos - file.length) 0).take pos ++ data ++
    file.drop (pos + data.length)

/-- `io_write`: the value returned. -/
def ioWrite (s : State) (data : List u8) : State × ℤ :=
  if s.eval.write then
    let data := data.take readMost
    ({ s with file := fileWrite s.file s.pos data, pos := s.pos + data.length }, data.length)
  else (s, -1)

/-! ## `section.c` -/

/-- `section_get`: the first section of the list with the address. -/
def sectionGet (sections : List SectionT) (addr : ut64) : Option SectionT :=
  sections.find? fun sec => addr ≥ sec.from_ ∧ addr ≤ sec.to_

/-- `section_align`, which goes through the list from its end and keeps
the last address computed without a section. -/
def sectionAlign (s : State) (addr vaddr paddr : ut64) : State × ut64 :=
  if addr = s.lastAlign then (s, s.lastAlign)
  else
    match sectionGet s.sections.reverse addr with
    | some sec => (s, sec.paddr + addr - sec.from_)
    | none =>
      let lastAlign := addr - vaddr + paddr
      ({ s with lastAlign := lastAlign }, lastAlign)

/-! ## `rio.c` -/

/-- Where a seek counts from. -/
inductive Whence where
  | set
  | cur
  | end_
deriving DecidableEq

/-- `radare_seek`: the value returned. -/
def radareSeek (s : State) (offset : ut64) (whence : Whence) : State × ut64 :=
  if offset = -1 then (s, -1)
  else if whence = .end_ ∧ s.config.size = -1 then (s, -1)
  else
    let s := if whence = .end_ then { s with config.seek := s.config.size } else s
    let bip : Bool := s.config.vaddr ≠ 0
    let preoffset := if bip ∧ offset < s.config.vaddr then offset + s.config.vaddr else offset
    let (s, offset) := if bip then sectionAlign s preoffset s.config.vaddr s.config.paddr
      else (s, offset)
    let preoffset := if bip then preoffset - s.config.vaddr else preoffset
    let seek := if whence = .set then offset else s.config.seek + offset
    let s := ioLseek s seek
    let seek := if bip then
        if whence = .set then preoffset else s.config.seek - offset + preoffset
      else seek
    ({ s with config.seek := seek }, seek)

/-- `radare_read_at`: the buffer after the read. -/
def radareReadAt (s : State) (offset : ut64) (buf : List u8) : State × List u8 :=
  let cur := s.config.seek
  let s := (radareSeek s offset .set).1
  let (s, _, data) := ioRead s buf.length
  ((radareSeek s cur .set).1, overlay buf data)

/-- `radare_read`: the value returned. -/
def radareRead (s : State) (next : Bool) : State × ℕ :=
  let blockSize := s.config.block.length
  if s.config.seek = -1 then ({ s with config.seek := 0 }, blockSize)
  else
    let s := (radareSeek s (if next then s.config.seek + UInt64.ofNat blockSize
      else s.config.seek) .set).1
    let (s, ret, data) := ioRead s blockSize
    ({ s with config.block := overlay (List.replicate blockSize 0xff) data }, ret)

/-- The bytes a write mask lets through. -/
def masked (mask data : List u8) : List u8 :=
  data.mapIdx fun i c => c &&& mask.getD (i % mask.length) 0

/-- `undo_write_new`. -/
def undoWriteNew (fresh : ℕ → u8) (s : State) (off : ut64) (data : List u8) : State :=
  if !s.eval.undowrite then s
  else if s.undoWLock then s
  else if s.undoWList.any fun uw => off = uw.off ∧ data = uw.n then s
  else
    let (s, o) := radareReadAt s off (malloc fresh data.length)
    { s with undoWList := s.undoWList ++ [⟨true, off, o, data⟩] }

/-- `radare_write_at`: the value returned. In a section with `SECTION_W`
it stops behind its first seek. -/
def radareWriteAt (fresh : ℕ → u8) (s : State) (offset : ut64) (data : List u8) : State × ℤ :=
  let cur := s.config.seek
  let s := (radareSeek s offset .set).1
  if (sectionGet s.sections offset).any fun sec => sec.rwx &&& sectionW ≠ 0 then (s, -1)
  else
    let s := if s.eval.undowrite then undoWriteNew fresh s offset data else s
    let (s, data) := match s.writeMask with
      | none => (s, data)
      | some mask =>
        ((radareReadAt s offset (malloc fresh data.length)).1, masked mask data)
    let (s, ret) := ioWrite s data
    ((radareSeek s cur .set).1, ret)

/-- `cfg.count` as `radare_write` and `radare_poke` read it: an `int`, and
1 where it is not positive. -/
def writeTimes (count : ut64) : ℕ :=
  let low := count.toNat % 2 ^ 32
  if low = 0 ∨ 2 ^ 31 ≤ low then 1 else low

/-- The shift of `file.insert`: what is behind the seek moves up by the
bytes to come. -/
def insertShift (fresh : ℕ → u8) (s : State) (seek : ut64) (bytes : ℕ) : State :=
  if s.config.size = -1 then s
  else if s.eval.insertblock then s
  else
    let rest := (s.config.size - seek).toNat
    if rest = 0 then s
    else
      let (s, _, data) := ioRead s rest
      let s := ioLseek s (seek + UInt64.ofNat bytes)
      let s := { s with config.size := s.config.size + UInt64.ofNat bytes }
      let s := (ioWrite s (overlay (malloc fresh rest) data)).1
      ioLseek s seek

/-- The loop of `radare_write`. Every turn records its bytes at the first
seek, and writes them where the position is. -/
def writeLoop (fresh : ℕ → u8) (seek : ut64) (data : List u8) : ℕ → State → State
  | 0, s => s
  | times + 1, s =>
    let (s, data') := match s.writeMask with
      | none => (s, data)
      | some mask =>
        ((radareReadAt s s.config.seek (malloc fresh data.length)).1, masked mask data)
    let s := undoWriteNew fresh s seek data'
    let s := (ioWrite s data').1
    let s := { s with config.seek := s.config.seek + UInt64.ofNat data.length }
    writeLoop fresh seek data times s

/-- What `radare_open` does to the file already open: its size and the
limit are taken anew. -/
def radareOpen (s : State) : State :=
  let size := UInt64.ofNat s.file.length
  ioLseek { s with config.size := size, config.limit := if s.config.unksize then 0 else size }
    s.config.seek

/-- The shift of `file.insert` has bytes to move. -/
def State.Shifts (s : State) : Prop :=
  s.eval.insert = true ∧ s.config.size ≠ -1 ∧ s.eval.insertblock = false ∧
    s.config.size ≠ s.config.seek

instance (s : State) : Decidable s.Shifts := inferInstanceAs (Decidable (_ ∧ _))

/-- `radare_write` of bytes made from its argument: the value returned. -/
def radareWriteData (fresh : ℕ → u8) (s : State) (data : List u8) : State × ℤ :=
  let seek := s.config.seek
  let times := writeTimes s.eval.count
  if !s.eval.write then (s, 0)
  else if data = [] then (s, 0)
  else
    let s := (radareSeek s seek .set).1
    let s := if s.eval.insert then insertShift fresh s seek (data.length * times) else s
    let s := writeLoop fresh seek data times s
    let s := if !s.config.debug ∧ !s.config.unksize ∧
        seek + UInt64.ofNat data.length > s.config.size then radareOpen s else s
    let s := (radareSeek s seek .set).1
    ((radareRead s false).1, 1)

/-- `radare_write`; no result where the decoding runs out of its memory or
copies an escape over itself, the store `arg[len] = 0` is not into the copy of
the argument, or the bytes to insert, a product of `int`s, are too many for
one. -/
def radareWrite (getMath : List u8 → ut64) (fresh : ℕ → u8) (behind : List u8) (s : State)
    (arg : List u8) (mode : WMode) : Option (State × ℤ) :=
  if !s.eval.write then some (s, 0)
  else (writeBytes getMath behind arg mode).bind fun data =>
    if !decodesApart arg mode then none
    else if arg.length < data.length then none
    else if s.Shifts ∧ 2 ^ 31 ≤ data.length * writeTimes s.eval.count then none
    else some (radareWriteData fresh s data)

/-- The loop of `radare_poke`. -/
def pokeLoop (fresh : ℕ → u8) (data : List u8) : ℕ → State → State
  | 0, s => s
  | times + 1, s =>
    let s := undoWriteNew fresh s s.config.seek data
    pokeLoop fresh data times (ioWrite s data).1

/-- The block `radare_poke` reads from the file named. Like every
`io_read` it asks the maps first, for the seek. -/
def pokeData (fresh : ℕ → u8) (s : State) (content : List u8) : List u8 :=
  let blockSize := s.config.block.length
  let data := ioMapReadAt s.ioMaps s.config.seek (UInt64.ofNat blockSize)
  if data ≠ [] then overlay (malloc fresh blockSize) data
  else content.take (min blockSize readMost)

/-- The size and the limit `radare_poke` sets where it has grown the
file. -/
def pokeGrow (s : State) (ret : ut64) (times : ℕ) : State :=
  let last := s.config.seek + ret * UInt64.ofNat times
  if last > s.config.size then
    let limit := if s.config.limit = s.config.size then last else s.config.limit
    { s with config := { s.config with limit := limit, size := last } }
  else s

/-- The size once more, behind the seek of `radare_poke`: not below the
bytes poked. -/
def pokeFit (s : State) (ret : ut64) : State :=
  if s.config.size ≠ -1 ∧ ret > s.config.size then
    { s with config := { s.config with size := ret } }
  else s

/-- `radare_poke`, given the bytes of the file named, where it can be
opened, and the answer to its question, which it asks when verbose. -/
def radarePoke (fresh : ℕ → u8) (s : State) (content : Option (List u8)) (yes : Bool) : State :=
  let times := writeTimes s.eval.count
  if !s.eval.write then s
  else
    match content with
    | none => s
    | some content =>
      let data := pokeData fresh s content
      if !s.config.verbose ∨ yes then
        let ret := UInt64.ofNat data.length
        let s := { s with config := { s.config with block := overlay s.config.block data } }
        let s := undoWriteNew fresh s s.config.seek data
        let s := (radareSeek s s.config.seek .set).1
        let s := pokeLoop fresh data times s
        let s := pokeGrow s ret times
        let s := (radareSeek s s.config.seek .set).1
        let s := pokeFit s ret
        (radareRead s false).1
      else s

/-! ## Undoing writes -/

/-- `undo_write_set_t`. -/
def undoWriteSetT (fresh : ℕ → u8) (s : State) (u : UndoW) (set : Bool) : State × UndoW :=
  let s := { s with undoWLock := true }
  let s := (radareWriteAt fresh s u.off (if set then u.n else u.o)).1
  ({ s with undoWLock := false }, { u with set := set })

/-- The loop of `undo_write_set_all`, from the last write of the list to
the first. -/
def undoWriteEach (fresh : ℕ → u8) (s : State) (set : Bool) : List UndoW → State × List UndoW
  | [] => (s, [])
  | u :: us =>
    let (s, us) := undoWriteEach fresh s set us
    let (s, u) := undoWriteSetT fresh s u set
    (s, u :: us)

/-- `undo_write_set_all`. -/
def undoWriteSetAll (fresh : ℕ → u8) (s : State) (set : Bool) : State :=
  let (s, us) := undoWriteEach fresh s set s.undoWList
  { s with undoWList := us }

end Radare
