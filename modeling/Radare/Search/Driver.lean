import Radare.Search.Binparse
import Radare.Rio.Model
/-!
# The search drivers

`search.c`: `search_range` and `search_from_file` read the file block by
block and give the bytes of the block to `update_tlist`, and
`radare_tsearch_callback` reads the hit into the same block. The driver
of a range reads its block anew after every hit, the driver of a file of
keywords does not.

Every call of `update_tlist` is written down in `fed`. The flags, the
messages and `cmd.hit`, which is empty, are left out; `search_range` is
one turn of its outer loop, which `search.inar` repeats for each range.
-/

namespace Radare

/-- A setting as an `int`. -/
def asInt (v : ut64) : ℤ :=
  let low : ℕ := v.toNat % 2 ^ 32
  if low < 2 ^ 31 then (low : ℤ) else (low : ℤ) - 2 ^ 32

/-- `radare_tsearch_callback`, over the program and `nhit`; `align` and
`count` are the static variables. -/
def radareTsearchCallback (align count : ℤ) : Callback (State × ℕ) := fun (s, nhit) _ where_ =>
  if align ≠ 0 ∧ where_ % UInt64.ofInt align ≠ 0 then ((s, nhit), 1)
  else if count ≠ 0 ∧ (nhit : ℤ) ≥ count then ((s, nhit), 1)
  else
    let off := s.config.seek
    let s := (radareSeek s where_ .set).1
    let s := (radareRead s false).1
    (({ s with config := { s.config with seek := off } }, nhit + 1), 0)

/-- A search under way. -/
structure Driver where
  s : State
  tls : List TokenList
  nhit : ℕ
  /-- The calls of `update_tlist`. -/
  fed : List (u8 × ut64)

/-- `config.seek = s`. -/
def Driver.setSeek (d : Driver) (s : ut64) : Driver :=
  { d with s := { d.s with config := { d.s.config with seek := s } } }

/-- `radare_read`, its value dropped. -/
def Driver.read (d : Driver) (next : Bool) : Driver := { d with s := (radareRead d.s next).1 }

/-- The settings both drivers run under: `search_nocase` and the static
variables of the callback. -/
structure Filter where
  nocase : Bool
  align : ℤ
  count : ℤ

/-- The call of `update_tlist` for a byte of the block, and the value
returned. -/
def Driver.update (f : Filter) (d : Driver) (i : ℕ) : Option (Driver × ℤ) :=
  let inchar := d.s.config.block.getD i 0
  let where_ := d.s.config.seek + UInt64.ofNat i
  let u := updateTlist f.nocase (some (radareTsearchCallback f.align f.count)) d.tls (d.s, d.nhit)
    inchar where_
  let (s, nhit) := u.s
  let s := { s with
    config := { s.config with interrupted := s.config.interrupted || u.interrupted } }
  u.ret.map fun ret => (⟨s, u.tls, nhit, d.fed ++ [(inchar, where_)]⟩, ret)

/-- The inner loop of `search_range`, for `n` bytes from `i` on. -/
def rangeBlock (f : Filter) (s : ut64) : ℕ → ℕ → Driver → Option Driver
  | _, 0, d => some d
  | i, n + 1, d =>
    if d.s.config.interrupted then some d
    else (d.update f i).bind fun (d, ret) =>
      let d := if ret ≠ 0 then (d.setSeek s).read false else d
      rangeBlock f s (i + 1) n d

/-- The search loop of `search_range`; `i` is the value of the last
`radare_read`. -/
def rangeLoop (f : Filter) (limit : ut64) : ℕ → ℕ → Driver → Option Driver
  | 0, _, _ => none
  | fuel + 1, i, d =>
    if d.s.config.interrupted then some d
    else
      let s := d.s.config.seek
      if i = 0 then some d
      else if limit ≠ 0 ∧ d.s.config.seek ≥ limit then some d
      else if d.s.config.debug ∧ d.s.config.seek = 0xFFFFFFFF then some d
      else (rangeBlock f s 0 d.s.config.block.length d).bind fun d =>
        let d := d.setSeek s
        rangeLoop f limit fuel (radareRead d.s true).2 (d.read true)

/-- `radare_controlc`. -/
def radareControlc (s : State) : State :=
  { s with config := { s.config with interrupted := false } }

/-- `search_range` for one range: `align` and `count` are `search.align`
and `cfg.count`, `from_` and `to_` are `search.from` and `search.to`. -/
def searchRange (nocase : Bool) (align count from_ to_ : ut64) (fuel : ℕ) (s : State)
    (tls : List TokenList) : Option Driver :=
  let tmp := s.config.seek
  let d : Driver := ⟨radareControlc s, tls, 0, []⟩
  let d := d.setSeek from_
  let limit := if to_ ≠ 0 then to_ else d.s.config.limit
  let d := d.read false
  (rangeLoop ⟨nocase, asInt align, asInt count⟩ limit fuel 1 d).map fun d =>
    { d with s := (radareSeek d.s tmp .set).1 }

/-- The inner loop of `search_from_file`, for `n` bytes from `i` on. -/
def fileBlock (f : Filter) : ℕ → ℕ → Driver → Option Driver
  | _, 0, d => some d
  | i, n + 1, d => (d.update f i).bind fun (d, ret) =>
      if ret = -1 then some d else fileBlock f (i + 1) n d

/-- The search loop of `search_from_file`. -/
def fileLoop (f : Filter) : ℕ → Driver → Option Driver
  | 0, _ => none
  | fuel + 1, d =>
    if !d.s.config.interrupted ∧ d.s.config.seek < d.s.config.size then
      (fileBlock f 0 d.s.config.block.length d).bind fun d => fileLoop f fuel (d.read true)
    else some d

/-- `search_from_file`, with the static variables as the last search has
left them. -/
def searchFromFile (f : Filter) (fuel : ℕ) (s : State) (tls : List TokenList) : Option Driver :=
  let tmp := s.config.seek
  let d : Driver := ⟨radareControlc s, tls, 0, []⟩
  (fileLoop f fuel (d.read false)).map fun d => { d with s := (radareSeek d.s tmp .set).1 }

end Radare
