import Radare.Rio.Copies
import Radare.Utils.Math
/-!
# Resizing

`radare_resize`: a sign puts so many bytes in at the seek, or takes them
out, and moves what is behind (`resizeMove`); without one the file is cut or
grown to the size given. The argument is checked against the file where
bytes are taken out; where they are put in it is not, and neither
`io_lseek` nor `ftruncate` is asked whether it went well (`resize_iff`).
-/

namespace Radare

variable {fresh : ℕ → u8} {s s' t : State} {from_ to_ : ut64} {file : List u8} {n p rest : ℕ}

/-! ## The code -/

/-- `ftruncate`, which refuses a negative `off_t`. -/
def ftruncate (s : State) (length : ut64) : State :=
  if length.toNat < 2 ^ 63 then
    { s with file := s.file.take length.toNat ++
        List.replicate (length.toNat - s.file.length) 0 }
  else s

/-- The move of `radare_resize`; no result where it would write behind the
last offset a file can have. -/
def resizeMove (fresh : ℕ → u8) (s : State) (from_ to_ : ut64) (rest : ℕ) : Option State :=
  if rest = 0 then some s
  else
    let s := ioLseek s from_
    let (s, _, data) := ioRead s rest
    let s := ioLseek s to_
    if 2 ^ 63 ≤ s.pos + rest then none
    else
      let s := (ioWrite s (overlay (malloc fresh rest) data)).1
      some (ioLseek s s.config.seek)

/-- `radare_resize` behind a sign. -/
def resizeBy (fresh : ℕ → u8) (s : State) (sign : Bool) (size : ut64) : Option State :=
  if sign ∧ size > s.config.size - s.config.seek then some s
  else
    let rest := s.config.size - s.config.seek - (if sign then size else 0)
    let from_ := s.config.seek + (if sign then size else 0)
    let to_ := s.config.seek + (if sign then 0 else size)
    (resizeMove fresh s from_ to_ rest.toNat).map fun s =>
      let total := s.config.size + (if sign then -size else size)
      let s := ftruncate { s with config := { s.config with size := total } } total
      { s with config := { s.config with limit := s.config.size } }

/-- `radare_resize` without a sign: it writes one byte behind the size
where it grows the file, and opens the file again. -/
def resizeTo (s : State) (size : ut64) : State :=
  let s :=
    if size < s.config.size then
      let s := ftruncate s size
      let limit := if s.config.limit ≠ 0 ∧ s.config.limit > size then size else s.config.limit
      { s with config := { s.config with limit := limit, size := size } }
    else s
  let s :=
    if size > s.config.size then
      let s := (radareSeek s size .set).1
      let s := { s with file := fileWrite s.file s.pos [0], pos := s.pos + 1 }
      { s with config := { s.config with limit := size, size := size } }
    else s
  radareOpen s

/-- `radare_resize`. -/
def radareResize (getMath : List u8 → ut64) (fresh : ℕ → u8) (s : State) (arg : List u8) :
    Option State :=
  let size := getMath arg
  if arg = [] ∨ arg.head? = some 63 then some s
  else if !s.eval.write then some s
  else if s.config.size = -1 then some s
  else if arg.head? = some 45 ∨ arg.head? = some 43 then
    resizeBy fresh s (arg.head? = some 45) (getMath arg.tail)
  else
    some (resizeTo s (if arg[1]? = some 120 then (Utils.scanBase 16 arg).getD size else size))

/-! ## Lengths -/

theorem length_ftruncate {length : ut64} (h : length.toNat < 2 ^ 63) :
    (ftruncate s length).file.length = length.toNat := by
  unfold ftruncate
  rw [if_pos h, List.length_append, List.length_take, List.length_replicate]
  omega

theorem ftruncate_small (length : ut64) (h : s.file.length < 2 ^ 63) :
    (ftruncate s length).file.length < 2 ^ 63 := by
  by_cases hlength : length.toNat < 2 ^ 63
  · rw [length_ftruncate hlength]
    exact hlength
  · unfold ftruncate
    rw [if_neg hlength]
    exact h

theorem length_overlay_ioRead (fresh : ℕ → u8) (s : State) (rest : ℕ) :
    (overlay (malloc fresh rest) (ioRead s rest).2.2).length = rest := by
  have hle := ioRead_length_le (s := s) (n := rest)
  unfold overlay
  rw [List.length_append, List.length_drop, length_malloc]
  omega

/-- The move step by step. -/
theorem resizeMove_eq (hrest : rest ≠ 0) :
    resizeMove fresh s from_ to_ rest =
      let bytes := overlay (malloc fresh rest) (ioRead (ioLseek s from_) rest).2.2
      let u := ioLseek (ioRead (ioLseek s from_) rest).1 to_
      if 2 ^ 63 ≤ u.pos + rest then none
      else some (ioLseek (ioWrite u bytes).1 (ioWrite u bytes).1.config.seek) :=
  if_neg hrest

/-- A move leaves a file that can be. -/
theorem resizeMove_small (hwrite : s.eval.write = true) (h : s.file.length < 2 ^ 63)
    (hmove : resizeMove fresh s from_ to_ rest = some t) : t.file.length < 2 ^ 63 := by
  -- nothing to move, or a move that ends where a file can
  by_cases hrest : rest = 0
  · have hst : s = t := Option.some.inj ((if_pos hrest).symm.trans hmove)
    rwa [← hst]
  have hlength := length_overlay_ioRead fresh (ioLseek s from_) rest
  rw [resizeMove_eq hrest] at hmove
  dsimp only at hmove
  generalize hu : ioLseek (ioRead (ioLseek s from_) rest).1 to_ = u at hmove
  generalize overlay (malloc fresh rest) (ioRead (ioLseek s from_) rest).2.2 = bytes
    at hmove hlength
  have hcore : u.core = s.core := by
    rw [← hu, core_ioLseek, core_ioRead, core_ioLseek]
  have hfile : u.file = s.file := congrArg Core.file hcore
  have hwrite' : u.eval.write = true := (congrArg (fun c => c.eval.write) hcore).trans hwrite
  have hne : bytes.take readMost ≠ [] := by
    have hmost : 0 < readMost := by decide
    rw [← List.length_pos_iff, List.length_take]
    omega
  -- a write behind the last offset has no result, so this one is in front
  split_ifs at hmove with hbehind
  have ht : t.file = (ioWrite u bytes).1.file := by
    rw [← Option.some.inj hmove]
    exact congrArg Core.file core_ioLseek
  rw [ht, ioWrite_eq hwrite']
  show (fileWrite u.file u.pos (bytes.take readMost)).length < 2 ^ 63
  rw [length_fileWrite _ _ _ hne, hfile, List.length_take]
  omega

theorem resizeBy_small {sign : Bool} {size : ut64} (hwrite : s.eval.write = true)
    (h : s.file.length < 2 ^ 63) (hrun : resizeBy fresh s sign size = some s') :
    s'.file.length < 2 ^ 63 := by
  unfold resizeBy at hrun
  by_cases hrefused : sign ∧ size > s.config.size - s.config.seek
  · rw [if_pos hrefused] at hrun
    exact Option.some.inj hrun ▸ h
  · rw [if_neg hrefused] at hrun
    obtain ⟨t, hmove, ht⟩ := Option.map_eq_some_iff.mp hrun
    rw [← ht]
    have hsmall := resizeMove_small hwrite h hmove
    exact ftruncate_small _ hsmall

/-! ## What is moved -/

/-- **The move** puts what is read at one place to another, as much of it as
one write takes. -/
theorem resizeMove_some (fresh : ℕ → u8) (hwrite : s.eval.write = true)
    (hfrom : from_.toNat ≤ s.file.length)
    (hsmall : s.file.length < 2 ^ 63) (hto : to_.toNat + (s.file.length - from_.toNat) < 2 ^ 63) :
    ∃ pos, resizeMove fresh s from_ to_ (s.file.length - from_.toNat) =
      some { s with
        file := fileWrite s.file to_.toNat
          ((State.rest fresh { s with pos := from_.toNat }).take readMost)
        pos := pos } := by
  have hlength := length_rest fresh { s with pos := from_.toNat }
  -- at the end of the file nothing is read, and nothing written
  by_cases hrest : s.file.length - from_.toNat = 0
  · refine ⟨s.pos, ?_⟩
    have hnil : State.rest fresh { s with pos := from_.toNat } = [] :=
      List.length_eq_zero_iff.mp (hlength.trans hrest)
    rw [hnil, hrest, List.take_nil]
    rfl
  obtain ⟨pos, hread⟩ := ioRead_fst { s with pos := from_.toNat } (s.file.length - from_.toNat)
  rw [resizeMove_eq hrest, ioLseek_eq (by omega), hread, ioLseek_eq (by omega)]
  dsimp only
  rw [if_neg (by omega), ioWrite_eq]
  swap
  · exact hwrite
  dsimp only
  unfold ioLseek
  split_ifs
  · exact ⟨_, rfl⟩
  · exact ⟨_, rfl⟩

/-- Bytes from a place of a file to its end, of which one write has put
there what it takes. -/
def putOver (file : List u8) (p : ℕ) (bytes : List u8) : List u8 :=
  bytes.take readMost ++ file.drop (p + readMost)

theorem length_putOver {bytes : List u8} (h : file.length = p + bytes.length) :
    (putOver file p bytes).length = bytes.length := by
  unfold putOver
  rw [List.length_append, List.length_take, List.length_drop]
  omega

/-- They are all there where the ones behind are there already. -/
theorem putOver_eq_iff {bytes old : List u8} (hlength : bytes.length = old.length) :
    putOver file p bytes = old ↔ bytes.take readMost = old.take readMost ∧
      file.drop (p + readMost) = old.drop readMost := by
  unfold putOver
  constructor
  · intro h
    refine List.append_inj (h.trans (List.take_append_drop readMost old).symm) ?_
    rw [List.length_take, List.length_take, hlength]
  · rintro ⟨htake, hdrop⟩
    rw [htake, hdrop, List.take_append_drop]

/-- What is behind a write of bytes that go to the end of a file. -/
theorem drop_written {bytes : List u8} (h : file.length = p + bytes.length) :
    file.drop (p + (bytes.take readMost).length) = file.drop (p + readMost) := by
  rw [List.length_take]
  rcases Nat.le_total readMost bytes.length with hle | hle
  · rw [Nat.min_eq_left hle]
  · rw [Nat.min_eq_right hle, List.drop_eq_nil_of_le (by omega), List.drop_eq_nil_of_le (by omega)]

/-- A file written into and then grown is the grown file written into. -/
theorem grow_fileWrite {data : List u8} (hend : p + data.length ≤ file.length + n) :
    (fileWrite file p data).take (file.length + n) ++
        List.replicate (file.length + n - (fileWrite file p data).length) 0 =
      fileWrite (file ++ List.replicate n 0) p data := by
  by_cases hnil : data = []
  · unfold fileWrite
    rw [if_pos hnil, if_pos hnil, List.take_of_length_le (by omega), Nat.add_sub_cancel_left]
  have hlength := length_fileWrite file p data hnil
  rw [List.take_of_length_le (by omega), hlength]
  unfold fileWrite
  rw [if_neg hnil, if_neg hnil]
  have hzeros : p - (file ++ List.replicate n (0 : u8)).length = 0 := by
    rw [List.length_append, List.length_replicate]
    omega
  have hfront : (file ++ List.replicate n 0).take p =
      (file ++ List.replicate (p - file.length) 0).take p := by
    rw [List.take_append, List.take_append, List.take_replicate, List.take_replicate]
    congr 2
    omega
  have hback : (file ++ List.replicate n 0).drop (p + data.length) =
      file.drop (p + data.length) ++
        List.replicate (file.length + n - max file.length (p + data.length)) 0 := by
    rw [List.drop_append, List.drop_replicate]
    congr 2
    omega
  rw [hzeros, List.replicate_zero, List.append_nil, hfront, hback, List.append_assoc _ _
    (List.replicate _ 0)]

/-- What is moved up, in a file grown by as much. -/
theorem grow_move {bytes : List u8} (hle : p ≤ file.length)
    (hbytes : bytes.length = file.length - p) :
    ∃ gap, gap.length = n ∧
      (fileWrite file (p + n) (bytes.take readMost)).take (file.length + n) ++
        List.replicate (file.length + n -
          (fileWrite file (p + n) (bytes.take readMost)).length) 0 =
        file.take p ++ gap ++ putOver (file ++ List.replicate n 0) (p + n) bytes := by
  -- the gap is what was there, and zeros where it goes behind the end
  refine ⟨((file ++ List.replicate n 0).drop p).take n, ?_, ?_⟩
  · rw [List.length_take, List.length_drop, List.length_append, List.length_replicate]
    omega
  have hgrown : (file ++ List.replicate n 0).length = p + n + bytes.length := by
    rw [List.length_append, List.length_replicate]
    omega
  have hfront : file.take p ++ ((file ++ List.replicate n 0).drop p).take n =
      (file ++ List.replicate n 0).take (p + n) := by
    rw [List.take_add, List.take_append_of_le_length hle]
  unfold putOver
  rw [hfront, ← drop_written hgrown, ← List.append_assoc]
  -- a write into the file, and a file grown and then written into
  have hwrite : fileWrite (file ++ List.replicate n 0) (p + n) (bytes.take readMost) =
      (file ++ List.replicate n 0).take (p + n) ++ bytes.take readMost ++
        (file ++ List.replicate n 0).drop (p + n + (bytes.take readMost).length) :=
    fileWrite_eq (by omega)
  rw [← hwrite]
  exact grow_fileWrite (by rw [List.length_take]; omega)

/-- What is moved down, in a file cut behind it. -/
theorem cut_move {bytes : List u8} (hle : p + bytes.length ≤ file.length) :
    (fileWrite file p (bytes.take readMost)).take (p + bytes.length) ++
        List.replicate (p + bytes.length -
          (fileWrite file p (bytes.take readMost)).length) 0 =
      file.take p ++ putOver (file.take (p + bytes.length)) p bytes := by
  have hcut : (file.take (p + bytes.length)).length = p + bytes.length :=
    List.length_take_of_le hle
  have hfront : (file.take p ++ bytes.take readMost).length =
      p + (bytes.take readMost).length := by
    rw [List.length_append, List.length_take_of_le (by omega)]
  have hwritten : (bytes.take readMost).length ≤ bytes.length := List.length_take_le' _ _
  have hlength : p + bytes.length ≤ (fileWrite file p (bytes.take readMost)).length := by
    rw [fileWrite_eq (by omega), List.length_append, hfront, List.length_drop]
    omega
  unfold putOver
  rw [Nat.sub_eq_zero_of_le hlength, List.replicate_zero, List.append_nil,
    fileWrite_eq (by omega), ← drop_written hcut, List.take_append, hfront,
    List.take_of_length_le (by omega), List.append_assoc, List.drop_take]

/-! ## What a sign does -/

/-- A file that has become some content, with the size and the limit that
go with it. -/
structure State.Resized (s' : State) (content : List u8) : Prop where
  file : s'.file = content
  size : s'.config.size.toNat = content.length
  limit : s'.config.limit.toNat = content.length

theorem file_ftruncate {length : ut64} (h : length.toNat < 2 ^ 63) :
    (ftruncate s length).file =
      s.file.take length.toNat ++ List.replicate (length.toNat - s.file.length) 0 := by
  unfold ftruncate
  rw [if_pos h]

/-- The size and the limit that a sign leaves, with the file cut or grown
to them. -/
theorem resizeBy_some (sign : Bool) (size : ut64) {total : ut64} {moved : List u8} {pos : ℕ}
    (hnot : ¬(sign ∧ size > s.config.size - s.config.seek))
    (hmove : resizeMove fresh s (s.config.seek + if sign then size else 0)
      (s.config.seek + if sign then 0 else size)
      (s.config.size - s.config.seek - if sign then size else 0).toNat =
        some { s with file := moved, pos := pos })
    (htotal : s.config.size + (if sign then -size else size) = total)
    (hsmall : total.toNat < 2 ^ 63) :
    ∃ s', resizeBy fresh s sign size = some s' ∧
      s'.file = moved.take total.toNat ++ List.replicate (total.toNat - moved.length) 0 ∧
      s'.config.size = total ∧ s'.config.limit = total := by
  unfold resizeBy
  rw [if_neg hnot]
  dsimp only
  rw [hmove, Option.map_some]
  dsimp only
  rw [htotal]
  refine ⟨_, rfl, file_ftruncate hsmall, ?_⟩
  unfold ftruncate
  rw [if_pos hsmall]
  exact ⟨rfl, rfl⟩

/-- `r+` as the move does it. -/
theorem State.Sized.resizeBy_put (fresh : ℕ → u8) (hs : s.Sized)
    (hwrite : s.eval.write = true) {size : ut64}
    (hroom : s.file.length + size.toNat < 2 ^ 63) :
    ∃ s' gap, resizeBy fresh s false size = some s' ∧ gap.length = size.toNat ∧
      s'.Resized (s.file.take s.config.seek.toNat ++ gap ++
        putOver (s.file ++ List.replicate size.toNat 0) (s.config.seek.toNat + size.toNat)
          (State.rest fresh { s with pos := s.config.seek.toNat })) := by
  have hle := hs.seek_toNat_le
  have hsize := hs.size_toNat
  have hrest : (s.config.size - s.config.seek - 0).toNat =
      s.file.length - s.config.seek.toNat := by
    rw [UInt64.sub_zero, UInt64.toNat_sub_of_le _ _ hs.seek_le, hsize]
  -- no sum wraps around, as the grown file still has a length
  have hto : (s.config.seek + size).toNat = s.config.seek.toNat + size.toNat := by
    rw [UInt64.toNat_add]
    omega
  have htotal : (s.config.size + size).toNat = s.file.length + size.toNat := by
    rw [UInt64.toNat_add]
    omega
  have hlength := length_rest fresh { s with pos := s.config.seek.toNat }
  obtain ⟨pos, hmove⟩ := resizeMove_some fresh hwrite hle hs.small
    (show (s.config.seek + size).toNat + _ < 2 ^ 63 by omega)
  obtain ⟨s', hrun, hfile, hsize', hlimit⟩ := resizeBy_some false size
    (fun h => Bool.noConfusion h.1) (by
      rw [if_neg (by decide), if_neg (by decide), hrest, UInt64.add_zero]
      exact hmove) rfl (by
      rw [if_neg (by decide), htotal]
      exact hroom)
  rw [if_neg (by decide), htotal, hto] at hfile
  obtain ⟨gap, hgap, hgrown⟩ := grow_move (n := size.toNat) hle hlength
  have hcontent : (s.file.take s.config.seek.toNat ++ gap ++
      putOver (s.file ++ List.replicate size.toNat 0) (s.config.seek.toNat + size.toNat)
        (State.rest fresh { s with pos := s.config.seek.toNat })).length =
          s.file.length + size.toNat := by
    rw [List.length_append, List.length_append, List.length_take,
      length_putOver (by
        rw [List.length_append, List.length_replicate, hlength]
        dsimp only
        omega), hlength, hgap]
    dsimp only
    omega
  exact ⟨s', gap, hrun, hgap, hfile.trans hgrown,
    (congrArg UInt64.toNat hsize').trans (htotal.trans hcontent.symm),
    (congrArg UInt64.toNat hlimit).trans (htotal.trans hcontent.symm)⟩

/-- `r-` as the move does it. -/
theorem State.Sized.resizeBy_cut (fresh : ℕ → u8) (hs : s.Sized)
    (hwrite : s.eval.write = true) {size : ut64}
    (hin : size ≤ s.config.size - s.config.seek) :
    ∃ s', resizeBy fresh s true size = some s' ∧
      s'.Resized (s.file.take s.config.seek.toNat ++
        putOver (s.file.take (s.file.length - size.toNat)) s.config.seek.toNat
          (State.rest fresh { s with pos := s.config.seek.toNat + size.toNat })) := by
  have hle := hs.seek_toNat_le
  have hsize := hs.size_toNat
  have hsmall := hs.small
  have hin' : size.toNat ≤ s.file.length - s.config.seek.toNat := by
    rw [← hsize, ← UInt64.toNat_sub_of_le _ _ hs.seek_le]
    exact UInt64.le_iff_toNat_le.mp hin
  have hrest : (s.config.size - s.config.seek - size).toNat =
      s.file.length - (s.config.seek.toNat + size.toNat) := by
    rw [UInt64.toNat_sub_of_le _ _ hin, UInt64.toNat_sub_of_le _ _ hs.seek_le, hsize, Nat.sub_sub]
  have hfrom : (s.config.seek + size).toNat = s.config.seek.toNat + size.toNat := by
    rw [UInt64.toNat_add]
    omega
  have htotal : (s.config.size + -size).toNat = s.file.length - size.toNat := by
    rw [← UInt64.sub_eq_add_neg, UInt64.toNat_sub_of_le _ _ (by
      rw [UInt64.le_iff_toNat_le]
      omega), hsize]
  have hlength := length_rest fresh { s with pos := s.config.seek.toNat + size.toNat }
  obtain ⟨pos, hmove⟩ := resizeMove_some fresh hwrite
    (show (s.config.seek + size).toNat ≤ s.file.length by omega) hs.small
    (show s.config.seek.toNat + _ < 2 ^ 63 by omega)
  rw [hfrom] at hmove
  obtain ⟨s', hrun, hfile, hsize', hlimit⟩ := resizeBy_some true size
    (fun h => absurd hin (UInt64.not_le.mpr h.2)) (by
      rw [if_pos rfl, if_pos rfl, hrest, UInt64.add_zero]
      exact hmove) rfl (by
      rw [if_pos rfl, htotal]
      omega)
  have hsum : s.file.length - size.toNat = s.config.seek.toNat +
      (State.rest fresh { s with pos := s.config.seek.toNat + size.toNat }).length := by
    rw [hlength]
    dsimp only
    omega
  have hcontent : (s.file.take s.config.seek.toNat ++
      putOver (s.file.take (s.file.length - size.toNat)) s.config.seek.toNat
        (State.rest fresh { s with pos := s.config.seek.toNat + size.toNat })).length =
          s.file.length - size.toNat := by
    rw [List.length_append, List.length_take, length_putOver (by rw [List.length_take]; omega),
      hsum]
    omega
  rw [if_pos rfl, htotal, hsum, cut_move (by omega), ← hsum] at hfile
  exact ⟨s', hrun, hfile, (congrArg UInt64.toNat hsize').trans (htotal.trans hcontent.symm),
    (congrArg UInt64.toNat hlimit).trans (htotal.trans hcontent.symm)⟩

/-- Behind a sign `radare_resize` comes to `resizeBy`. -/
theorem State.Sized.radareResize_eq (hs : s.Sized) (hwrite : s.eval.write = true)
    (getMath : List u8 → ut64)
    (text : List u8) :
    radareResize getMath fresh s (43 :: text) = resizeBy fresh s false (getMath text) ∧
      radareResize getMath fresh s (45 :: text) = resizeBy fresh s true (getMath text) := by
  unfold radareResize
  constructor
  · rw [if_neg (by simp), hwrite, if_neg (by decide), if_neg hs.size_ne, if_pos (by simp)]
    rfl
  · rw [if_neg (by simp), hwrite, if_neg (by decide), if_neg hs.size_ne, if_pos (by simp)]
    rfl

/-- What is read at one place and written at another is what was there, off
the maps, and where what one write does not take is there already. -/
theorem putOver_rest_iff (p n : ℕ) :
    putOver file n (State.rest fresh { s with pos := p }) = s.file.drop p ↔
      s.MapsAgree fresh p ∧ file.drop (n + readMost) = s.file.drop (p + readMost) := by
  have hlength := length_rest fresh { s with pos := p }
  have hread : (State.rest fresh { s with pos := p }).take readMost =
      (s.file.drop p).take readMost ↔ s.MapsAgree fresh p := rest_eq_iff (s := { s with pos := p })
  rw [putOver_eq_iff (by rw [hlength, List.length_drop]), hread, List.drop_drop]

/-- What one read and one write do not take of a move stands at its new place
already. -/
def State.StaysUp (s : State) (n : ℕ) : Prop :=
  (s.file ++ List.replicate n 0).drop (s.config.seek.toNat + n + readMost) =
    s.file.drop (s.config.seek.toNat + readMost)

/-- The same of a move down. -/
def State.StaysDown (s : State) (n : ℕ) : Prop :=
  (s.file.take (s.file.length - n)).drop (s.config.seek.toNat + readMost) =
    s.file.drop (s.config.seek.toNat + n + readMost)

/-- A rest of the file that one read takes leaves nothing. -/
theorem staysUp_of_le (h : s.file.length - s.config.seek.toNat ≤ readMost) : s.StaysUp n := by
  unfold State.StaysUp
  rw [List.drop_eq_nil_of_le (by rw [List.length_append, List.length_replicate]; omega),
    List.drop_eq_nil_of_le (by omega)]

theorem staysDown_of_le (h : s.file.length - s.config.seek.toNat ≤ readMost + n) :
    s.StaysDown n := by
  unfold State.StaysDown
  rw [List.drop_eq_nil_of_le (by rw [List.length_take]; omega), List.drop_eq_nil_of_le (by omega)]

/-- `r+` puts bytes in where the file with them is one that can be. -/
theorem State.Sized.put_iff (fresh : ℕ → u8) (hs : s.Sized) (hwrite : s.eval.write = true)
    (size : ut64) :
    (∃ s' gap, resizeBy fresh s false size = some s' ∧ gap.length = size.toNat ∧
      s'.Resized (s.file.take s.config.seek.toNat ++ gap ++ s.file.drop s.config.seek.toNat)) ↔
      s.file.length + size.toNat < 2 ^ 63 ∧ s.MapsAgree fresh s.config.seek.toNat ∧
        s.StaysUp size.toNat := by
  have hle := hs.seek_toNat_le
  constructor
  · rintro ⟨s', gap, hrun, hgap, hresized⟩
    -- a file so long has been left, so it is one that can be
    have hsmall := resizeBy_small hwrite hs.small hrun
    rw [hresized.file, List.length_append, List.length_append, List.length_take,
      List.length_drop, hgap] at hsmall
    have hroom : s.file.length + size.toNat < 2 ^ 63 := by omega
    refine ⟨hroom, (putOver_rest_iff _ _).mp ?_⟩
    obtain ⟨t, gap', hrun', hgap', hresized'⟩ := hs.resizeBy_put fresh hwrite hroom
    obtain rfl := Option.some.inj (hrun.symm.trans hrun')
    exact (List.append_inj (hresized'.file.symm.trans hresized.file) (by
      rw [List.length_append, List.length_append, hgap, hgap'])).2
  · rintro ⟨hroom, hmaps⟩
    obtain ⟨t, gap, hrun, hgap, hresized⟩ := hs.resizeBy_put fresh hwrite hroom
    rw [(putOver_rest_iff _ _).mpr hmaps] at hresized
    exact ⟨t, gap, hrun, hgap, hresized⟩

/-- `r-` takes bytes out where there are as many, and does nothing
elsewhere. -/
theorem State.Sized.cut_iff (fresh : ℕ → u8) (hs : s.Sized) (hwrite : s.eval.write = true)
    (size : ut64) :
    (∃ s', resizeBy fresh s true size = some s' ∧
      (size > s.config.size - s.config.seek ∧ s' = s ∨
        size ≤ s.config.size - s.config.seek ∧
          s'.Resized (s.file.take s.config.seek.toNat ++
            s.file.drop (s.config.seek.toNat + size.toNat)))) ↔
      size > s.config.size - s.config.seek ∨
        s.MapsAgree fresh (s.config.seek.toNat + size.toNat) ∧ s.StaysDown size.toNat := by
  by_cases hin : size ≤ s.config.size - s.config.seek
  swap
  · have hgt := UInt64.not_le.mp hin
    exact iff_of_true ⟨s, if_pos ⟨rfl, hgt⟩, Or.inl ⟨hgt, rfl⟩⟩ (Or.inl hgt)
  -- the argument is checked, and the move has room
  have hnot : ¬size > s.config.size - s.config.seek := UInt64.not_lt.mpr hin
  obtain ⟨t, hrun, hresized⟩ := hs.resizeBy_cut fresh hwrite hin
  rw [hrun]
  constructor
  · rintro ⟨s', hs', ⟨hgt, -⟩ | ⟨-, hresized'⟩⟩
    · exact absurd hgt hnot
    · obtain rfl := Option.some.inj hs'
      exact Or.inr ((putOver_rest_iff _ _).mp
        (List.append_cancel_left (hresized.file.symm.trans hresized'.file)))
  · rintro (hgt | hmaps)
    · exact absurd hgt hnot
    · rw [(putOver_rest_iff _ _).mpr hmaps] at hresized
      exact ⟨t, rfl, Or.inr ⟨hin, hresized⟩⟩

/-- **What `r+` and `r-` do.** So many bytes are put in where the file with
them is one that can be, and taken out where there are as many, so long as
no map stands before what is moved, and one read and one write take all of
it, or what they do not take is at its new place as it is. -/
theorem resize_iff (getMath : List u8 → ut64) (fresh : ℕ → u8) (s : State) (text : List u8)
    (hs : s.Sized) (hwrite : s.eval.write = true) :
    ((∃ s' gap, radareResize getMath fresh s (43 :: text) = some s' ∧
        gap.length = (getMath text).toNat ∧
        s'.Resized (s.file.take s.config.seek.toNat ++ gap ++
          s.file.drop s.config.seek.toNat)) ↔
      s.file.length + (getMath text).toNat < 2 ^ 63 ∧
        s.MapsAgree fresh s.config.seek.toNat ∧ s.StaysUp (getMath text).toNat) ∧
    ((∃ s', radareResize getMath fresh s (45 :: text) = some s' ∧
        (getMath text > s.config.size - s.config.seek ∧ s' = s ∨
          getMath text ≤ s.config.size - s.config.seek ∧
            s'.Resized (s.file.take s.config.seek.toNat ++
              s.file.drop (s.config.seek.toNat + (getMath text).toNat)))) ↔
      getMath text > s.config.size - s.config.seek ∨
        s.MapsAgree fresh (s.config.seek.toNat + (getMath text).toNat) ∧
          s.StaysDown (getMath text).toNat) := by
  rw [(hs.radareResize_eq hwrite getMath text).1, (hs.radareResize_eq hwrite getMath text).2]
  exact ⟨hs.put_iff fresh hwrite (getMath text), hs.cut_iff fresh hwrite (getMath text)⟩

/-- Two bytes put between `A` and `B`, and `B` taken out. -/
theorem resize_between :
    let s := { openFile [0x41, 0x42] 2 1 with config := { (openFile [0x41, 0x42] 2 1).config with
      seek := 1 } }
    (∃ s' gap, radareResize (fun _ => 2) (fun _ => 0) s [43] = some s' ∧ gap.length = 2 ∧
      s'.Resized ([0x41] ++ gap ++ [0x42])) ∧
    ∃ s', radareResize (fun _ => 1) (fun _ => 0) s [45] = some s' ∧ s'.Resized [0x41] := by
  intro s
  have hs : s.Sized := ⟨rfl, by decide, by decide⟩
  refine ⟨(resize_iff (fun _ => 2) (fun _ => 0) s [] hs rfl).1.mpr
    ⟨by decide, Or.inl rfl, staysUp_of_le (by decide)⟩, ?_⟩
  obtain ⟨s', hrun, ⟨hgt, -⟩ | ⟨-, hresized⟩⟩ :=
    (resize_iff (fun _ => 1) (fun _ => 0) s [] hs rfl).2.mpr
      (Or.inr ⟨Or.inl rfl, staysDown_of_le (by decide)⟩)
  · exact absurd hgt (by decide)
  · exact ⟨s', hrun, hresized⟩

/-- **The size wraps around.** `r+` of the largest number empties the
file. -/
theorem resize_empties :
    let s := openFile [0x41] 1 1
    s.Sized ∧ s.eval.write = true ∧
      (∃ s', radareResize (fun _ => -1) (fun _ => 0) s [43] = some s' ∧ s'.file = []) ∧
      ¬∃ s' gap, radareResize (fun _ => -1) (fun _ => 0) s [43] = some s' ∧
        gap.length = (-1 : ut64).toNat ∧
        s'.Resized (s.file.take s.config.seek.toNat ++ gap ++
          s.file.drop s.config.seek.toNat) := by
  intro s
  have hrun : ∃ s', radareResize (fun _ => -1) (fun _ => 0) s [43] = some s' ∧ s'.file = [] :=
    Option.map_eq_some_iff.mp (show (radareResize (fun _ => -1) (fun _ => 0) s [43]).map
      State.file = some [] by decide)
  refine ⟨⟨rfl, by decide, by decide⟩, rfl, hrun, ?_⟩
  rintro ⟨s', gap, hs', hgap, hresized⟩
  obtain ⟨t, ht, hnil⟩ := hrun
  obtain rfl := Option.some.inj (hs'.symm.trans ht)
  have hlength := congrArg List.length (hresized.file.symm.trans hnil)
  rw [List.length_append, List.length_append, hgap, List.length_nil] at hlength
  have : (-1 : ut64).toNat = 2 ^ 64 - 1 := rfl
  omega

/-! ## Without a sign -/

/-- **A size smaller than the file's** cuts it there. -/
theorem resizeTo_of_lt (hs : s.Sized) {size : ut64} (hlt : size < s.config.size) :
    (resizeTo s size).file = s.file.take size.toNat ∧
      (resizeTo s size).config.size = size := by
  have hnat := UInt64.lt_iff_toNat_lt.mp hlt
  have hsmall := hs.small
  rw [hs.size_toNat] at hnat
  have hcut : (ftruncate s size).file = s.file.take size.toNat := by
    rw [file_ftruncate (by omega), Nat.sub_eq_zero_of_le (by omega), List.replicate_zero,
      List.append_nil]
  have hlength : (s.file.take size.toNat).length = size.toNat := by
    rw [List.length_take]
    omega
  unfold resizeTo
  rw [if_pos hlt]
  dsimp only
  rw [if_neg (UInt64.lt_irrefl _)]
  refine ⟨(congrArg Core.file core_radareOpen).trans hcut, ?_⟩
  unfold radareOpen
  rw [config_ioLseek]
  dsimp only
  rw [hcut, hlength, UInt64.ofNat_toNat]

/-- **A larger one** grows it to one byte more. -/
theorem resizeTo_of_gt (hs : s.Sized) (hv : s.config.vaddr = 0) {size : ut64}
    (hgt : size > s.config.size) (hsize : size.toNat < 2 ^ 63) :
    (resizeTo s size).file = s.file ++ List.replicate (size.toNat + 1 - s.file.length) 0 ∧
      (resizeTo s size).config.size = size + 1 := by
  have hnat := UInt64.lt_iff_toNat_lt.mp hgt
  rw [hs.size_toNat] at hnat
  have hgrown : fileWrite s.file size.toNat [0] =
      s.file ++ List.replicate (size.toNat + 1 - s.file.length) 0 := by
    unfold fileWrite
    rw [if_neg (List.cons_ne_nil _ _), List.drop_eq_nil_of_le (by omega), List.append_nil,
      List.take_of_length_le (by rw [List.length_append, List.length_replicate]; omega),
      List.append_assoc, show [(0 : u8)] = List.replicate 1 0 from rfl,
      List.replicate_append_replicate, ← Nat.sub_add_comm (Nat.le_of_lt hnat)]
  unfold resizeTo
  rw [if_neg (UInt64.not_lt.mpr (UInt64.le_of_lt hgt))]
  dsimp only
  rw [if_pos hgt, radareSeek_eq hv hsize]
  refine ⟨(congrArg Core.file core_radareOpen).trans hgrown, ?_⟩
  unfold radareOpen
  rw [config_ioLseek]
  show UInt64.ofNat (fileWrite s.file size.toNat [0]).length = size + 1
  rw [hgrown, List.length_append, List.length_replicate, Nat.add_sub_cancel' (by omega),
    UInt64.ofNat_add, UInt64.ofNat_toNat]
  rfl

end Radare
