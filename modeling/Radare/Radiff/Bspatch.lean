import Radare.Javasm.Pool
import Radare.Radiff.Bsdiff
/-!
# `bspatch`

A patch is a header with three lengths, the control block, the differences and
the bytes that are in the new file only, each of the three compressed. What
`bsdiff` writes gives the new file back (`bspatch_bsdiff`), and what is accepted
of any other patch is told by the pieces in it (`bspatch_sound`).

`libbzip2` is not part of the program. Where the patch is corrupt there is no
result, nor where an `off_t` overflows or a byte is stored beside the new file.
-/

namespace Radare

open Common

/-! ## The program -/

/-- `offtin`. -/
def offtin (buf : List u8) : ℤ :=
  let y := ofBytes (buf.take 7 ++ [buf.getD 7 0 &&& 0x7f])
  if buf.getD 7 0 &&& 0x80 ≠ 0 then -y else y

/-- `libbzip2`: what is written for a stream, and how a stream is read. -/
structure Bzip2 where
  compress : List u8 → List u8
  Stream : Type
  /-- `BZ2_bzReadOpen`, from a place of a file on. -/
  readOpen : List u8 → Stream
  /-- `BZ2_bzRead`: the bytes stored, where it sets `BZ_OK` or
  `BZ_STREAM_END`. -/
  read : Stream → ℤ → Option (List u8 × Stream)
  /-- The bytes that a stream has left. -/
  left : Stream → List u8
  /-- A length is not below 0, and what is stored comes next in the stream. -/
  read_some : ∀ {stream rest len bytes}, read stream len = some (bytes, rest) →
    0 ≤ len ∧ bytes = (left stream).take len.toNat ∧ left rest = (left stream).drop len.toNat
  /-- The bytes that a stream has are read. -/
  read_isSome : ∀ {stream} {len : ℤ}, 0 ≤ len → len ≤ (left stream).length →
    (read stream len).isSome = true

variable {bz : Bzip2}

/-- `BZ2_bzRead` of a length that is an `off_t`, and becomes an `int`. -/
def bzRead (bz : Bzip2) (stream : bz.Stream) (len : ℤ) : Option (List u8 × bz.Stream) :=
  bz.read stream (len.bmod (2 ^ 32))

/-- A number of the control block. -/
def readCtrl (bz : Bzip2) (ctrl : bz.Stream) : Option (ℤ × bz.Stream) := do
  let (buf, ctrl) ← bzRead bz ctrl 8
  if buf.length < 8 then none else return (offtin buf, ctrl)

/-- A sum of two `off_t`. -/
def offSum (a b : ℤ) : Option ℤ :=
  if -2 ^ 63 ≤ a + b ∧ a + b < 2 ^ 63 then some (a + b) else none

/-- A part of the new file: so many bytes of a stream, each of them made by
`make` of what is read. -/
def readPart (bz : Bzip2) (newsize : ℤ) (make : List u8 → List u8) (stream : bz.Stream)
    (new : List u8) (newpos x : ℤ) : Option (bz.Stream × List u8 × ℤ) := do
  let newpos' ← offSum newpos x
  if newpos' > newsize then none
  else do
    let (bytes, stream) ← bzRead bz stream x
    let new ← overlayAt new newpos (make bytes)
    if bytes.length < x then none else return (stream, new, newpos')

/-- The old bytes added to the first so many differences. Behind the last
`off_t` no place is one of the old file. -/
def addFirst (old : List u8) (oldpos x : ℤ) (bytes : List u8) : List u8 :=
  addOld old oldpos (bytes.take x.toNat) ++ bytes.drop x.toNat

/-- The variables of `main`. -/
structure Bspatch (bz : Bzip2) where
  ctrl : bz.Stream
  db : bz.Stream
  eb : bz.Stream
  oldpos : ℤ
  newpos : ℤ
  new : List u8

/-- A turn of the loop. -/
def Bspatch.turn (old : List u8) (newsize : ℤ) (st : Bspatch bz) : Option (Bspatch bz) := do
  let (x, ctrl) ← readCtrl bz st.ctrl
  let (y, ctrl) ← readCtrl bz ctrl
  let (z, ctrl) ← readCtrl bz ctrl
  let (db, new, newpos) ← readPart bz newsize (addFirst old st.oldpos x) st.db st.new st.newpos x
  let oldpos ← offSum st.oldpos x
  let (eb, new, newpos) ← readPart bz newsize id st.eb new newpos y
  let oldpos ← offSum oldpos z
  return { ctrl, db, eb, oldpos, newpos, new }

/-- A number of eight bytes in a block. -/
def numberAt (block : List u8) (i : ℕ) : ℤ := offtin ((block.drop i).take 8)

theorem readCtrl_some {ctrl ctrl' : bz.Stream} {x : ℤ} (h : readCtrl bz ctrl = some (x, ctrl')) :
    8 ≤ (bz.left ctrl).length ∧ x = numberAt (bz.left ctrl) 0 ∧
      bz.left ctrl' = (bz.left ctrl).drop 8 := by
  unfold readCtrl at h
  simp only [Option.bind_eq_bind, Option.bind_eq_some_iff, Prod.exists,
    Option.ite_none_left_eq_some, Option.pure_def, Option.some.injEq, Prod.mk.injEq] at h
  obtain ⟨buf, rest, hread, hlen, hx, rfl⟩ := h
  obtain ⟨-, hbuf, hrest⟩ := bz.read_some hread
  have hbuf' : buf = (bz.left ctrl).take 8 := hbuf
  rw [hbuf', List.length_take] at hlen
  exact ⟨by omega, by rw [← hx, hbuf', numberAt, List.drop_zero], hrest⟩

/-- **A turn taken apart.** -/
theorem Bspatch.turn_some {old : List u8} {newsize : ℤ} {st st' : Bspatch bz}
    (h : st.turn old newsize = some st') :
    ∃ x y z ctrl₁ ctrl₂ new newpos oldpos, readCtrl bz st.ctrl = some (x, ctrl₁) ∧
      readCtrl bz ctrl₁ = some (y, ctrl₂) ∧ readCtrl bz ctrl₂ = some (z, st'.ctrl) ∧
      readPart bz newsize (addFirst old st.oldpos x) st.db st.new st.newpos x =
        some (st'.db, new, newpos) ∧
      offSum st.oldpos x = some oldpos ∧
      readPart bz newsize id st.eb new newpos y = some (st'.eb, st'.new, st'.newpos) ∧
      offSum oldpos z = some st'.oldpos := by
  unfold Bspatch.turn at h
  simp only [Option.bind_eq_bind, Option.bind_eq_some_iff, Prod.exists, Option.pure_def,
    Option.some.injEq] at h
  obtain ⟨x, ctrl₁, hx, y, ctrl₂, hy, z, ctrl₃, hz, db, new, newpos, hdb, oldpos, hold, eb,
    new', newpos', heb, oldpos', hold', rfl⟩ := h
  exact ⟨x, y, z, ctrl₁, ctrl₂, new, newpos, oldpos, hx, hy, hz, hdb, hold, heb, hold'⟩

/-- The loop of `main`: what is in the memory of the new file. -/
def bspatchLoop (old : List u8) (newsize : ℤ) (st : Bspatch bz) : Option (List u8) :=
  if st.newpos < newsize then
    match _h : st.turn old newsize with
    | none => none
    | some st' => bspatchLoop old newsize st'
  else some st.new
termination_by (bz.left st.ctrl).length
decreasing_by
  obtain ⟨x, y, z, ctrl₁, ctrl₂, new, newpos, oldpos, hx, hy, hz, -⟩ := Bspatch.turn_some _h
  obtain ⟨hlong, -, h₁⟩ := readCtrl_some hx
  obtain ⟨-, -, h₂⟩ := readCtrl_some hy
  obtain ⟨-, -, h₃⟩ := readCtrl_some hz
  rw [h₃, h₂, h₁, List.length_drop, List.length_drop, List.length_drop]
  omega

/-- `bspatch`: the new file. -/
def bspatch (bz : Bzip2) (fresh : ℕ → u8) (old patch : List u8) : Option (List u8) :=
  if patch.length < 32 then none
  else if patch.take 8 ≠ ascii "BSDIFF40" then none
  else
    let bzctrllen := numberAt patch 8
    let bzdatalen := numberAt patch 16
    let newsize := numberAt patch 24
    if bzctrllen < 0 ∨ bzdatalen < 0 ∨ newsize < 0 then none
    -- the places are `off_t`, and `fseeko` fails below 0
    else if 32 + bzctrllen + bzdatalen ≥ 2 ^ 63 then none
    -- one `read` is to give all of the old file
    else if readMost < old.length then none
    else do
      let new ← bspatchLoop old newsize
        { ctrl := bz.readOpen (patch.drop 32)
          db := bz.readOpen (patch.drop (32 + bzctrllen).toNat)
          eb := bz.readOpen (patch.drop (32 + bzctrllen + bzdatalen).toNat)
          oldpos := 0
          newpos := 0
          new := malloc fresh (newsize + 1).toNat }
      -- and one `write` to take all of the new one
      if newsize > readMost then none else return new.take newsize.toNat

/-- `bsdiff`: the patch, with a suffix array of the old file. One `read` is to
give all of either file. -/
def bsdiff (bz : Bzip2) (I : List ℕ) (pos : ℤ) (old new : List u8) : Option (List u8) :=
  if readMost < old.length ∨ readMost < new.length then none
  else do
    let st ← bsdiffLoop I old new (new.length + 2) (Bsdiff.start pos)
    let ctrl := bz.compress st.ctrl
    let diff := bz.compress st.db
    let extra := bz.compress st.eb
    return ascii "BSDIFF40" ++ offtout ctrl.length ++ offtout diff.length ++
      offtout new.length ++ ctrl ++ diff ++ extra

/-! ## Numbers -/

variable {old new : List u8} {I : List ℕ} {ps : List (Piece u8)} {x : ℤ} {fresh : ℕ → u8}

theorem length_offtout (x : ℤ) : (offtout x).length = 8 := by
  unfold offtout
  split_ifs
  · rw [List.length_set, length_bytesOf]
  · exact length_bytesOf 8 _

/-- The highest byte of a small magnitude has no sign. -/
theorem high_byte {n : ℕ} (h : n < 2 ^ 63) :
    ∃ low b, bytesOf 8 n = low ++ [b] ∧ low.length = 7 ∧ b.toNat < 128 ∧
      ofBytes (low ++ [b]) = n := by
  have hsplit : bytesOf (7 + 1) n = bytesOf 7 n ++ bytesOf 1 (n / 256 ^ 7) := bytesOf_add 7 1 n
  refine ⟨bytesOf 7 n, UInt8.ofNat (n / 256 ^ 7), hsplit, length_bytesOf 7 n, ?_, ?_⟩
  · rw [UInt8.toNat_ofNat']
    omega
  · have hback := ofBytes_bytesOf 8 n
    have hsmall : n % 256 ^ 8 = n := Nat.mod_eq_of_lt (by omega)
    rw [hsmall] at hback
    exact (congrArg ofBytes hsplit).symm.trans hback

theorem sign_byte {b : u8} (h : b.toNat < 128) :
    b &&& 0x7f = b ∧ b &&& 0x80 = 0 ∧ (b ||| 0x80) &&& 0x7f = b ∧ (b ||| 0x80) &&& 0x80 ≠ 0 := by
  have hall : ∀ n : Fin 128, (UInt8.ofNat n &&& 0x7f = UInt8.ofNat n ∧ UInt8.ofNat n &&& 0x80 = 0 ∧
      (UInt8.ofNat n ||| 0x80) &&& 0x7f = UInt8.ofNat n ∧
      (UInt8.ofNat n ||| 0x80) &&& 0x80 ≠ 0) := by decide
  have hb : UInt8.ofNat b.toNat = b := UInt8.ofNat_toNat
  have := hall ⟨b.toNat, h⟩
  rw [hb] at this
  exact this

/-- **A number is read back.** -/
theorem offtin_offtout (h : x.natAbs < 2 ^ 63) : offtin (offtout x) = x := by
  obtain ⟨low, b, hbytes, hlow, hb, hback⟩ := high_byte h
  obtain ⟨hmask, hsign, hmask', hsign'⟩ := sign_byte hb
  have hget : (low ++ [b]).getD 7 0 = b := by
    rw [List.getD_append_right _ _ _ _ (Nat.le_of_eq hlow), hlow]
    rfl
  have htake : ∀ c : u8, (low ++ [c]).take 7 = low := by
    intro c
    exact List.take_left' hlow
  have hgetc : ∀ c : u8, (low ++ [c]).getD 7 0 = c := by
    intro c
    rw [List.getD_append_right _ _ _ _ (Nat.le_of_eq hlow), hlow]
    rfl
  by_cases hneg : x < 0
  · have hset : (low ++ [b]).set 7 (b ||| 0x80) = low ++ [b ||| 0x80] := by
      rw [List.set_append_right _ _ (Nat.le_of_eq hlow), hlow]
      rfl
    have hout : offtout x = low ++ [b ||| 0x80] := by
      unfold offtout
      rw [if_pos hneg, hbytes, hget, hset]
    unfold offtin
    rw [hout, htake, hgetc, hmask', if_pos hsign', hback]
    omega
  · have hout : offtout x = low ++ [b] := by
      unfold offtout
      rw [if_neg hneg, hbytes]
    have hplain : ¬ b &&& 0x80 ≠ 0 := not_not.mpr hsign
    unfold offtin
    rw [hout, htake, hgetc, hmask, if_neg hplain, hback]
    omega

/-! ## A part of the new file -/

theorem offSum_some {a b c : ℤ} (h : offSum a b = some c) :
    c = a + b ∧ -2 ^ 63 ≤ c ∧ c < 2 ^ 63 := by
  unfold offSum at h
  split_ifs at h with hfits
  obtain rfl := Option.some.inj h
  exact ⟨rfl, hfits⟩

theorem offSum_eq {a b : ℤ} (hlow : -2 ^ 63 ≤ a + b) (hhigh : a + b < 2 ^ 63) :
    offSum a b = some (a + b) := if_pos ⟨hlow, hhigh⟩

theorem length_addFirst (old : List u8) (oldpos x : ℤ) (bytes : List u8) :
    (addFirst old oldpos x bytes).length = bytes.length := by
  unfold addFirst
  rw [List.length_append, length_addOld, List.length_take, List.length_drop]
  omega

theorem addFirst_eq (old : List u8) (oldpos : ℤ) {bytes : List u8} (h : bytes.length = x) :
    addFirst old oldpos x bytes = addOld old oldpos bytes := by
  unfold addFirst
  rw [← h, Int.toNat_natCast, List.take_length, List.drop_length, List.append_nil]

theorem length_id (bytes : List u8) : (id bytes).length = bytes.length := rfl

/-- What there is of the new file: the front of its memory. -/
structure NewFront (newsize : ℤ) (new : List u8) (newpos : ℤ) (done : List u8) : Prop where
  pos : newpos = done.length
  front : new.take done.length = done
  length : new.length = newsize + 1
  le : newpos ≤ newsize

variable {newsize newpos newpos' : ℤ} {new' done bytes rest : List u8} {make : List u8 → List u8}
variable {stream stream' : bz.Stream}

/-- Bytes stored behind it. -/
theorem NewFront.put (h : NewFront newsize new newpos done) (bytes : List u8)
    (hfit : newpos + bytes.length ≤ newsize) :
    ∃ new', overlayAt new newpos bytes = some new' ∧
      NewFront newsize new' (newpos + bytes.length) (done ++ bytes) := by
  obtain ⟨hpos, hfront, hlength, -⟩ := h
  have hroom : done.length + bytes.length ≤ new.length := by omega
  have hplace : newpos.toNat = done.length := by omega
  refine ⟨_, overlayAt_eq (by omega) (by omega), ?_, ?_, ?_, hfit⟩
  · rw [List.length_append]
    omega
  · unfold Common.overlay
    rw [hplace, hfront, List.length_append, ← List.length_append, List.take_left]
  · rw [length_overlay (by omega)]
    exact hlength

/-- **Another part.** It goes on from what there was, or back before the new
file: a length below 0 can become an `int` that is not. -/
theorem readPart_some (hmake : ∀ bytes, (make bytes).length = bytes.length)
    (h : NewFront newsize new newpos done) (hmost : newsize ≤ readMost)
    (hrun : readPart bz newsize make stream new newpos x = some (stream', new', newpos')) :
    newpos' < 0 ∨ ∃ bytes, bz.left stream = bytes ++ bz.left stream' ∧ bytes.length = x ∧
      NewFront newsize new' newpos' (done ++ make bytes) := by
  unfold readPart at hrun
  simp only [Option.bind_eq_bind, Option.bind_eq_some_iff, Prod.exists,
    Option.ite_none_left_eq_some, Option.pure_def, Option.some.injEq, Prod.mk.injEq] at hrun
  obtain ⟨end_, hend, hle, bytes, rest, hread, new₁, hput, hlen, rfl, rfl, rfl⟩ := hrun
  obtain ⟨hsum, hlow, -⟩ := offSum_some hend
  obtain ⟨hn, hbytes, hleft⟩ := bz.read_some hread
  have hpos := h.pos
  have hmostVal : (readMost : ℤ) = 0x7ffff000 := rfl
  -- the `int` is the length, or the length is far below 0
  have hint : x.bmod (2 ^ 32) = x ∨ x < -2 ^ 31 ∨ 2 ^ 31 ≤ x := by
    rcases Int.lt_or_le x (-2 ^ 31) with hlt | hge
    · exact Or.inr (Or.inl hlt)
    rcases Int.lt_or_le x (2 ^ 31) with hlt | hge'
    · exact Or.inl (Int.bmod_eq_of_le (by omega) (by omega))
    · exact Or.inr (Or.inr hge')
  have hshort : bytes.length ≤ (x.bmod (2 ^ 32)).toNat := by
    rw [hbytes, List.length_take]
    exact Nat.min_le_left _ _
  have hsmall : x.bmod (2 ^ 32) < 2 ^ 31 := by
    have := Int.bmod_lt (x := x) (m := 2 ^ 32) (by decide)
    omega
  rcases hint with hint | hfar | hlong
  · rw [hint] at hn hbytes hleft hshort
    have hx : (bytes.length : ℤ) = x := by omega
    refine Or.inr ⟨bytes, ?_, hx, ?_⟩
    · rw [hleft, hbytes, List.take_append_drop]
    · obtain ⟨new₂, hput', hfront⟩ := h.put (make bytes) (by rw [hmake]; omega)
      obtain rfl := Option.some.inj (hput.symm.trans hput')
      rw [hmake, hx, ← hsum] at hfront
      exact hfront
  · have := h.le
    exact Or.inl (by omega)
  · omega

/-- **From before the new file** nothing comes back. -/
theorem readPart_back (hmake : ∀ bytes, (make bytes).length = bytes.length) (hback : newpos < 0)
    (hrun : readPart bz newsize make stream new newpos x = some (stream', new', newpos')) :
    newpos' < 0 := by
  unfold readPart at hrun
  simp only [Option.bind_eq_bind, Option.bind_eq_some_iff, Prod.exists,
    Option.ite_none_left_eq_some, Option.pure_def, Option.some.injEq, Prod.mk.injEq] at hrun
  obtain ⟨end_, hend, -, bytes, rest, -, new₁, hput, hlen, -, -, rfl⟩ := hrun
  have hsum := (offSum_some hend).1
  -- a byte would be stored before the memory
  have hzero := length_of_overlayAt hback hput
  rw [hmake] at hzero
  omega

/-- **A part that is there is read.** -/
theorem readPart_eq (hmake : ∀ bytes, (make bytes).length = bytes.length)
    (h : NewFront newsize new newpos done) (hmost : newsize ≤ readMost)
    (hleft : bz.left stream = bytes ++ rest) (hfit : newpos + bytes.length ≤ newsize) :
    ∃ stream' new', readPart bz newsize make stream new newpos bytes.length =
        some (stream', new', newpos + bytes.length) ∧ bz.left stream' = rest ∧
      NewFront newsize new' (newpos + bytes.length) (done ++ make bytes) := by
  have hpos := h.pos
  have hmostVal : (readMost : ℤ) = 0x7ffff000 := rfl
  have hint : (bytes.length : ℤ).bmod (2 ^ 32) = bytes.length :=
    Int.bmod_eq_of_le (by omega) (by omega)
  have hlong : (bytes.length : ℤ) ≤ (bz.left stream).length := by
    rw [hleft, List.length_append]
    omega
  obtain ⟨⟨read, stream'⟩, hread⟩ := Option.isSome_iff_exists.mp
    (bz.read_isSome (Int.natCast_nonneg bytes.length) hlong)
  obtain ⟨-, hbytes, hrest⟩ := bz.read_some hread
  rw [hleft, Int.toNat_natCast, List.take_left] at hbytes
  rw [hleft, Int.toNat_natCast, List.drop_left] at hrest
  rw [hbytes] at hread
  obtain ⟨new', hput, hfront⟩ := h.put (make bytes) (by rw [hmake]; exact hfit)
  rw [hmake] at hfront
  refine ⟨stream', new', ?_, hrest, hfront⟩
  have hbz : bzRead bz stream bytes.length = some (bytes, stream') := by
    unfold bzRead
    rw [hint, hread]
  unfold readPart
  rw [offSum_eq (by omega) (by omega), Option.bind_eq_bind, Option.bind_some,
    if_neg (by omega), hbz, Option.bind_eq_bind, Option.bind_some]
  dsimp only
  rw [hput, Option.bind_eq_bind, Option.bind_some, if_neg (by omega)]
  rfl

/-! ## A patch of pieces -/

theorem numberAt_append {front : List u8} {i : ℕ} (rest : List u8) (hi : front.length = i)
    (h : x.natAbs < 2 ^ 63) : numberAt (front ++ (offtout x ++ rest)) i = x := by
  unfold numberAt
  rw [List.drop_left' hi, List.take_left' (length_offtout x), offtin_offtout h]

theorem readCtrl_offtout {ctrl : bz.Stream} (h : x.natAbs < 2 ^ 63)
    (hleft : bz.left ctrl = offtout x ++ rest) :
    ∃ ctrl', readCtrl bz ctrl = some (x, ctrl') ∧ bz.left ctrl' = rest := by
  have hlong : (8 : ℤ) ≤ (bz.left ctrl).length := by
    rw [hleft, List.length_append, length_offtout]
    omega
  obtain ⟨⟨buf, ctrl'⟩, hread⟩ := Option.isSome_iff_exists.mp
    (bz.read_isSome (show (0 : ℤ) ≤ 8 by decide) hlong)
  obtain ⟨-, hbuf, hrest⟩ := bz.read_some hread
  have hbuf' : buf = offtout x := by
    rw [hbuf, hleft]
    exact List.take_left' (length_offtout x)
  refine ⟨ctrl', ?_, ?_⟩
  · have hbz : bzRead bz ctrl 8 = some (buf, ctrl') := hread
    unfold readCtrl
    rw [hbz, Option.bind_eq_bind, Option.bind_some]
    dsimp only
    rw [hbuf', length_offtout, if_neg (by decide), offtin_offtout h]
    rfl
  · rw [hrest, hleft]
    exact List.drop_left' (length_offtout x)

/-- Lengths and seeks of a piece that can be told. -/
structure Common.Piece.Fits (p : Piece u8) (old : List u8) : Prop where
  diff : p.diff.length < 2 ^ 31
  extra : p.extra.length < 2 ^ 31
  seek : p.seek.natAbs ≤ old.length

/-- The blocks tell the pieces, and so much is there of the new file. -/
structure Bspatch.Tells (st : Bspatch bz) (newsize : ℤ) (done : List u8)
    (ps : List (Piece u8)) : Prop where
  ctrl : bz.left st.ctrl = ctrlOf ps
  db : bz.left st.db = ps.flatMap Piece.diff
  eb : bz.left st.eb = ps.flatMap Piece.extra
  front : NewFront newsize st.new st.newpos done

/-- **A turn** takes a piece from the blocks. -/
theorem Bspatch.Tells.turn {st : Bspatch bz} {p : Piece u8} (h : st.Tells newsize done (p :: ps))
    (hp : p.Fits old) (hold : old.length ≤ readMost) (hmost : newsize ≤ readMost)
    (hfit : st.newpos + p.size ≤ newsize) (hplace : st.oldpos.natAbs < 2 ^ 62 + 2 ^ 61) :
    ∃ st', st.turn old newsize = some st' ∧
      st'.Tells newsize (done ++ addOld old st.oldpos p.diff ++ p.extra) ps ∧
      st'.newpos = st.newpos + p.size ∧ st'.oldpos = st.oldpos + p.diff.length + p.seek := by
  have hdiff := hp.diff
  have hextra := hp.extra
  have hseek := hp.seek
  have hmostVal : readMost = 0x7ffff000 := rfl
  have hctrl : bz.left st.ctrl = offtout p.diff.length ++ (offtout p.extra.length ++
      (offtout p.seek ++ ctrlOf ps)) := by
    rw [h.ctrl]
    unfold ctrlOf
    rw [List.flatMap_cons, List.append_assoc, List.append_assoc]
  have hdb : bz.left st.db = p.diff ++ ps.flatMap Piece.diff := by rw [h.db, List.flatMap_cons]
  have heb : bz.left st.eb = p.extra ++ ps.flatMap Piece.extra := by
    rw [h.eb, List.flatMap_cons]
  unfold Piece.size at hfit ⊢
  -- the three numbers, and then the two parts
  obtain ⟨ctrl₁, hx, h₁⟩ := readCtrl_offtout (by omega) hctrl
  obtain ⟨ctrl₂, hy, h₂⟩ := readCtrl_offtout (by omega) h₁
  obtain ⟨ctrl₃, hz, h₃⟩ := readCtrl_offtout (by omega) h₂
  obtain ⟨db, new₁, hpart₁, hdb', hfront₁⟩ := readPart_eq
    (length_addFirst old st.oldpos p.diff.length) h.front hmost hdb (by omega)
  obtain ⟨eb, new₂, hpart₂, heb', hfront₂⟩ := readPart_eq length_id hfront₁ hmost
    heb (by omega)
  rw [addFirst_eq old st.oldpos rfl, id] at hfront₂
  refine ⟨⟨ctrl₃, db, eb, st.oldpos + p.diff.length + p.seek,
    st.newpos + p.diff.length + p.extra.length, new₂⟩, ?_, ⟨h₃, hdb', heb', hfront₂⟩, ?_, rfl⟩
  swap
  · show st.newpos + p.diff.length + p.extra.length = _
    omega
  unfold Bspatch.turn
  simp only [Option.bind_eq_bind, hx, hy, hz, Option.bind_some, hpart₁, hpart₂,
    offSum_eq (show -2 ^ 63 ≤ st.oldpos + p.diff.length by omega) (by omega),
    offSum_eq (show -2 ^ 63 ≤ st.oldpos + p.diff.length + p.seek by omega) (by omega),
    Option.pure_def]

/-- **The loop** gives what the pieces tell. -/
theorem bspatchLoop_pieces {st : Bspatch bz} (h : st.Tells newsize done ps)
    (hps : ∀ p ∈ ps, p.Fits old) (hold : old.length ≤ readMost) (hmost : newsize ≤ readMost)
    (hsize : st.newpos + totalSize ps = newsize)
    (hplace : st.oldpos.natAbs + totalSize ps + ps.length * old.length < 2 ^ 62 + 2 ^ 61) :
    ∃ new, bspatchLoop old newsize st = some new ∧
      new.take newsize.toNat = done ++ rebuild old st.oldpos ps := by
  induction ps generalizing st done with
  | nil =>
    unfold totalSize at hsize
    have hpos := h.front.pos
    refine ⟨st.new, by rw [bspatchLoop, if_neg (by omega)], ?_⟩
    rw [rebuild, List.append_nil, show newsize.toNat = done.length by omega, h.front.front]
  | cons p ps ih =>
    have hseek := (hps p List.mem_cons_self).seek
    unfold totalSize at hsize hplace
    rw [List.length_cons, Nat.succ_mul] at hplace
    by_cases hmore : st.newpos < newsize
    · obtain ⟨st', hturn, htells, hnewpos, holdpos⟩ := h.turn (hps p List.mem_cons_self) hold
        hmost (by omega) (by omega)
      have hdiff : p.diff.length ≤ p.size := Nat.le_add_right _ _
      obtain ⟨new, hrun, hnew⟩ := ih htells (fun q hq => hps q (List.mem_cons_of_mem p hq))
        (by omega) (by omega)
      refine ⟨new, ?_, ?_⟩
      · rw [bspatchLoop, if_pos hmore]
        split
        · rename_i hnone
          rw [hturn] at hnone
          cases hnone
        · rename_i st'' hst
          rw [hturn] at hst
          obtain rfl := Option.some.inj hst
          exact hrun
      · rw [hnew, holdpos, rebuild, List.append_assoc, List.append_assoc, List.append_assoc]
    · -- the pieces that are left are empty
      have hpos := h.front.pos
      have hnothing : rebuild old st.oldpos (p :: ps) = [] := by
        refine List.length_eq_zero_iff.mp ?_
        rw [length_rebuild, totalSize]
        omega
      refine ⟨st.new, by rw [bspatchLoop, if_neg hmore], ?_⟩
      rw [hnothing, List.append_nil, show newsize.toNat = done.length by omega, h.front.front]

/-! ## The round trip -/

/-- What is known of `libbzip2`: the reader gives back what was compressed and
stops there, and the output is no more than twice the input and 600 bytes (its
documentation has 1% and 600 bytes). -/
structure Bzip2.Lawful (bz : Bzip2) : Prop where
  left_compress : ∀ xs rest, bz.left (bz.readOpen (bz.compress xs ++ rest)) = xs
  length_compress_le : ∀ xs, (bz.compress xs).length ≤ 2 * xs.length + 600

theorem length_ctrlOf (ps : List (Piece u8)) : (ctrlOf ps).length = 24 * ps.length := by
  induction ps with
  | nil => rfl
  | cons p ps ih =>
    have hcons : ctrlOf (p :: ps) = offtout p.diff.length ++ offtout p.extra.length ++
      offtout p.seek ++ ctrlOf ps := rfl
    rw [hcons, List.length_append, List.length_append, List.length_append, length_offtout,
      length_offtout, length_offtout, ih, List.length_cons]
    omega

theorem size_le_totalSize {p : Piece u8} (hp : p ∈ ps) : p.size ≤ totalSize ps := by
  induction ps with
  | nil => cases hp
  | cons q ps ih =>
    unfold totalSize
    rcases List.mem_cons.mp hp with rfl | hp
    · omega
    · have := ih hp
      omega

/-- What stands in front of the blocks, and the blocks behind it. -/
theorem header_read {x y z : ℤ} {patch : List u8} (blocks : List u8) (hx : x.natAbs < 2 ^ 63)
    (hy : y.natAbs < 2 ^ 63) (hz : z.natAbs < 2 ^ 63)
    (hpatch : patch = ascii "BSDIFF40" ++ offtout x ++ offtout y ++ offtout z ++ blocks) :
    32 ≤ patch.length ∧ patch.take 8 = ascii "BSDIFF40" ∧ numberAt patch 8 = x ∧
      numberAt patch 16 = y ∧ numberAt patch 24 = z ∧
      ∀ n, patch.drop (32 + n) = blocks.drop n := by
  set magic := ascii "BSDIFF40"
  have h8 : magic.length = 8 := rfl
  have h16 : (magic ++ offtout x).length = 16 := by
    rw [List.length_append, h8, length_offtout]
  have h24 : (magic ++ offtout x ++ offtout y).length = 24 := by
    rw [List.length_append, h16, length_offtout]
  have h32 : (magic ++ offtout x ++ offtout y ++ offtout z).length = 32 := by
    rw [List.length_append, h24, length_offtout]
  have hnumbers := And.intro (numberAt_append (offtout y ++ (offtout z ++ blocks)) h8 hx)
    (And.intro (numberAt_append (offtout z ++ blocks) h16 hy) (numberAt_append blocks h24 hz))
  refine ⟨?_, ?_, ?_, ?_, ?_, fun n => ?_⟩
  · rw [hpatch, List.length_append, h32]
    omega
  · rw [hpatch, List.append_assoc, List.append_assoc, List.append_assoc]
    exact List.take_left' h8
  · rw [hpatch, List.append_assoc, List.append_assoc, List.append_assoc]
    exact hnumbers.1
  · rw [hpatch, List.append_assoc, List.append_assoc]
    exact hnumbers.2.1
  · rw [hpatch, List.append_assoc]
    exact hnumbers.2.2
  · rw [hpatch, ← h32, ← List.drop_drop, List.drop_left]

/-- **The header** is read as it was written, and the three blocks are found. -/
theorem bspatch_header (hbz : bz.Lawful) (fresh : ℕ → u8) (hold : old.length ≤ readMost)
    (eb : List u8) {ctrl db : List u8} {newsize : ℕ} (hctrl : ctrl.length < 2 ^ 40)
    (hdb : db.length < 2 ^ 40) (hnew : newsize ≤ readMost) :
    ∃ st : Bspatch bz, bz.left st.ctrl = ctrl ∧ bz.left st.db = db ∧ bz.left st.eb = eb ∧
      NewFront newsize st.new st.newpos [] ∧ st.oldpos = 0 ∧
      bspatch bz fresh old (ascii "BSDIFF40" ++ offtout (bz.compress ctrl).length ++
        offtout (bz.compress db).length ++ offtout newsize ++ bz.compress ctrl ++
        bz.compress db ++ bz.compress eb) =
          (bspatchLoop old newsize st).map (List.take newsize) := by
  set c := bz.compress ctrl with hc
  set d := bz.compress db with hd
  set e := bz.compress eb with he
  have hmostVal : readMost = 0x7ffff000 := rfl
  have hclen : c.length ≤ 2 * ctrl.length + 600 := hbz.length_compress_le ctrl
  have hdlen : d.length ≤ 2 * db.length + 600 := hbz.length_compress_le db
  set patch := ascii "BSDIFF40" ++ offtout c.length ++ offtout d.length ++ offtout newsize ++ c ++
    d ++ e with hpatch
  have hblocks : patch = ascii "BSDIFF40" ++ offtout c.length ++ offtout d.length ++
      offtout newsize ++ (c ++ (d ++ e)) := by
    rw [hpatch, List.append_assoc _ c, List.append_assoc, List.append_assoc c]
  obtain ⟨hlong, hmagic, h8, h16, h24, hdrop⟩ := header_read (c ++ (d ++ e)) (by omega)
    (by omega) (by omega) hblocks
  have hctrlBlock : bz.left (bz.readOpen (patch.drop 32)) = ctrl := by
    have hfirst : patch.drop 32 = c ++ (d ++ e) := hdrop 0
    rw [hfirst]
    exact hbz.left_compress ctrl (d ++ e)
  have hdbBlock : bz.left (bz.readOpen (patch.drop (32 + (c.length : ℤ)).toNat)) = db := by
    rw [show (32 + (c.length : ℤ)).toNat = 32 + c.length by omega, hdrop, List.drop_left]
    exact hbz.left_compress db e
  have hebBlock : bz.left (bz.readOpen (patch.drop (32 + (c.length : ℤ) + d.length).toNat)) =
      eb := by
    have hlast := hbz.left_compress eb []
    rw [List.append_nil] at hlast
    rw [show (32 + (c.length : ℤ) + d.length).toNat = 32 + (c.length + d.length) by omega, hdrop,
      ← List.drop_drop, List.drop_left, List.drop_left]
    exact hlast
  have hsigns : ¬ ((c.length : ℤ) < 0 ∨ (d.length : ℤ) < 0 ∨ (newsize : ℤ) < 0) := by omega
  have hplaces : ¬ (32 + (c.length : ℤ) + d.length ≥ 2 ^ 63) := by omega
  have hone : ¬ ((newsize : ℤ) > readMost) := by omega
  refine ⟨⟨bz.readOpen (patch.drop 32), bz.readOpen (patch.drop (32 + (c.length : ℤ)).toNat),
    bz.readOpen (patch.drop (32 + (c.length : ℤ) + d.length).toNat), 0, 0,
    malloc fresh ((newsize : ℤ) + 1).toNat⟩, hctrlBlock, hdbBlock, hebBlock,
    ⟨rfl, rfl, ?_, ?_⟩, rfl, ?_⟩
  · rw [length_malloc]
    omega
  · exact Int.natCast_nonneg newsize
  · unfold bspatch
    simp only [if_neg (Nat.not_lt.mpr hlong), if_neg (not_not.mpr hmagic), h8, h16, h24,
      if_neg hsigns, if_neg hplaces, if_neg (Nat.not_lt.mpr hold), if_neg hone,
      Option.bind_eq_bind, Option.pure_def, Int.toNat_natCast]
    exact Option.map_eq_bind.symm

/-- **The round trip**: `bspatch` makes the new file out of the old one and
what `bsdiff` writes, whatever places of the old file its array holds. -/
theorem bspatch_bsdiff (hbz : bz.Lawful) (fresh : ℕ → u8) (hI : Places I old) (pos : ℤ)
    (hold : old.length ≤ 0x7ffff000) (hnew : new.length ≤ 0x7ffff000) :
    (bsdiff bz I pos old new).bind (bspatch bz fresh old) = some new := by
  obtain ⟨st, ps, hrun, hctrl, hdb, heb, hall, hlens, hcount, hseeks⟩ :=
    bsdiffLoop_describes hI new pos
  have hmostVal : readMost = 0x7ffff000 := rfl
  have hsize : totalSize ps = new.length := by rw [← length_rebuild, hall]
  have hfits : ∀ p ∈ ps, p.Fits old := by
    intro p hp
    have hle := size_le_totalSize hp
    unfold Piece.size at hle
    exact ⟨by omega, by omega, hseeks p hp⟩
  have hctrlLen : st.ctrl.length < 2 ^ 40 := by
    rw [hctrl, length_ctrlOf]
    omega
  -- no sum of places overflows
  have hplaces : ps.length * old.length ≤ (0x7ffff000 + 1) * 0x7ffff000 :=
    Nat.mul_le_mul (by omega) hold
  obtain ⟨st₀, hctrl₀, hdb₀, heb₀, hfront, holdpos, hheader⟩ := bspatch_header hbz fresh
    (show old.length ≤ readMost by omega) st.eb hctrlLen (show st.db.length < 2 ^ 40 by omega)
    (show new.length ≤ readMost by omega)
  have htells : st₀.Tells new.length [] ps :=
    ⟨hctrl₀.trans hctrl, hdb₀.trans hdb, heb₀.trans heb, hfront⟩
  have hnewpos : st₀.newpos = 0 := hfront.pos
  obtain ⟨mem, hloop, hmem⟩ := bspatchLoop_pieces htells hfits (by omega) (by omega)
    (by omega) (by rw [holdpos]; omega)
  rw [holdpos, hall, List.nil_append, Int.toNat_natCast] at hmem
  rw [bsdiff, if_neg (by omega), hrun, Option.bind_eq_bind, Option.bind_some]
  refine hheader.trans ?_
  rw [hloop, Option.map_some, hmem]

/-- Streams with what `libbzip2` makes of them. Any other stream has its length
in front. -/
def Bzip2.ofTable (table : List (List u8 × List u8)) : Bzip2 where
  compress xs := ((table.find? fun e => e.1 = xs).map Prod.snd).getD
    (List.replicate (xs.length + 1) 0 ++ 1 :: xs)
  Stream := List u8
  readOpen ys := ((table.find? fun e => e.2.take 14 = ys.take 14).map Prod.fst).getD
    ((ys.dropWhile (· = 0)).tail.take ((ys.takeWhile (· = 0)).length - 1))
  read stream len :=
    if 0 ≤ len ∧ len ≤ stream.length then some (stream.take len.toNat, stream.drop len.toNat)
    else none
  left stream := stream
  read_some h := by
    split_ifs at h with hlen
    obtain ⟨rfl, rfl⟩ := Prod.mk.inj (Option.some.inj h)
    exact ⟨hlen.1, rfl, rfl⟩
  read_isSome hpos hle := by rw [if_pos ⟨hpos, hle⟩, Option.isSome_some]

/-- The blocks for a file `radare` and a file `radare2`. -/
def blocksOfTwo : List (List u8 × List u8) :=
  [(offtout 6 ++ offtout 1 ++ offtout (-5),
    [66, 90, 104, 57, 49, 65, 89, 38, 83, 89, 128, 47, 62, 95, 0, 0, 8, 192, 64, 123, 0, 64, 0, 32,
      0, 49, 12, 0, 196, 194, 74, 217, 2, 162, 182, 241, 119, 36, 83, 133, 9, 8, 2, 243, 229, 240]),
   ([0, 0, 0, 0, 0, 0],
    [66, 90, 104, 57, 49, 65, 89, 38, 83, 89, 197, 133, 67, 141, 0, 0, 0, 64, 0, 80, 0, 32, 0, 33,
      0, 130, 131, 23, 114, 69, 56, 80, 144, 197, 133, 67, 141]),
   ([50],
    [66, 90, 104, 57, 49, 65, 89, 38, 83, 89, 108, 71, 22, 181, 0, 0, 0, 8, 0, 16, 0, 32, 0, 33,
      24, 70, 130, 238, 72, 167, 10, 18, 13, 136, 226, 214, 160])]

theorem lawful_blocksOfTwo : (Bzip2.ofTable blocksOfTwo).Lawful := by
  have hfound : ∀ e ∈ blocksOfTwo, (blocksOfTwo.find? fun e' => e'.2.take 14 = e.2.take 14) =
      some e ∧ 14 ≤ e.2.length ∧ e.2.length ≤ 600 ∧ e.2.head? = some 66 := by decide
  refine ⟨fun xs rest => ?_, fun xs => ?_⟩
  · cases hxs : blocksOfTwo.find? fun e => e.1 = xs with
    | some e =>
      obtain ⟨hback, hlong, -, -⟩ := hfound e (List.mem_of_find?_eq_some hxs)
      have hfst : e.1 = xs := by simpa using List.find?_some hxs
      have htake : (e.2 ++ rest).take 14 = e.2.take 14 := List.take_append_of_le_length hlong
      unfold Bzip2.ofTable
      dsimp only
      rw [hxs, Option.map_some, Option.getD_some, htake, hback, Option.map_some, Option.getD_some,
        hfst]
    | none =>
      have hmiss : (blocksOfTwo.find? fun e => e.2.take 14 =
          (List.replicate (xs.length + 1) 0 ++ 1 :: xs ++ rest).take 14) = none := by
        refine List.find?_eq_none.mpr fun e he heq => ?_
        obtain ⟨-, -, -, hhead⟩ := hfound e he
        have hheads := congrArg List.head? (of_decide_eq_true heq)
        rw [List.head?_take, hhead, List.replicate_succ] at hheads
        cases hheads
      have hzeros : ((List.replicate (xs.length + 1) (0 : u8) ++ 1 :: xs ++ rest).takeWhile
          (· = 0)) = List.replicate (xs.length + 1) 0 := by
        rw [List.append_assoc, List.takeWhile_append_of_pos (by simp)]
        simp
      have hrest : ((List.replicate (xs.length + 1) (0 : u8) ++ 1 :: xs ++ rest).dropWhile
          (· = 0)) = 1 :: (xs ++ rest) := by
        rw [List.append_assoc, List.dropWhile_append_of_pos (by simp)]
        simp
      unfold Bzip2.ofTable
      dsimp only
      rw [hxs, Option.map_none, Option.getD_none, hmiss, Option.map_none, Option.getD_none, hzeros,
        hrest, List.length_replicate, List.tail_cons, Nat.add_sub_cancel, List.take_left]
  · cases hxs : blocksOfTwo.find? fun e => e.1 = xs with
    | some e =>
      obtain ⟨-, -, hshort, -⟩ := hfound e (List.mem_of_find?_eq_some hxs)
      unfold Bzip2.ofTable
      dsimp only
      rw [hxs, Option.map_some, Option.getD_some]
      omega
    | none =>
      unfold Bzip2.ofTable
      dsimp only
      rw [hxs, Option.map_none, Option.getD_none, List.length_append, List.length_replicate,
        List.length_cons]
      omega

theorem bspatch_bsdiff_two :
    (bsdiff (Bzip2.ofTable blocksOfTwo) [6, 1, 3, 2, 5, 0, 4] 0 (ascii "radare")
      (ascii "radare2")).bind (bspatch (Bzip2.ofTable blocksOfTwo) (fun _ => 0)
        (ascii "radare")) = some (ascii "radare2") :=
  bspatch_bsdiff lawful_blocksOfTwo (fun _ => 0) places_radare 0 (by decide) (by decide)

/-! ## Any patch -/

/-- The control block begins with the numbers of the pieces. -/
def TellsCtrl : List u8 → List (Piece u8) → Prop
  | _, [] => True
  | ctrl, p :: ps => 24 ≤ ctrl.length ∧ numberAt ctrl 0 = p.diff.length ∧
      numberAt ctrl 8 = p.extra.length ∧ numberAt ctrl 16 = p.seek ∧ TellsCtrl (ctrl.drop 24) ps

theorem numberAt_drop (block : List u8) (i j : ℕ) :
    numberAt (block.drop i) j = numberAt block (i + j) := by
  unfold numberAt
  rw [List.drop_drop]

/-- Once before the new file, the loop does not come to its end. -/
theorem bspatchLoop_back {st : Bspatch bz} (hnew : 0 ≤ newsize) (hback : st.newpos < 0) :
    bspatchLoop old newsize st = none := by
  fun_induction bspatchLoop old newsize st with
  | case1 st hmore hnone => rfl
  | case2 st hmore st' hturn ih =>
    obtain ⟨x, y, z, ctrl₁, ctrl₂, new, newpos, oldpos, -, -, -, hdiff, -, hextra, -⟩ :=
      Bspatch.turn_some hturn
    have hback₁ := readPart_back (length_addFirst old st.oldpos x) hback hdiff
    exact ih (readPart_back length_id hback₁ hextra)
  | case3 st hdone => omega

/-- **The loop, over any blocks**: what is written has the size of the header,
and pieces tell it. -/
theorem bspatchLoop_sound {st : Bspatch bz} {out : List u8} (hnew : 0 ≤ newsize)
    (hmost : newsize ≤ readMost) (hfront : NewFront newsize st.new st.newpos done)
    (h : bspatchLoop old newsize st = some out) :
    ∃ ps, out.take newsize.toNat = done ++ rebuild old st.oldpos ps ∧
      ((out.take newsize.toNat).length : ℤ) = newsize ∧ TellsCtrl (bz.left st.ctrl) ps ∧
      ps.flatMap Piece.diff <+: bz.left st.db ∧ ps.flatMap Piece.extra <+: bz.left st.eb := by
  fun_induction bspatchLoop old newsize st generalizing done with
  | case1 st hmore hnone => cases h
  | case2 st hmore st' hturn ih =>
    obtain ⟨x, y, z, ctrl₁, ctrl₂, new, newpos, oldpos, hx, hy, hz, hdiff, hold, hextra, hold'⟩ :=
      Bspatch.turn_some hturn
    obtain ⟨-, hx₀, hx₁⟩ := readCtrl_some hx
    obtain ⟨-, hy₀, hy₁⟩ := readCtrl_some hy
    obtain ⟨hlong, hz₀, hz₁⟩ := readCtrl_some hz
    rw [hx₁, numberAt_drop] at hy₀
    rw [hy₁, hx₁, List.drop_drop, numberAt_drop] at hz₀
    rw [hy₁, hx₁, List.drop_drop] at hz₁ hlong
    rw [List.drop_drop] at hz₁
    rw [List.length_drop] at hlong
    -- a part that goes back before the new file is never made good
    rcases readPart_some (length_addFirst old st.oldpos x) hfront hmost hdiff with
      hback | ⟨diff, hdb, hdiffLen, hfront₁⟩
    · have hback' := readPart_back length_id hback hextra
      rw [bspatchLoop_back hnew hback'] at h
      cases h
    rcases readPart_some length_id hfront₁ hmost hextra with
      hback | ⟨extra, heb, hextraLen, hfront₂⟩
    · rw [bspatchLoop_back hnew hback] at h
      cases h
    rw [addFirst_eq old st.oldpos hdiffLen, id] at hfront₂
    obtain ⟨ps, hout, hlen, htells, hdiffs, hextras⟩ := ih hfront₂ h
    have hpos := (offSum_some hold).1
    have hpos' := (offSum_some hold').1
    refine ⟨⟨diff, extra, z⟩ :: ps, ?_, hlen, ?_, ?_, ?_⟩
    · rw [hout, hpos', hpos, rebuild, List.append_assoc, List.append_assoc, List.append_assoc,
        ← hdiffLen]
    · refine ⟨by omega, by rw [hdiffLen, hx₀], by rw [hextraLen, hy₀], hz₀.symm, ?_⟩
      rw [← hz₁]
      exact htells
    · rw [List.flatMap_cons, hdb]
      exact (List.prefix_append_right_inj diff).mpr hdiffs
    · rw [List.flatMap_cons, heb]
      exact (List.prefix_append_right_inj extra).mpr hextras
  | case3 st hdone =>
    obtain rfl := Option.some.inj h
    have hpos := hfront.pos
    have hle := hfront.le
    have hsize : newsize.toNat = done.length := by omega
    refine ⟨[], ?_, ?_, trivial, List.nil_prefix, List.nil_prefix⟩
    · rw [hsize, hfront.front, rebuild, List.append_nil]
    · rw [hsize, hfront.front]
      omega

/-- **Any patch that is accepted**: the file written has exactly the size of
the header, and the old file with the pieces of the three blocks gives it. -/
theorem bspatch_sound {patch out : List u8} (h : bspatch bz fresh old patch = some out) :
    ∃ ps, out = rebuild old 0 ps ∧ (out.length : ℤ) = numberAt patch 24 ∧
      TellsCtrl (bz.left (bz.readOpen (patch.drop 32))) ps ∧
      ps.flatMap Piece.diff <+:
        bz.left (bz.readOpen (patch.drop (32 + numberAt patch 8).toNat)) ∧
      ps.flatMap Piece.extra <+:
        bz.left (bz.readOpen (patch.drop (32 + numberAt patch 8 + numberAt patch 16).toNat)) := by
  unfold bspatch at h
  dsimp only at h
  split_ifs at h with hlong hmagic hsigns hplaces hold hmost
  · exact absurd h (by simp)
  rw [Option.bind_eq_bind, Option.bind_eq_some_iff] at h
  obtain ⟨new, hloop, hout⟩ := h
  obtain rfl := Option.some.inj hout
  have hfront : NewFront (numberAt patch 24) (malloc fresh (numberAt patch 24 + 1).toNat) 0 [] := by
    refine ⟨rfl, rfl, ?_, by omega⟩
    rw [length_malloc]
    omega
  exact bspatchLoop_sound (by omega) (by omega) hfront hloop

/-- The piece of a file `radare2` beside a file `radare`. -/
def pieceOfTwo : Piece u8 := ⟨[0, 0, 0, 0, 0, 0], [50], -5⟩

theorem bspatch_two : bspatch (Bzip2.ofTable blocksOfTwo) (fun _ => 0) (ascii "radare")
    (ascii "BSDIFF40" ++ offtout 46 ++ offtout 37 ++ offtout 7 ++
      (blocksOfTwo.map Prod.snd).flatten) = some (ascii "radare2") := by
  obtain ⟨st, hctrl, hdb, heb, hfront, holdpos, hheader⟩ := bspatch_header lawful_blocksOfTwo
    (fun _ => 0) (show (ascii "radare").length ≤ readMost by decide) [50]
    (show (ctrlOf [pieceOfTwo]).length < 2 ^ 40 by decide)
    (show ([0, 0, 0, 0, 0, 0] : List u8).length < 2 ^ 40 by decide)
    (show 7 ≤ readMost by decide)
  have hfits : ∀ p ∈ [pieceOfTwo], p.Fits (ascii "radare") := by
    intro p hp
    rw [List.mem_singleton.mp hp]
    exact ⟨by decide, by decide, by decide⟩
  have hnewpos : st.newpos = 0 := hfront.pos
  obtain ⟨mem, hloop, hmem⟩ := bspatchLoop_pieces ⟨hctrl, hdb, heb, hfront⟩ hfits (by decide)
    (by decide) (by rw [hnewpos]; decide) (by rw [holdpos]; decide)
  refine hheader.trans ?_
  rw [hloop, Option.map_some]
  rw [holdpos] at hmem
  exact congrArg some hmem

theorem bspatch_sound_two : ∃ ps, ascii "radare2" = rebuild (ascii "radare") 0 ps ∧
    ((ascii "radare2").length : ℤ) = numberAt (ascii "BSDIFF40" ++ offtout 46 ++ offtout 37 ++
      offtout 7 ++ (blocksOfTwo.map Prod.snd).flatten) 24 := by
  obtain ⟨ps, hout, hlen, -⟩ := bspatch_sound bspatch_two
  exact ⟨ps, hout, hlen⟩

end Radare
