import Radare.Rio.Model
/-!
# What a seek and a read do to the program

A seek moves `config.seek` and the position, and a read the position and
the block: the file, the undo list and every setting stay, which is what
`State.core` keeps (`core_radareSeek`, `core_radareRead`). Without a base
address a seek goes to the offset given (`radareSeek_eq`), and off the
maps a read takes the file's bytes there (`radareReadAt_data`), and that
is all the rest of the development has to know of them.
-/

namespace Radare

variable {fresh : ℕ → u8} {s s' : State} {off : ut64} {data buf file : List u8} {p n : ℕ}

/-- The part of the program a seek and a read leave alone. -/
structure Core where
  file : List u8
  ioMaps : List IoMap
  sections : List SectionT
  writeMask : Option (List u8)
  undoWList : List UndoW
  undoWLock : Bool
  vaddr : ut64
  eval : Eval

/-- The core of a state. -/
def State.core (s : State) : Core :=
  ⟨s.file, s.ioMaps, s.sections, s.writeMask, s.undoWList, s.undoWLock, s.config.vaddr, s.eval⟩

/-- No map gives bytes at an offset. -/
def Core.Unmapped (c : Core) (off : ut64) (len : ℕ) : Prop :=
  ioMapReadAt c.ioMaps off (UInt64.ofNat len) = []

theorem Core.unmapped_of_nil {c : Core} (h : c.ioMaps = []) : c.Unmapped off n := by
  unfold Core.Unmapped
  rw [h]
  rfl

/-! ## The core stays -/

theorem core_ioLseek : (ioLseek s off).core = s.core := by
  unfold ioLseek
  split_ifs <;> rfl

theorem core_sectionAlign (addr vaddr paddr : ut64) :
    (sectionAlign s addr vaddr paddr).1.core = s.core := by
  unfold sectionAlign
  split_ifs
  · rfl
  · split <;> rfl

/-- **A seek leaves the core alone.** -/
theorem core_radareSeek (whence : Whence) : (radareSeek s off whence).1.core = s.core := by
  have hseek : ∀ (t : State) (x : ut64), State.core { t with config.seek := x } = t.core :=
    fun _ _ => rfl
  unfold radareSeek
  split_ifs with h h'
  · rfl
  · rfl
  all_goals
    simp only [hseek, core_ioLseek]
    split_ifs
    all_goals simp only [core_sectionAlign, hseek]

theorem core_ioRead : (ioRead s n).1.core = s.core := by
  unfold ioRead
  dsimp only
  split_ifs <;> rfl

theorem core_radareReadAt : (radareReadAt s off buf).1.core = s.core := by
  unfold radareReadAt
  rw [core_radareSeek, core_ioRead, core_radareSeek]

/-- **A read of the block leaves the core alone.** -/
theorem core_radareRead (next : Bool) : (radareRead s next).1.core = s.core := by
  have hblock : ∀ (t : State) (b : List u8), State.core { t with config.block := b } = t.core :=
    fun _ _ => rfl
  unfold radareRead
  split_ifs
  · rfl
  all_goals simp only [hblock, core_ioRead, core_radareSeek]

theorem core_radareOpen : (radareOpen s).core = s.core := by
  unfold radareOpen
  rw [core_ioLseek]
  rfl

/-! ## Without a base address -/

/-- The state with `config.seek` and the position at an offset. -/
def State.seekTo (s : State) (off : ut64) : State :=
  { s with pos := off.toNat, config := { s.config with seek := off } }

/-- A seek anywhere but to the last offset goes there, also where the
descriptor does not. -/
theorem radareSeek_goes (hs : s.config.vaddr = 0) (hoff : off ≠ -1) :
    (radareSeek s off .set).1 =
      { ioLseek s off with config := { s.config with seek := off } } := by
  have hend : ¬(Whence.set = Whence.end_ ∧ s.config.size = -1) := by
    rintro ⟨h, -⟩
    cases h
  have hconfig : (ioLseek s off).config = s.config := by
    unfold ioLseek
    split_ifs <;> rfl
  unfold radareSeek
  rw [if_neg hoff, if_neg hend]
  simp only [hs, ne_eq, not_true_eq_false, decide_false, reduceCtorEq, if_false, if_true,
    Bool.false_eq_true, false_and, hconfig]

/-- And to the last one it goes nowhere. -/
theorem radareSeek_last : (radareSeek s (-1) .set).1 = s := by
  unfold radareSeek
  rw [if_pos rfl]

theorem ne_last (h : off.toNat < 2 ^ 64 - 1) : off ≠ -1 := by
  rintro rfl
  exact absurd h (by decide)

/-- Without a base address the seek is where it was sent. -/
theorem seek_plain (hs : s.config.vaddr = 0) :
    (radareSeek s off .set).1.config.seek = if off = -1 then s.config.seek else off := by
  by_cases hoff : off = -1
  · rw [if_pos hoff, hoff, radareSeek_last]
  · rw [if_neg hoff, radareSeek_goes hs hoff]

/-- A seek to an offset the descriptor takes. -/
theorem radareSeek_eq (hs : s.config.vaddr = 0) (hoff : off.toNat < 2 ^ 63) :
    (radareSeek s off .set).1 = s.seekTo off := by
  rw [radareSeek_goes hs (ne_last (by omega))]
  unfold ioLseek
  rw [if_pos hoff]
  rfl

/-- Off the maps a read takes the file's bytes at the position, no more than
one can. -/
theorem ioRead_eq (hs : s.core.Unmapped s.config.seek n) :
    ioRead s n = ({ s with pos := s.pos + ((s.file.drop s.pos).take (min n readMost)).length },
      ((s.file.drop s.pos).take (min n readMost)).length,
      (s.file.drop s.pos).take (min n readMost)) := by
  have hdata : ioMapReadAt s.ioMaps s.config.seek (UInt64.ofNat n) = [] := hs
  unfold ioRead
  simp only [hdata, ne_eq, not_true_eq_false, if_false]

/-- **Bytes read inside the file are the file's**, as far as one read goes. -/
theorem radareReadAt_data (hv : s.config.vaddr = 0) (hs : s.core.Unmapped off buf.length)
    (hoff : off.toNat + buf.length ≤ s.file.length) (hfile : s.file.length < 2 ^ 63) :
    (radareReadAt s off buf).2.take readMost =
      (s.file.drop off.toNat).take (min buf.length readMost) := by
  have hlen : ((s.file.drop off.toNat).take (min buf.length readMost)).length =
      min buf.length readMost := by
    rw [List.length_take, List.length_drop]
    omega
  have hmaps : (s.seekTo off).core.Unmapped (s.seekTo off).config.seek buf.length := hs
  unfold radareReadAt
  simp only [radareSeek_eq hv (by omega : off.toNat < 2 ^ 63), ioRead_eq hmaps]
  show (overlay buf ((s.file.drop off.toNat).take (min buf.length readMost))).take readMost = _
  unfold overlay
  rw [hlen]
  rcases Nat.le_total buf.length readMost with hle | hle
  · rw [min_eq_left hle, List.drop_length, List.append_nil, List.take_take,
      Nat.min_eq_right hle]
  · rw [min_eq_right hle] at hlen ⊢
    rw [List.take_append_of_le_length hlen.ge, List.take_take, Nat.min_self]

/-- A read seeks back: over offsets the descriptor takes only the last
seek is seen. -/
theorem radareReadAt_eq (hv : s.config.vaddr = 0) (hs : s.core.Unmapped off buf.length)
    (hoff : off.toNat < 2 ^ 63) (hseek : s.config.seek.toNat < 2 ^ 63) :
    (radareReadAt s off buf).1 = s.seekTo s.config.seek := by
  have hmaps : (s.seekTo off).core.Unmapped (s.seekTo off).config.seek buf.length := hs
  unfold radareReadAt
  simp only [radareSeek_eq hv hoff, ioRead_eq hmaps]
  exact radareSeek_eq hv hseek

/-- Wherever it reads, a read seeks back. -/
theorem pos_radareReadAt (hv : s.config.vaddr = 0) (hseek : s.config.seek.toNat < 2 ^ 63) :
    (radareReadAt s off buf).1.pos = s.config.seek.toNat := by
  have hcore : (ioRead (radareSeek s off .set).1 buf.length).1.core = s.core := by
    rw [core_ioRead, core_radareSeek]
  have hvaddr : (ioRead (radareSeek s off .set).1 buf.length).1.config.vaddr = 0 :=
    (congrArg Core.vaddr hcore).trans hv
  unfold radareReadAt
  dsimp only
  rw [radareSeek_eq hvaddr hseek]
  rfl

/-! ## How much is read -/

/-- A map gives no more bytes than are asked for. -/
theorem ioMapReadAt_length_le {maps : List IoMap} :
    (ioMapReadAt maps off (UInt64.ofNat n)).length ≤ n := by
  have hn : (UInt64.ofNat n).toNat ≤ n := by
    rw [UInt64.toNat_ofNat']
    exact Nat.mod_le _ _
  unfold ioMapReadAt
  split
  · exact Nat.zero_le _
  · rename_i im hfind
    have him : off ≥ im.from_ ∧ off < im.to_ := by
      have := List.find?_some hfind
      simp only [decide_eq_true_eq] at this
      exact this.2
    refine (List.length_take_le _ _).trans ((Nat.min_le_left _ _).trans (le_trans ?_ hn))
    split_ifs with hover
    · -- the sum cannot have wrapped, so the rest of the map is the shorter one
      have hlt := him.2
      have hover' : im.to_ < off + UInt64.ofNat n := hover
      generalize UInt64.ofNat n = len at hover' ⊢
      rw [UInt64.lt_iff_toNat_lt] at hlt hover'
      rw [UInt64.toNat_sub_of_le _ _ (UInt64.le_iff_toNat_le.mpr hlt.le)]
      rw [UInt64.toNat_add] at hover'
      have := Nat.mod_le (off.toNat + len.toNat) (2 ^ 64)
      omega
    · exact Nat.le_refl _

theorem ioRead_length_le : (ioRead s n).2.2.length ≤ n := by
  unfold ioRead
  dsimp only
  split_ifs
  · exact ioMapReadAt_length_le
  · exact (List.length_take_le _ _).trans (Nat.min_le_left _ _)

/-- The buffer keeps its length. -/
theorem length_radareReadAt : (radareReadAt s off buf).2.length = buf.length := by
  have hle := ioRead_length_le (s := (radareSeek s off .set).1) (n := buf.length)
  unfold radareReadAt overlay
  dsimp only
  rw [List.length_append, List.length_drop]
  exact Nat.add_sub_cancel' hle

/-! ## The block -/

/-- A block of a file: its bytes, and `0xff` behind its end. -/
def blockAt (file : List u8) (p n : ℕ) : List u8 :=
  overlay (List.replicate n 0xff) ((file.drop p).take n)

@[simp] theorem blockAt_length : (blockAt file p n).length = n := by
  unfold blockAt overlay
  simp only [List.length_append, List.length_take, List.length_drop, List.length_replicate]
  omega

theorem blockAt_getElem? {i : ℕ} (hi : i < n) :
    (blockAt file p n)[i]? = some (file.getD (p + i) 0xff) := by
  unfold blockAt overlay
  rw [List.getD_eq_getElem?_getD]
  by_cases hfile : p + i < file.length
  · have hlt : i < ((file.drop p).take n).length := by
      rw [List.length_take, List.length_drop]
      omega
    rw [List.getElem?_append_left hlt, List.getElem?_take_of_lt hi, List.getElem?_drop,
      List.getElem?_eq_getElem hfile]
    rfl
  · have hle : ((file.drop p).take n).length ≤ i := by
      rw [List.length_take, List.length_drop]
      omega
    have hnone : file[p + i]? = none := List.getElem?_eq_none (by omega)
    rw [List.getElem?_append_right hle, List.getElem?_drop, Nat.add_sub_cancel' hle, hnone,
      List.getElem?_replicate, if_pos hi]
    rfl

theorem blockAt_behind (hp : file.length ≤ p) : blockAt file p n = List.replicate n 0xff := by
  unfold blockAt overlay
  rw [List.drop_eq_nil_of_le hp, List.take_nil]
  rfl

/-- A program that seeks and reads have moved. -/
structure State.Moved (s t : State) : Prop where
  core : t.core = s.core
  block : t.config.block.length = s.config.block.length
  interrupted : t.config.interrupted = s.config.interrupted

theorem State.Moved.trans {u : State} (h : s.Moved s') (h' : s'.Moved u) : s.Moved u :=
  ⟨h'.core.trans h.core, h'.block.trans h.block, h'.interrupted.trans h.interrupted⟩

theorem moved_radareSeek (hs : s.config.vaddr = 0) : s.Moved (radareSeek s off .set).1 := by
  refine ⟨core_radareSeek _, ?_, ?_⟩
  all_goals
    by_cases h : off = -1
    · rw [h, radareSeek_last]
    · rw [radareSeek_goes hs h]

/-- The block read where the descriptor is. -/
def State.fill (s : State) : State :=
  { s with
    pos := s.pos + ((s.file.drop s.pos).take s.config.block.length).length
    config := { s.config with block := blockAt s.file s.pos s.config.block.length } }

theorem moved_fill : s.Moved s.fill := ⟨rfl, blockAt_length, rfl⟩

/-- **`radare_read` without maps** is a seek, and the block there. -/
theorem radareRead_fill (hv : s.config.vaddr = 0) (hm : s.ioMaps = [])
    (hmost : s.config.block.length ≤ readMost) (hne : s.config.seek ≠ -1)
    (next : Bool) (hoff : off = if next then s.config.seek + UInt64.ofNat s.config.block.length
      else s.config.seek) :
    radareRead s next = ((radareSeek s off .set).1.fill,
      (((radareSeek s off .set).1.file.drop (radareSeek s off .set).1.pos).take
        s.config.block.length).length) := by
  have hmoved : s.Moved (radareSeek s off .set).1 := moved_radareSeek hv
  have hmaps : (radareSeek s off .set).1.core.Unmapped (radareSeek s off .set).1.config.seek
      s.config.block.length :=
    Core.unmapped_of_nil ((congrArg Core.ioMaps hmoved.core).trans hm)
  unfold radareRead State.fill
  simp only [if_neg hne, ← hoff, ioRead_eq hmaps, hmoved.block, Nat.min_eq_left hmost]
  rfl

/-- **The block of an offset.** The descriptor does not follow a seek to
`2 ^ 63` or more, but is behind the end of the file then. -/
theorem fill_radareSeek (hv : s.config.vaddr = 0)
    (hsmall : s.file.length + s.config.block.length < 2 ^ 63) (hoff : off ≠ -1)
    (hpos : 2 ^ 63 ≤ off.toNat → s.file.length ≤ s.pos) :
    let t := (radareSeek s off .set).1.fill
    t.config.block = blockAt s.file off.toNat s.config.block.length ∧
      (2 ^ 63 ≤ off.toNat + s.config.block.length → s.file.length ≤ t.pos) := by
  dsimp only
  rcases Nat.lt_or_ge off.toNat (2 ^ 63) with hlt | hge
  · rw [radareSeek_eq hv hlt]
    unfold State.fill State.seekTo
    dsimp only
    refine ⟨rfl, fun h => ?_⟩
    rw [List.length_take, List.length_drop]
    omega
  · have hstay : ioLseek s off = s := if_neg (by omega)
    have hbehind := hpos hge
    rw [radareSeek_goes hv hoff, hstay]
    unfold State.fill
    dsimp only
    refine ⟨?_, fun _ => hbehind.trans (Nat.le_add_right _ _)⟩
    rw [blockAt_behind hbehind, blockAt_behind (by omega)]

/-- The state with the block read at one offset and the seek at another. -/
def State.load (s : State) (src seek : ut64) : State :=
  { s with
    pos := src.toNat + ((s.file.drop src.toNat).take s.config.block.length).length
    config :=
      { s.config with
        seek := seek
        block := blockAt s.file src.toNat s.config.block.length } }

/-- The last read is the one seen. -/
theorem State.load_load {src seek src' seek' : ut64} :
    (s.load src seek).load src' seek' = s.load src' seek' := by
  unfold State.load
  simp only [blockAt_length]

/-- **Where the descriptor follows**: the block of the seek, or of the next
one, and how much of it the file has. -/
theorem radareRead_eq (hv : s.config.vaddr = 0) (hm : s.ioMaps = [])
    (hmost : s.config.block.length ≤ readMost) (hseek : s.config.seek.toNat < 2 ^ 63) (next : Bool)
    (hoff : off = if next then s.config.seek + UInt64.ofNat s.config.block.length else s.config.seek)
    (hlt : off.toNat < 2 ^ 63) :
    radareRead s next =
      (s.load off off, ((s.file.drop off.toNat).take s.config.block.length).length) := by
  rw [radareRead_fill hv hm hmost (ne_last (by omega)) next hoff, radareSeek_eq hv hlt]
  rfl

end Radare
