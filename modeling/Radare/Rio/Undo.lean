import Radare.Rio.Frame
import Radare.Common.Patch
/-!
# What is recorded can be undone

The undo list is a list of patches: the bytes that were there when a
write was recorded. While every byte written is in a patch of the list,
putting the patches back gives the file as it was (`Core.Undoable`), be
the record new or found already there. `undo_write_new` records the bytes
of one copy, so this is kept by every writer that writes one copy.
-/

namespace Radare

open Common

variable {fresh : ℕ → u8} {s s' : State} {off : ut64} {data file orig : List u8} {p n x : ℕ}

/-! ## Files as maps -/

/-- The bytes of a file by their offsets. -/
def contents (file : List u8) : ℕ → u8 := fun x => file[x]?.getD 0

/-- Bytes at an offset. -/
def patchAt (p : ℕ) (data : List u8) : Patch ℕ u8 := fun x => if p ≤ x then data[x - p]? else none

/-- The old bytes of a record, as far as one write goes. -/
def UndoW.patch (u : UndoW) : Patch ℕ u8 := patchAt u.off.toNat (u.o.take readMost)

theorem patchAt_eq_none_iff : patchAt p data x = none ↔ ¬(p ≤ x ∧ x < p + data.length) := by
  unfold patchAt
  split_ifs with h
  · rw [List.getElem?_eq_none_iff]
    omega
  · simp [h]

theorem fileWrite_length (h : p + data.length ≤ file.length) :
    (fileWrite file p data).length = file.length := by
  unfold fileWrite
  split_ifs with hd
  · rfl
  · simp only [List.length_append, List.length_take, List.length_replicate, List.length_drop]
    omega

/-- **A write inside the file puts its bytes over what was there.** -/
theorem contents_fileWrite (h : p + data.length ≤ file.length) :
    contents (fileWrite file p data) = (patchAt p data).put (contents file) := by
  have hgrow : p - file.length = 0 := by omega
  have htake : (file.take p).length = p := by
    rw [List.length_take]
    omega
  ext1 x
  unfold fileWrite contents Patch.put patchAt
  rw [hgrow, List.replicate_zero, List.append_nil]
  split_ifs with hd hx hx
  · simp [hd]
  · rfl
  · rw [List.append_assoc, List.getElem?_append_right (by omega), htake]
    by_cases hlt : x - p < data.length
    · rw [List.getElem?_append_left hlt, List.getElem?_eq_getElem hlt]
      rfl
    · have hx' : p + data.length + (x - p - data.length) = x := by omega
      rw [List.getElem?_append_right (by omega), List.getElem?_drop, hx',
        List.getElem?_eq_none (by omega : data.length ≤ x - p)]
      rfl
  · rw [List.append_assoc, List.getElem?_append_left (by omega),
      List.getElem?_take_of_lt (by omega)]
    rfl

/-- Two files of one length with the same bytes are equal. -/
theorem eq_of_contents (hlen : file.length = orig.length) (h : contents file = contents orig) :
    file = orig := by
  refine List.ext_getElem hlen fun x hx hx' => ?_
  have hbyte := congrFun h x
  unfold contents at hbyte
  rwa [List.getElem?_eq_getElem hx, List.getElem?_eq_getElem hx'] at hbyte

/-! ## The invariant -/

/-- Nothing stands between a write and the file. -/
structure Core.Direct (c : Core) : Prop where
  sections : c.sections = []
  vaddr : c.vaddr = 0
  writeMask : c.writeMask = none

/-- **The file can be put back**: every record lies inside it, and the
old bytes put back give the original. The writes go to the file, and are
recorded. -/
structure Core.Undoable (orig : List u8) (c : Core) : Prop extends c.Direct where
  undowrite : c.eval.undowrite = true
  undoWLock : c.undoWLock = false
  length : c.file.length = orig.length
  inside : ∀ u ∈ c.undoWList, u.o.length = u.n.length ∧ u.off.toNat + u.o.length ≤ orig.length
  restores : restore (c.undoWList.map UndoW.patch) (contents c.file) = contents orig
  /-- A file that is not open for writing is not written. -/
  idle : c.eval.write = false → c.file = orig

/-- A record covers the bytes of a write: it has its offset and as many
old bytes. -/
def Core.Covers (c : Core) (off : ut64) (len : ℕ) : Prop :=
  ∃ u ∈ c.undoWList, u.off = off ∧ u.o.length = len

/-! ## Recording -/

/-- A state with a record more. -/
def State.record (s : State) (u : UndoW) : State := { s with undoWList := s.undoWList ++ [u] }

/-- A core with a record more. -/
def Core.record (c : Core) (u : UndoW) : Core := { c with undoWList := c.undoWList ++ [u] }

theorem core_record (u : UndoW) : (s.record u).core = s.core.record u := rfl

/-- A write of which `undo_write_new` makes a record. -/
def State.Records (s : State) (off : ut64) (data : List u8) : Prop :=
  s.eval.undowrite = true ∧ s.undoWLock = false ∧ ∀ u ∈ s.undoWList, ¬(off = u.off ∧ data = u.n)

instance : Decidable (s.Records off data) := inferInstanceAs (Decidable (_ ∧ _))

theorem undoWriteNew_of_not_records (h : ¬s.Records off data) :
    undoWriteNew fresh s off data = s := by
  unfold undoWriteNew
  split_ifs with hon hlock hdup
  · rfl
  · rfl
  · rfl
  · refine absurd ⟨by simpa using hon, by simpa using hlock, fun u hu huw => hdup ?_⟩ h
    exact List.any_eq_true.mpr ⟨u, hu, decide_eq_true huw⟩

theorem undoWriteNew_of_records (h : s.Records off data) :
    undoWriteNew fresh s off data = (radareReadAt s off (malloc fresh data.length)).1.record
      ⟨true, off, (radareReadAt s off (malloc fresh data.length)).2, data⟩ := by
  obtain ⟨hon, hlock, hnew⟩ := h
  have hdup : s.undoWList.any (fun uw => off = uw.off ∧ data = uw.n) = false := by
    rw [List.any_eq_false]
    intro u hu huw
    exact hnew u hu (of_decide_eq_true huw)
  unfold undoWriteNew
  rw [hon, hlock, hdup]
  rfl

/-- A record is made of what a read gives, or the same write is in the
list already. -/
theorem undoWriteNew_cases (fresh : ℕ → u8) (off : ut64) (data : List u8)
    (hon : s.eval.undowrite = true) (hlock : s.undoWLock = false) :
    (∃ u ∈ s.undoWList, u.off = off ∧ u.n = data ∧ undoWriteNew fresh s off data = s) ∨
    undoWriteNew fresh s off data = (radareReadAt s off (malloc fresh data.length)).1.record
      ⟨true, off, (radareReadAt s off (malloc fresh data.length)).2, data⟩ := by
  by_cases hnew : ∀ u ∈ s.undoWList, ¬(off = u.off ∧ data = u.n)
  · right
    exact undoWriteNew_of_records ⟨hon, hlock, hnew⟩
  · left
    have hsame : undoWriteNew fresh s off data = s :=
      undoWriteNew_of_not_records fun h => hnew h.2.2
    push Not at hnew
    obtain ⟨u, hu, hoff, hdata⟩ := hnew
    exact ⟨u, hu, hoff.symm, hdata.symm, hsame⟩

/-- **A record of the bytes that are there keeps the file undoable.** -/
theorem Core.Undoable.record {c : Core} {o : List u8} (h : c.Undoable orig)
    (hin : off.toNat + data.length ≤ orig.length) (holen : o.length = data.length)
    (ho : o.take readMost = (c.file.drop off.toNat).take (min data.length readMost)) :
    (c.record ⟨true, off, o, data⟩).Undoable orig := by
  have hlen : (o.take readMost).length = min data.length readMost := by
    rw [List.length_take, holen, Nat.min_comm]
  refine { h with inside := ?_, restores := ?_ }
  · intro u hu
    rcases List.mem_append.mp hu with hu | hu
    · exact h.inside u hu
    · obtain rfl := List.mem_singleton.mp hu
      exact ⟨holen, by rwa [holen]⟩
  · show restore ((c.undoWList ++ [_]).map UndoW.patch) (contents c.file) = contents orig
    rw [List.map_append, List.map_singleton, ← h.restores]
    refine restore_concat (fun x b hb => ?_) fun x _ => rfl
    -- the patch is taken of the map itself
    unfold UndoW.patch patchAt at hb
    split_ifs at hb with hx
    have hlt := (List.getElem?_eq_some_iff.mp hb).1
    rw [hlen] at hlt
    rw [ho, List.getElem?_take_of_lt hlt, List.getElem?_drop, Nat.add_sub_cancel' hx] at hb
    unfold contents
    rw [hb]
    rfl

/-- **Before a write**: the file can be put back, and the program is at
the seek of bytes that lie inside the file and off the maps. -/
structure State.Ready (orig : List u8) (off : ut64) (len : ℕ) (s : State) : Prop where
  undoable : s.core.Undoable orig
  seek : s.config.seek = off
  inside : off.toNat + len ≤ orig.length
  unmapped : s.core.Unmapped off len
  small : orig.length < 2 ^ 63

/-- **After `undo_write_new` the bytes to be written are covered**, the
file can still be put back, and the program is where it was. -/
theorem State.Ready.undoWriteNew (fresh : ℕ → u8) (h : s.Ready orig off data.length) :
    (undoWriteNew fresh s off data).Ready orig off data.length ∧
      (Radare.undoWriteNew fresh s off data).core.Covers off data.length ∧
      (s.pos = off.toNat → (Radare.undoWriteNew fresh s off data).pos = off.toNat) := by
  obtain ⟨hundo, hseek, hin, hmap, hfile⟩ := h
  have hlength : s.file.length = orig.length := hundo.length
  rcases undoWriteNew_cases fresh off data hundo.undowrite hundo.undoWLock with
    ⟨u, hu, hoff, hn, heq⟩ | heq
  · rw [heq]
    exact ⟨⟨hundo, hseek, hin, hmap, hfile⟩, ⟨u, hu, hoff, by rw [(hundo.inside u hu).1, hn]⟩, id⟩
  · have hmalloc : (malloc fresh data.length).length = data.length := length_malloc fresh _
    have holen : (radareReadAt s off (malloc fresh data.length)).2.length = data.length :=
      length_radareReadAt.trans hmalloc
    have hmap' : s.core.Unmapped off (malloc fresh data.length).length := by rwa [hmalloc]
    have ho := radareReadAt_data hundo.vaddr hmap' (by omega) (by omega)
    have hback := radareReadAt_eq hundo.vaddr hmap' (by omega) (by rw [hseek]; omega)
    rw [hmalloc] at ho
    rw [hback, hseek] at heq
    have hrecord := hundo.record hin holen ho
    rw [heq]
    refine ⟨⟨hrecord, rfl, hin, hmap, hfile⟩, ?_, fun _ => rfl⟩
    exact ⟨_, List.mem_append_right _ (List.mem_singleton.mpr rfl), rfl, holen⟩

/-! ## Writing -/

/-- A core whose file is written, where it is open for writing. -/
def Core.put (c : Core) (off : ut64) (data : List u8) : Core :=
  { c with file :=
      if c.eval.write then fileWrite c.file off.toNat (data.take readMost) else c.file }

theorem core_ioWrite (hpos : s.pos = off.toNat) :
    (ioWrite s data).1.core = s.core.put off data := by
  unfold ioWrite Core.put
  have hcore : s.core.eval.write = s.eval.write := rfl
  rw [hpos, hcore]
  split_ifs <;> rfl

/-- **A write of covered bytes keeps the file undoable.** -/
theorem Core.Undoable.put {c : Core} (h : c.Undoable orig) (hcov : c.Covers off data.length) :
    (c.put off data).Undoable orig := by
  obtain ⟨u, hu, rfl, hlen⟩ := hcov
  have htaken : (u.o.take readMost).length = (data.take readMost).length := by
    rw [List.length_take, List.length_take, hlen]
  have hin : u.off.toNat + (data.take readMost).length ≤ c.file.length := by
    have hrecord := (h.inside u hu).2
    rw [h.length, ← htaken, List.length_take]
    omega
  by_cases hwrite : c.eval.write = true
  · have hput : (c.put u.off data).file = fileWrite c.file u.off.toNat (data.take readMost) :=
      if_pos hwrite
    refine { h with length := ?_, restores := ?_, idle := ?_ }
    · rw [hput, fileWrite_length hin, h.length]
    · rw [← h.restores, hput]
      refine restore_congr fun x hx => ?_
      -- a place no patch has is outside the record, so it is not written
      have hnone := hx u.patch (List.mem_map_of_mem hu)
      unfold UndoW.patch at hnone
      rw [patchAt_eq_none_iff, htaken, ← patchAt_eq_none_iff] at hnone
      rw [contents_fileWrite hin, Patch.put, hnone]
      rfl
    · intro hoff
      exact absurd (hoff.symm.trans hwrite) (by decide)
  · have hput : c.put u.off data = c := by
      unfold Core.put
      rw [if_neg hwrite]
    rwa [hput]

/-- **The turn every writer makes**: recorded and written, at the seek. -/
theorem State.Ready.turn (fresh : ℕ → u8) (h : s.Ready orig off data.length)
    (hpos : s.pos = off.toNat) :
    (ioWrite (Radare.undoWriteNew fresh s off data) data).1.core.Undoable orig := by
  obtain ⟨hready, hcov, hat⟩ := h.undoWriteNew fresh
  rw [core_ioWrite (hat hpos)]
  exact hready.undoable.put hcov

/-! ## The writers -/

/-- `radare_write_at` inside the file. -/
theorem Core.Undoable.radareWriteAt (fresh : ℕ → u8) (h : s.core.Undoable orig)
    (hfile : orig.length < 2 ^ 63) (hin : off.toNat + data.length ≤ orig.length)
    (hmap : s.core.Unmapped off data.length) :
    (radareWriteAt fresh s off data).1.core.Undoable orig := by
  have hready : (s.seekTo off).Ready orig off data.length := ⟨h, rfl, hin, hmap, hfile⟩
  have hsections : (s.seekTo off).sections = [] := h.sections
  have hon : (s.seekTo off).eval.undowrite = true := h.undowrite
  have hmask : (undoWriteNew fresh (s.seekTo off) off data).writeMask = none :=
    (hready.undoWriteNew fresh).1.undoable.writeMask
  unfold Radare.radareWriteAt
  simp only [radareSeek_eq h.vaddr (by omega : off.toNat < 2 ^ 63), hsections, hon, hmask,
    sectionGet, List.find?_nil, Option.any_none, Bool.false_eq_true, if_false, if_true,
    core_radareSeek]
  exact hready.turn fresh rfl

/-- One turn of the loop of `radare_write`. -/
theorem core_writeLoop_one (hmask : s.writeMask = none) :
    (writeLoop fresh off data 1 s).core =
      (ioWrite (undoWriteNew fresh s off data) data).1.core := by
  unfold writeLoop
  simp only [hmask]
  rfl

theorem insertShift_eq (h : ¬s.Shifts) (hinsert : s.eval.insert = true) :
    insertShift fresh s s.config.seek n = s := by
  unfold insertShift
  split_ifs with hsize hblock
  · rfl
  · rfl
  · have hrest : s.config.size = s.config.seek := by
      by_contra hne
      exact h ⟨hinsert, hsize, by rwa [Bool.not_eq_true] at hblock, hne⟩
    simp [hrest]

/-- **`radare_write` of one copy inside the file.** -/
theorem Core.Undoable.radareWriteData (fresh : ℕ → u8) (h : s.core.Undoable orig)
    (hfile : orig.length < 2 ^ 63)
    (hin : s.eval.write = true → data ≠ [] → writeTimes s.eval.count = 1 ∧ ¬s.Shifts ∧
      s.config.seek.toNat + data.length ≤ orig.length ∧
      s.core.Unmapped s.config.seek data.length) :
    (radareWriteData fresh s data).1.core.Undoable orig := by
  unfold Radare.radareWriteData
  by_cases hwrite : s.eval.write = true
  swap
  · rw [Bool.not_eq_true] at hwrite
    rw [hwrite]
    exact h
  by_cases hdata : data = []
  · simp only [hdata, hwrite, if_true, Bool.not_true, Bool.false_eq_true, if_false]
    exact h
  obtain ⟨hone, hshift, hin, hmap⟩ := hin hwrite hdata
  have hready : (s.seekTo s.config.seek).Ready orig s.config.seek data.length :=
    ⟨h, rfl, hin, hmap, hfile⟩
  have hturn := hready.turn fresh rfl
  have hmask : (s.seekTo s.config.seek).writeMask = none := h.writeMask
  rw [← core_writeLoop_one hmask] at hturn
  have hinsert : (if (s.seekTo s.config.seek).eval.insert then
      insertShift fresh (s.seekTo s.config.seek) s.config.seek (data.length * 1)
      else s.seekTo s.config.seek) = s.seekTo s.config.seek := by
    split_ifs with hi
    · have hs : ¬(s.seekTo s.config.seek).Shifts := hshift
      exact insertShift_eq hs hi
    · rfl
  simp only [radareSeek_eq h.vaddr (by omega : s.config.seek.toNat < 2 ^ 63), hone, hinsert,
    hwrite, if_neg hdata, Bool.not_true, Bool.false_eq_true, if_false]
  split_ifs
  all_goals simpa only [core_radareRead, core_radareSeek, core_radareOpen] using hturn

theorem core_pokeGrow (ret : ut64) : (pokeGrow s ret n).core = s.core := by
  unfold pokeGrow
  dsimp only
  split_ifs <;> rfl

theorem core_pokeFit (ret : ut64) : (pokeFit s ret).core = s.core := by
  unfold pokeFit
  split_ifs <;> rfl

/-- Turns of the loop of `radare_poke`: one, or as many as there are where
there are no bytes. -/
theorem State.Ready.pokeLoop (fresh : ℕ → u8) (h : s.Ready orig off data.length)
    (hpos : s.pos = off.toNat) (hn : n = 1 ∨ data = []) :
    (pokeLoop fresh data n s).core.Undoable orig := by
  induction n generalizing s with
  | zero => exact h.undoable
  | succ n ih =>
    have hturn := h.turn fresh hpos
    unfold Radare.pokeLoop
    rw [h.seek]
    rcases hn with hn | rfl
    · obtain rfl : n = 0 := by omega
      exact hturn
    · -- a write of no bytes leaves the program where it is
      obtain ⟨hready, -, hat⟩ := h.undoWriteNew fresh
      have hnil : ∀ t : State, (ioWrite t []).1 = t := fun t => by
        unfold ioWrite
        split_ifs <;> rfl
      dsimp only
      rw [hnil]
      exact ih hready (hat hpos) (Or.inr rfl)

/-- **`radare_poke` of one copy inside the file.** It records twice, and
the second time finds its own record. -/
theorem Core.Undoable.radarePoke (fresh : ℕ → u8) {content : Option (List u8)} {yes : Bool}
    (h : s.core.Undoable orig) (hfile : orig.length < 2 ^ 63)
    (hin : ∀ bytes, content = some bytes → s.eval.write = true →
      (writeTimes s.eval.count = 1 ∨ pokeData fresh s bytes = []) ∧
      s.config.seek.toNat + (pokeData fresh s bytes).length ≤ orig.length ∧
      s.core.Unmapped s.config.seek (pokeData fresh s bytes).length) :
    (radarePoke fresh s content yes).core.Undoable orig := by
  unfold Radare.radarePoke
  by_cases hwrite : s.eval.write = true
  swap
  · rw [Bool.not_eq_true] at hwrite
    rw [hwrite]
    exact h
  cases content with
  | none =>
    dsimp only
    split_ifs <;> exact h
  | some bytes =>
    obtain ⟨hone, hin, hmap⟩ := hin bytes rfl hwrite
    dsimp only
    generalize pokeData fresh s bytes = data at hone hin hmap ⊢
    split_ifs
    · exact h
    · simp only [core_radareRead, core_pokeFit, core_radareSeek, core_pokeGrow]
      generalize hblock : State.mk _ _ _ _ _ _ _ _ _ _ = b
      have hready : b.Ready orig s.config.seek data.length := by
        subst hblock
        exact ⟨h, rfl, hin, hmap, hfile⟩
      have hb : b.config.seek = s.config.seek := hready.seek
      obtain ⟨hnew, -⟩ := hready.undoWriteNew fresh
      rw [hnew.seek, radareSeek_eq hnew.undoable.vaddr (by omega)]
      have hseek : (State.seekTo _ s.config.seek).Ready orig s.config.seek data.length :=
        ⟨hnew.undoable, rfl, hin, hnew.unmapped, hfile⟩
      exact hseek.pokeLoop fresh rfl hone
    · exact h

/-! ## Undoing -/

/-- Below the lock `radare_write_at` writes and records nothing. -/
theorem core_radareWriteAt (h : s.core.Direct)
    (hlock : s.undoWLock = true) (hoff : off.toNat < 2 ^ 63) :
    (radareWriteAt fresh s off data).1.core = s.core.put off data := by
  have hsections : (s.seekTo off).sections = [] := h.sections
  have hm : (s.seekTo off).writeMask = none := h.writeMask
  have hnew : undoWriteNew fresh (s.seekTo off) off data = s.seekTo off := by
    have hl : (s.seekTo off).undoWLock = true := hlock
    unfold undoWriteNew
    rw [hl]
    simp only [if_true, ite_self]
  unfold radareWriteAt
  simp only [radareSeek_eq h.vaddr hoff, hsections, sectionGet, hnew, List.find?_nil,
    Option.any_none, Bool.false_eq_true, if_false, ite_self, hm, core_radareSeek]
  exact core_ioWrite rfl

/-- The bytes `undo_write_set_t` writes. -/
def UndoW.bytes (u : UndoW) (set : Bool) : List u8 := if set then u.n else u.o

theorem core_undoWriteSetT (fresh : ℕ → u8) (h : s.core.Direct)
    (hlock : s.undoWLock = false) (u : UndoW) (set : Bool) (hoff : u.off.toNat < 2 ^ 63) :
    (undoWriteSetT fresh s u set).1.core = s.core.put u.off (u.bytes set) := by
  generalize hl : ({ s with undoWLock := true } : State) = l
  have hwrite : (radareWriteAt fresh l u.off (u.bytes set)).1.core =
      l.core.put u.off (u.bytes set) := by
    subst hl
    exact core_radareWriteAt ⟨h.sections, h.vaddr, h.writeMask⟩ rfl hoff
  have hunlock : ∀ t : State, ({ t with undoWLock := false } : State).core =
      Core.mk t.core.file t.core.ioMaps t.core.sections t.core.writeMask t.core.undoWList false
        t.core.vaddr t.core.eval := fun _ => rfl
  unfold undoWriteSetT
  have hbytes : (if set = true then u.n else u.o) = u.bytes set := rfl
  rw [hl, hbytes, hunlock, hwrite, ← hl, ← hlock]
  rfl

/-- A file with the old or the new bytes of records written, those of the
last one first. -/
def rewritten (set : Bool) (us : List UndoW) (file : List u8) : List u8 :=
  us.foldr (fun u file => fileWrite file u.off.toNat ((u.bytes set).take readMost)) file

/-- The core then, where the file is open for writing. -/
def Core.rewritten (c : Core) (set : Bool) (us : List UndoW) : Core :=
  { c with file := if c.eval.write then Radare.rewritten set us c.file else c.file }

theorem Core.rewritten_cons {c : Core} {u : UndoW} {us : List UndoW} {set : Bool} :
    c.rewritten set (u :: us) = (c.rewritten set us).put u.off (u.bytes set) := by
  unfold Core.rewritten Core.put
  by_cases hwrite : c.eval.write = true
  · simp only [hwrite, if_true]
    rfl
  · simp only [hwrite, Bool.false_eq_true, if_false]

theorem core_undoWriteEach (fresh : ℕ → u8) (h : s.core.Direct) (hlock : s.undoWLock = false)
    (set : Bool) {us : List UndoW} (hus : ∀ u ∈ us, u.off.toNat < 2 ^ 63) :
    (undoWriteEach fresh s set us).1.core = s.core.rewritten set us := by
  induction us with
  | nil =>
    unfold Core.rewritten
    rw [show Radare.rewritten set [] s.core.file = s.core.file from rfl, ite_self]
    rfl
  | cons u us ih =>
    specialize ih fun v hv => hus v (List.mem_cons_of_mem _ hv)
    have hdirect : (undoWriteEach fresh s set us).1.core.Direct := by
      rw [ih]
      exact ⟨h.sections, h.vaddr, h.writeMask⟩
    have hset := core_undoWriteSetT fresh hdirect ((congrArg Core.undoWLock ih).trans hlock) u set
      (hus u List.mem_cons_self)
    rw [ih, ← Core.rewritten_cons] at hset
    exact hset

/-- Bytes written record by record are patches put on. -/
theorem contents_rewritten (set : Bool) (us : List UndoW) (file : List u8)
    (hus : ∀ u ∈ us, u.off.toNat + (u.bytes set).length ≤ file.length) :
    (rewritten set us file).length = file.length ∧
      contents (rewritten set us file) =
        restore (us.map fun u => patchAt u.off.toNat ((u.bytes set).take readMost))
          (contents file) := by
  induction us with
  | nil => exact ⟨rfl, rfl⟩
  | cons u us ih =>
    obtain ⟨hlen, hcontents⟩ := ih fun v hv => hus v (List.mem_cons_of_mem _ hv)
    have hin : u.off.toNat + ((u.bytes set).take readMost).length ≤
        (rewritten set us file).length := by
      have hrecord := hus u List.mem_cons_self
      rw [hlen, List.length_take]
      omega
    have hstep : rewritten set (u :: us) file =
        fileWrite (rewritten set us file) u.off.toNat ((u.bytes set).take readMost) := rfl
    rw [hstep, fileWrite_length hin, contents_fileWrite hin, hcontents]
    exact ⟨hlen, rfl⟩

/-- **A file that can be put back is put back by `undo_write_set_all`.** -/
theorem Core.Undoable.undoWriteSetAll (fresh : ℕ → u8) (h : s.core.Undoable orig)
    (hfile : orig.length < 2 ^ 63) : (undoWriteSetAll fresh s false).file = orig := by
  have hlength : s.file.length = orig.length := h.length
  have hus : ∀ u ∈ s.undoWList, u.off.toNat + u.o.length ≤ s.file.length := fun u hu => by
    rw [hlength]
    exact (h.inside u hu).2
  have hsmall : ∀ u ∈ s.undoWList, u.off.toNat < 2 ^ 63 := fun u hu => by
    have := hus u hu
    omega
  have hcore := core_undoWriteEach fresh h.toDirect h.undoWLock false hsmall
  have hfinal : (Radare.undoWriteSetAll fresh s false).file =
      (s.core.rewritten false s.undoWList).file := congrArg Core.file hcore
  rw [hfinal]
  unfold Core.rewritten
  split_ifs with hwrite
  · obtain ⟨hlen, hcontents⟩ := contents_rewritten false s.undoWList s.file hus
    exact eq_of_contents (hlen.trans h.length) (hcontents.trans h.restores)
  · exact h.idle (by rwa [Bool.not_eq_true] at hwrite)

end Radare
