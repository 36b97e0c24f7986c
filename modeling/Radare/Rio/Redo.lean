import Radare.Rio.Protect
import Radare.Rio.Writes
/-!
# Redoing writes

The undo list is a log of a run of writes: its records have, at every
byte, the value the first write of the run gave it (`Core.Logs`), a write
found there already being no exception. `undo_write_set_all` walks the
list from its end both to undo and to redo, so what it redoes last is what
was written first. The file comes back exactly where every byte was left
as it was first written (`redo_restores`).
-/

namespace Radare

open Common

variable {fresh : ℕ → u8} {s : State} {off : ut64} {data orig : List u8} {x : ℕ}

/-- A call of `radare_write_at`, with the memory it is given. -/
structure WriteAt where
  fresh : ℕ → u8
  offset : ut64
  data : List u8

/-- A run of them. -/
def writeAts (ws : List WriteAt) (s : State) : State :=
  ws.foldl (fun s w => (radareWriteAt w.fresh s w.offset w.data).1) s

/-- The bytes of a write, as far as one goes. -/
def WriteAt.patch (w : WriteAt) : Patch ℕ u8 := patchAt w.offset.toNat (w.data.take readMost)

/-- The values a run gives to a byte, in order. -/
def valuesAt (ws : List WriteAt) (x : ℕ) : List u8 := ws.filterMap fun w => w.patch x

/-! ## One write -/

/-- **A write that nothing stands in the way of** is recorded, with as
many old bytes, and put on the file. -/
theorem core_radareWriteAt_direct (fresh : ℕ → u8) (data : List u8) (h : s.core.Direct)
    (hoff : off.toNat < 2 ^ 63) :
    ∃ o, o.length = data.length ∧ (radareWriteAt fresh s off data).1.core =
      (if s.Records off data then s.core.record ⟨true, off, o, data⟩ else s.core).put off data := by
  obtain ⟨o, ho, hcore⟩ := core_prepared fresh s off data
  have hsections : s.sections = [] := h.sections
  have hfree : ∀ sec, sectionGet s.sections off = some sec → ¬sec.Writable := by
    rw [hsections]
    intro sec hsec
    cases hsec
  have hmask : (s.prepared fresh off data).writeMask = none := by
    have := congrArg Core.writeMask hcore
    split_ifs at this <;> exact this.trans h.writeMask
  have hpos : (s.prepared fresh off data).pos = off.toNat := by
    have hnew : (undoWriteNew fresh (s.seekTo off) off data).pos = off.toNat := by
      by_cases hrec : (s.seekTo off).Records off data
      · rw [undoWriteNew_of_records hrec]
        exact pos_radareReadAt h.vaddr hoff
      · rw [undoWriteNew_of_not_records hrec]
        rfl
    have hsame := hmask
    rw [prepared_eq, radareSeek_eq h.vaddr hoff] at hsame ⊢
    split_ifs at hsame ⊢ with hnone
    · exact hnew
    · exact absurd ((congrArg Core.writeMask core_radareReadAt).symm.trans hsame) hnone
  obtain ⟨data', hdata, heq⟩ := radareWriteAt_of_not_writable fresh data hfree
  obtain rfl := hdata hmask
  refine ⟨o, ho, ?_⟩
  rw [heq, core_radareSeek, core_ioWrite hpos, hcore]

/-! ## The log of a run -/

/-- The new bytes of a record. -/
def UndoW.change (u : UndoW) : Patch ℕ u8 := patchAt u.off.toNat (u.n.take readMost)

/-- **The undo list logs a run** that started from a file: its records lie
inside the file, and their new bytes are at every byte what the first
write of the run gave it. The file has what the last one gave. -/
structure Core.Logs (orig : List u8) (write : Bool) (ps : List (Patch ℕ u8)) (c : Core) : Prop
    extends c.Direct where
  write_eq : c.eval.write = write
  undowrite : c.eval.undowrite = true
  undoWLock : c.undoWLock = false
  length : c.file.length = orig.length
  inside : ∀ u ∈ c.undoWList, u.o.length = u.n.length ∧ u.off.toNat + u.n.length ≤ orig.length
  first : ∀ x, ((c.undoWList.map UndoW.change).findSome? fun p => p x) = ps.findSome? fun p => p x
  written : write = true → contents c.file = replay ps (contents orig)
  /-- A file that is not open for writing is not written. -/
  idle : write = false → c.file = orig

theorem State.Unwritten.logs (h : s.Unwritten) : s.core.Logs s.file s.eval.write [] where
  toDirect := h.toDirect
  write_eq := rfl
  undowrite := h.undowrite
  undoWLock := h.undoWLock
  length := rfl
  inside := fun u hu => by
    have hlist : s.core.undoWList = [] := h.undoWList
    rw [hlist] at hu
    cases hu
  first := fun x => by
    have hlist : s.core.undoWList = [] := h.undoWList
    rw [hlist]
    rfl
  written := fun _ => rfl
  idle := fun _ => rfl

variable {write : Bool} {ps : List (Patch ℕ u8)} {c : Core}

/-- A change that is in a list already decides no byte behind it. -/
theorem findSome?_concat_of_mem {p : Patch ℕ u8} (hp : p ∈ ps) :
    ((ps ++ [p]).findSome? fun q => q x) = ps.findSome? fun q => q x := by
  rw [List.findSome?_append]
  cases hfirst : ps.findSome? fun q => q x with
  | some b => rfl
  | none =>
    have hnone := List.findSome?_eq_none_iff.mp hfirst p hp
    simp [hnone]

/-- **A record that is made, or found, keeps the log.** -/
theorem Core.Logs.log (h : c.Logs orig write ps) (hin : off.toNat + data.length ≤ orig.length)
    {o : List u8} (ho : o.length = data.length) (c' : Core)
    (hc : c' = c.record ⟨true, off, o, data⟩ ∨
      c' = c ∧ ∃ u ∈ c.undoWList, off = u.off ∧ data = u.n) :
    (c'.put off data).Logs orig write (ps ++ [patchAt off.toNat (data.take readMost)]) := by
  -- in both cases the list has a record of these bytes, and the first changes of the run
  have hkeep : c'.file = c.file ∧ c'.eval = c.eval ∧ c'.undoWLock = c.undoWLock ∧ c'.Direct ∧
      (∀ u ∈ c'.undoWList, u.o.length = u.n.length ∧ u.off.toNat + u.n.length ≤ orig.length) ∧
      ∀ x, ((c'.undoWList.map UndoW.change).findSome? fun p => p x) =
        (ps ++ [patchAt off.toNat (data.take readMost)]).findSome? fun p => p x := by
    rcases hc with rfl | ⟨rfl, u, hu, rfl, rfl⟩
    · refine ⟨rfl, rfl, rfl, ⟨h.sections, h.vaddr, h.writeMask⟩, fun u hu => ?_, fun x => ?_⟩
      · rcases List.mem_append.mp hu with hu | hu
        · exact h.inside u hu
        · obtain rfl := List.mem_singleton.mp hu
          exact ⟨ho, hin⟩
      · show ((c.undoWList ++ [_]).map UndoW.change).findSome? (fun p : Patch ℕ u8 => p x) = _
        rw [List.map_append, List.findSome?_append, List.findSome?_append, h.first]
        rfl
    · refine ⟨rfl, rfl, rfl, h.toDirect, h.inside, fun x => ?_⟩
      rw [← findSome?_concat_of_mem (List.mem_map_of_mem hu), List.findSome?_append,
        List.findSome?_append, h.first]
      rfl
  obtain ⟨hfile, heval, hlock, hdirect, hinside, hfirst⟩ := hkeep
  have hput : (c'.put off data).file =
      if c.eval.write then fileWrite c.file off.toNat (data.take readMost) else c.file := by
    unfold Core.put
    rw [hfile, heval]
  have hlen : off.toNat + (data.take readMost).length ≤ c.file.length := by
    rw [h.length, List.length_take]
    omega
  refine ⟨⟨hdirect.sections, hdirect.vaddr, hdirect.writeMask⟩, ?_, ?_, ?_, ?_, hinside, hfirst,
    ?_, ?_⟩
  · exact (congrArg Eval.write heval).trans h.write_eq
  · exact (congrArg Eval.undowrite heval).trans h.undowrite
  · exact hlock.trans h.undoWLock
  · rw [hput]
    split_ifs
    · rw [fileWrite_length hlen, h.length]
    · exact h.length
  · intro hwrite
    rw [hput, if_pos (h.write_eq.trans hwrite), contents_fileWrite hlen, replay_concat,
      h.written hwrite]
  · intro hwrite
    rw [hput, h.write_eq, hwrite, if_neg Bool.false_ne_true, h.idle hwrite]

/-- **A write inside the file keeps the log.** -/
theorem Core.Logs.radareWriteAt (fresh : ℕ → u8) (h : s.core.Logs orig write ps)
    (hfile : orig.length < 2 ^ 63) (hin : off.toNat + data.length ≤ orig.length) :
    (radareWriteAt fresh s off data).1.core.Logs orig write
      (ps ++ [patchAt off.toNat (data.take readMost)]) := by
  obtain ⟨o, ho, hcore⟩ := core_radareWriteAt_direct fresh data h.toDirect (by omega : off.toNat < _)
  rw [hcore]
  refine h.log hin ho _ ?_
  split_ifs with hrec
  · exact Or.inl rfl
  · refine Or.inr ⟨rfl, ?_⟩
    by_contra hnone
    push Not at hnone
    exact hrec ⟨h.undowrite, h.undoWLock, fun u hu huw => hnone u hu huw.1 huw.2⟩

/-- **A run of them.** -/
theorem Core.Logs.writeAts {ws : List WriteAt} (h : s.core.Logs orig write ps)
    (hfile : orig.length < 2 ^ 63)
    (hin : ∀ w ∈ ws, w.offset.toNat + w.data.length ≤ orig.length) :
    (writeAts ws s).core.Logs orig write (ps ++ ws.map WriteAt.patch) := by
  induction ws generalizing s ps with
  | nil => simpa [Radare.writeAts] using h
  | cons w ws ih =>
    have hstep := h.radareWriteAt w.fresh hfile (hin w List.mem_cons_self)
    have hrun := ih hstep fun v hv => hin v (List.mem_cons_of_mem _ hv)
    rwa [List.append_assoc] at hrun

/-! ## The whole list, undone and redone -/

/-- The records keep what they record. -/
theorem undoWriteEach_list (fresh : ℕ → u8) (s : State) (set : Bool) (us : List UndoW) :
    (undoWriteEach fresh s set us).2 = us.map fun u => { u with set := set } := by
  induction us with
  | nil => rfl
  | cons u us ih =>
    unfold undoWriteEach
    dsimp only
    rw [ih]
    rfl

/-- **`undo_write_set_all` writes every record**, the first one last. -/
theorem core_undoWriteSetAll (fresh : ℕ → u8) (h : s.core.Direct) (hlock : s.undoWLock = false)
    (set : Bool) (hus : ∀ u ∈ s.undoWList, u.off.toNat < 2 ^ 63) :
    (undoWriteSetAll fresh s set).core =
      { s.core.rewritten set s.undoWList with
        undoWList := s.undoWList.map fun u => { u with set := set } } := by
  have hcore := core_undoWriteEach fresh h hlock set hus
  unfold undoWriteSetAll
  rw [← undoWriteEach_list fresh s set, ← hcore]
  rfl

/-- A byte no change has, no old bytes have either. -/
theorem Core.Logs.restore_old (h : c.Logs orig write ps) {m : ℕ → u8}
    (hx : ∀ p ∈ ps, p x = none) :
    restore (c.undoWList.map fun u => patchAt u.off.toNat ((u.bytes false).take readMost)) m x =
      m x := by
  have hnone : ((c.undoWList.map UndoW.change).findSome? fun p => p x) = none := by
    rw [h.first]
    exact List.findSome?_eq_none_iff.mpr hx
  have hold : ((c.undoWList.map fun u =>
      patchAt u.off.toNat ((u.bytes false).take readMost)).findSome? fun p => p x) = none := by
    rw [List.findSome?_eq_none_iff] at hnone ⊢
    intro p hp
    obtain ⟨u, hu, rfl⟩ := List.mem_map.mp hp
    have hchange := hnone u.change (List.mem_map_of_mem hu)
    unfold UndoW.change at hchange
    rw [patchAt_eq_none_iff, List.length_take, ← (h.inside u hu).1, ← List.length_take] at hchange
    exact patchAt_eq_none_iff.mpr hchange
  rw [restore_apply, hold]
  rfl

/-- Undone and redone, a file open for writing has its records written
twice over. -/
theorem Core.Logs.file_redone (fresh fresh' : ℕ → u8) (h : s.core.Logs orig write ps)
    (hfile : orig.length < 2 ^ 63) :
    (undoWriteSetAll fresh' (undoWriteSetAll fresh s false) true).file =
      if write then
        Radare.rewritten true s.undoWList (Radare.rewritten false s.undoWList s.file)
      else s.file := by
  have hoff : ∀ u ∈ s.undoWList, u.off.toNat < 2 ^ 63 := fun u hu => by
    have := (h.inside u hu).2
    omega
  have hundo := core_undoWriteSetAll fresh h.toDirect h.undoWLock false hoff
  generalize undoWriteSetAll fresh s false = t at hundo ⊢
  have hlist : t.undoWList = s.undoWList.map fun u => { u with set := false } :=
    congrArg Core.undoWList hundo
  have hdirect : t.core.Direct := by
    rw [hundo]
    exact ⟨h.sections, h.vaddr, h.writeMask⟩
  have hredo := core_undoWriteSetAll fresh' hdirect
    ((congrArg Core.undoWLock hundo).trans h.undoWLock) true fun u hu => by
      rw [hlist] at hu
      obtain ⟨v, hv, rfl⟩ := List.mem_map.mp hu
      exact hoff v hv
  have hsame : Radare.rewritten true t.undoWList t.file =
      Radare.rewritten true s.undoWList t.file := by
    unfold Radare.rewritten
    rw [hlist, List.foldr_map]
    rfl
  have hwrite : s.core.eval.write = write := h.write_eq
  have heval : t.eval.write = write := (congrArg (fun c => c.eval.write) hundo).trans hwrite
  have hundone : t.file = if s.core.eval.write then Radare.rewritten false s.undoWList s.file
      else s.file := congrArg Core.file hundo
  have hredone : (undoWriteSetAll fresh' t true).file =
      if t.eval.write then Radare.rewritten true t.undoWList t.file else t.file :=
    congrArg Core.file hredo
  rw [hredone, heval, hsame, hundone, hwrite]
  split_ifs <;> rfl

/-- **What is redone is what was first written**, over bytes that the run
did not write. -/
theorem Core.Logs.redone (h : c.Logs orig true ps) :
    (Radare.rewritten true c.undoWList (Radare.rewritten false c.undoWList c.file)).length =
      orig.length ∧
    ∃ m : ℕ → u8, (∀ x, (∀ p ∈ ps, p x = none) → m x = contents orig x) ∧
      contents (Radare.rewritten true c.undoWList (Radare.rewritten false c.undoWList c.file)) =
        restore ps m := by
  obtain ⟨hlen, hcontents⟩ := contents_rewritten false c.undoWList c.file fun u hu => by
    show u.off.toNat + u.o.length ≤ _
    rw [(h.inside u hu).1, h.length]
    exact (h.inside u hu).2
  generalize Radare.rewritten false c.undoWList c.file = old at hlen hcontents ⊢
  obtain ⟨hlen', hcontents'⟩ := contents_rewritten true c.undoWList old fun u hu => by
    show u.off.toNat + u.n.length ≤ _
    rw [hlen, h.length]
    exact (h.inside u hu).2
  refine ⟨by rw [hlen', hlen, h.length], contents old, fun x hx => ?_, ?_⟩
  · have hlast : (ps.reverse.findSome? fun p => p x) = none :=
      List.findSome?_eq_none_iff.mpr fun p hp => hx p (List.mem_reverse.mp hp)
    rw [hcontents, h.restore_old hx, h.written rfl, replay_apply, hlast]
    rfl
  · rw [hcontents']
    ext1 x
    rw [restore_apply, restore_apply]
    exact congrArg (fun o : Option u8 => o.getD (contents old x)) (h.first x)

/-- **When what is undone is redone**: after any run of writes inside the
file, undoing and redoing them all leaves the file as the run did exactly
if the first and the last value the run gives to every byte are the
same. -/
theorem redo_restores (fresh fresh' : ℕ → u8) (s : State) (ws : List WriteAt) (hs : s.Unwritten)
    (hin : ∀ w ∈ ws, w.offset.toNat + w.data.length ≤ s.file.length) :
    (undoWriteSetAll fresh' (undoWriteSetAll fresh (writeAts ws s) false) true).file =
        (writeAts ws s).file ↔
      s.eval.write = false ∨ ∀ x, (valuesAt ws x).head? = (valuesAt ws x).getLast? := by
  have hlogs := hs.logs.writeAts hs.small hin
  rw [List.nil_append] at hlogs
  rw [hlogs.file_redone fresh fresh' hs.small]
  cases hwrite : s.eval.write with
  | false => simp
  | true =>
    rw [hwrite] at hlogs
    obtain ⟨hlen, m, hm, hredone⟩ := hlogs.redone
    have hwritten := hlogs.written rfl
    have hiff := restore_eq_replay_iff hm
    rw [← hredone, ← hwritten] at hiff
    rw [if_pos rfl, or_iff_right (by simp)]
    constructor
    · intro hfile x
      have := hiff.mp (congrArg contents hfile) x
      rw [List.findSome?_map, ← List.map_reverse, List.findSome?_map] at this
      rw [valuesAt, List.head?_filterMap, List.getLast?_filterMap]
      exact this
    · intro hvalues
      refine eq_of_contents (hlen.trans hlogs.length.symm) (hiff.mpr fun x => ?_)
      have := hvalues x
      rw [valuesAt, List.head?_filterMap, List.getLast?_filterMap] at this
      rw [List.findSome?_map, ← List.map_reverse, List.findSome?_map]
      exact this

/-- `Z` and `Y` written side by side over `AB`. -/
theorem redo_restores_zy :
    (undoWriteSetAll (fun _ => 0) (undoWriteSetAll (fun _ => 0)
      (writeAts [⟨fun _ => 0, 0, [0x5a]⟩, ⟨fun _ => 0, 1, [0x59]⟩] (openFile [0x41, 0x42] 2 1))
      false) true).file = [0x5a, 0x59] := by
  refine (redo_restores _ _ (openFile [0x41, 0x42] 2 1) _
    ⟨⟨rfl, rfl, rfl⟩, rfl, rfl, rfl, by decide⟩ (by decide)).mpr (Or.inr fun x => ?_)
  match x with
  | 0 => rfl
  | 1 => rfl
  | x + 2 => simp [valuesAt, WriteAt.patch, patchAt]

/-- **The second write to a byte is lost**: `Z` and then `Y` are written
over `A`, undone and redone. -/
theorem second_write_lost :
    (openFile [0x41] 1 1).Unwritten ∧
    (writeAts [⟨fun _ => 0, 0, [0x5a]⟩, ⟨fun _ => 0, 0, [0x59]⟩] (openFile [0x41] 1 1)).file =
      [0x59] ∧
    (undoWriteSetAll (fun _ => 0) (undoWriteSetAll (fun _ => 0)
      (writeAts [⟨fun _ => 0, 0, [0x5a]⟩, ⟨fun _ => 0, 0, [0x59]⟩] (openFile [0x41] 1 1))
      false) true).file = [0x5a] := by
  refine ⟨⟨⟨rfl, rfl, rfl⟩, rfl, rfl, rfl, by decide⟩, ?_, ?_⟩ <;> decide

end Radare
