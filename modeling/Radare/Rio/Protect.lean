import Radare.Rio.Cursor
import Radare.Rio.Undo
/-!
# The write protection of sections

`radare_write_at` refuses a write by the first section of the table that
has the offset, and refuses it where that section *has* `SECTION_W`; it
returns from there without the seek back. `Protects` is what is left of
the protection (`radareWriteAt_protects`): an offset in no section, or a
refusal that another section or `file.write` justifies.
-/

namespace Radare

variable {fresh : ℕ → u8} {s : State} {off : ut64} {data : List u8} {sec : SectionT}

/-- The section has the address. -/
def SectionT.Has (sec : SectionT) (addr : ut64) : Prop := addr ≥ sec.from_ ∧ addr ≤ sec.to_

/-- The section has `SECTION_W`. -/
def SectionT.Writable (sec : SectionT) : Prop := sec.rwx &&& sectionW ≠ 0

instance (addr : ut64) : Decidable (sec.Has addr) := inferInstanceAs (Decidable (_ ∧ _))

instance : Decidable sec.Writable := inferInstanceAs (Decidable (¬_))

/-- The offset lies in a section without `SECTION_W`. -/
def State.WriteProtected (s : State) (off : ut64) : Prop :=
  ∃ sec ∈ s.sections, sec.Has off ∧ ¬sec.Writable

instance : Decidable (s.WriteProtected off) := inferInstanceAs (Decidable (∃ _ ∈ _, _))

/-- A write that `radare_write_at` refuses exactly if its offset is
protected, and without a trace. -/
def State.Protects (s : State) (off : ut64) (data : List u8) : Prop :=
  match sectionGet s.sections off with
  | none => s.eval.write = true
  | some sec =>
    if sec.Writable then
      s.WriteProtected off ∧ (off = -1 ∨ rebase s.config.vaddr off = s.config.seek)
    else
      s.eval.write = false ∧ ¬s.Records off data ∧ Restores s.config.vaddr s.config.seek off

/-! ## The section found -/

theorem sectionGet_has (h : sectionGet s.sections off = some sec) :
    sec ∈ s.sections ∧ sec.Has off := by
  unfold sectionGet at h
  exact ⟨List.mem_of_find?_eq_some h, by simpa [SectionT.Has] using List.find?_some h⟩

theorem not_writeProtected (h : sectionGet s.sections off = none) : ¬s.WriteProtected off := by
  rintro ⟨sec, hmem, hhas, -⟩
  exact List.find?_eq_none.mp h sec hmem (decide_eq_true hhas)

/-! ## The two ways through `radare_write_at` -/

/-- **In a section with `SECTION_W` it stops behind its first seek.** -/
theorem radareWriteAt_of_writable (h : sectionGet s.sections off = some sec)
    (hw : sec.Writable) : radareWriteAt fresh s off data = ((radareSeek s off .set).1, -1) := by
  have hsections : (radareSeek s off .set).1.sections = s.sections :=
    congrArg Core.sections (core_radareSeek .set)
  have hany : (some sec).any (fun sec => sec.rwx &&& sectionW ≠ 0) = true := decide_eq_true hw
  unfold radareWriteAt
  dsimp only
  rw [hsections, h, if_pos hany]

/-- The state `radare_write_at` has when it comes to write. -/
def State.prepared (fresh : ℕ → u8) (s : State) (off : ut64) (data : List u8) : State :=
  let s := (radareSeek s off .set).1
  let s := if s.eval.undowrite then undoWriteNew fresh s off data else s
  if s.writeMask = none then s else (radareReadAt s off (malloc fresh data.length)).1

/-- **Elsewhere it writes**: what it was given, where there is no mask. -/
theorem radareWriteAt_of_not_writable (fresh : ℕ → u8) (data : List u8)
    (h : ∀ sec, sectionGet s.sections off = some sec → ¬sec.Writable) :
    ∃ data', ((s.prepared fresh off data).writeMask = none → data' = data) ∧
      radareWriteAt fresh s off data =
      ((radareSeek (ioWrite (s.prepared fresh off data) data').1 s.config.seek .set).1,
        (ioWrite (s.prepared fresh off data) data').2) := by
  have hsections : (radareSeek s off .set).1.sections = s.sections :=
    congrArg Core.sections (core_radareSeek .set)
  have hnone : (sectionGet s.sections off).any (fun sec => sec.rwx &&& sectionW ≠ 0) = false := by
    cases hget : sectionGet s.sections off with
    | none => rfl
    | some sec => exact decide_eq_false (h sec hget)
  unfold radareWriteAt State.prepared
  dsimp only
  rw [hsections, hnone, if_neg Bool.false_ne_true]
  generalize (if (radareSeek s off .set).1.eval.undowrite = true then
    undoWriteNew fresh (radareSeek s off .set).1 off data else (radareSeek s off .set).1) = t
  cases hmask : t.writeMask with
  | none => exact ⟨data, fun _ => rfl, by rw [if_pos rfl]⟩
  | some mask =>
    have hne : some mask ≠ none := by simp
    refine ⟨masked mask data, fun hnone => ?_, by rw [if_neg hne]⟩
    rw [if_neg hne] at hnone
    have hcore : (radareReadAt t off (malloc fresh data.length)).1.core = t.core :=
      core_radareReadAt
    exact absurd (hmask.symm.trans ((congrArg Core.writeMask hcore).symm.trans hnone)) hne

/-! ## What is there before the write -/

/-- Recording is up to the core. -/
theorem records_congr {t : State} (h : t.core = s.core) : t.Records off data ↔ s.Records off data := by
  have heval : t.eval = s.eval := congrArg Core.eval h
  have hlock : t.undoWLock = s.undoWLock := congrArg Core.undoWLock h
  have hlist : t.undoWList = s.undoWList := congrArg Core.undoWList h
  unfold State.Records
  rw [heval, hlock, hlist]

theorem core_undoWriteNew (fresh : ℕ → u8) (s : State) (off : ut64) (data : List u8) :
    (undoWriteNew fresh s off data).core =
      if s.Records off data then
        s.core.record ⟨true, off, (radareReadAt s off (malloc fresh data.length)).2, data⟩
      else s.core := by
  split_ifs with h
  · rw [undoWriteNew_of_records h, core_record, core_radareReadAt]
  · rw [undoWriteNew_of_not_records h]

theorem seek_undoWriteNew (fresh : ℕ → u8) (data : List u8) :
    (undoWriteNew fresh s off data).config.seek = s.config.seek ∨
    (undoWriteNew fresh s off data).config.seek = seekBack s.config.vaddr s.config.seek off := by
  by_cases h : s.Records off data
  · right
    rw [undoWriteNew_of_records h]
    exact seek_radareReadAt
  · left
    rw [undoWriteNew_of_not_records h]

/-- The test of `file.undowrite` is made once more in `undo_write_new`. -/
theorem prepared_eq :
    s.prepared fresh off data =
      if (undoWriteNew fresh (radareSeek s off .set).1 off data).writeMask = none then
        undoWriteNew fresh (radareSeek s off .set).1 off data
      else (radareReadAt (undoWriteNew fresh (radareSeek s off .set).1 off data) off
        (malloc fresh data.length)).1 := by
  have honce : ∀ t : State, (if t.eval.undowrite = true then undoWriteNew fresh t off data else t) =
      undoWriteNew fresh t off data := fun t => by
    split_ifs with hon
    · rfl
    · exact (undoWriteNew_of_not_records fun h => hon h.1).symm
  unfold State.prepared
  dsimp only
  rw [honce]

/-- **Nothing but the undo list is touched before the write.** -/
theorem core_prepared (fresh : ℕ → u8) (s : State) (off : ut64) (data : List u8) :
    ∃ o, o.length = data.length ∧ (s.prepared fresh off data).core =
      if s.Records off data then s.core.record ⟨true, off, o, data⟩ else s.core := by
  refine ⟨(radareReadAt (radareSeek s off .set).1 off (malloc fresh data.length)).2, ?_, ?_⟩
  · rw [length_radareReadAt, malloc, List.length_map, List.length_range]
  have hcore : (s.prepared fresh off data).core =
      (undoWriteNew fresh (radareSeek s off .set).1 off data).core := by
    rw [prepared_eq]
    split_ifs
    · rfl
    · exact core_radareReadAt
  rw [hcore, core_undoWriteNew, core_radareSeek]
  exact if_congr (records_congr (core_radareSeek .set)) rfl rfl

/-- The cursor is `-1` before the write only where it was, and the seek
went there. -/
theorem seek_prepared_eq_neg_one_iff :
    (s.prepared fresh off data).config.seek = -1 ↔ s.config.seek = -1 ∧ off = -1 := by
  have hseek : (radareSeek s off .set).1.config.seek = -1 ↔ s.config.seek = -1 ∧ off = -1 := by
    rw [seek_radareSeek]
    split_ifs with hoff
    · exact (and_iff_left hoff).symm
    · exact iff_of_false (rebase_ne hoff) fun h => hoff h.2
  have hnew : (undoWriteNew fresh (radareSeek s off .set).1 off data).config.seek = -1 ↔
      s.config.seek = -1 ∧ off = -1 := by
    rcases seek_undoWriteNew fresh data (s := (radareSeek s off .set).1) with h | h
    · rw [h, hseek]
    · rw [h, seekBack_eq_neg_one_iff, hseek, and_assoc, and_self]
  rw [prepared_eq]
  split_ifs
  · exact hnew
  · rw [seek_radareReadAt, seekBack_eq_neg_one_iff, hnew, and_assoc, and_self]

/-! ## The protection -/

/-- What `io_write` returns tells whether the file is open for writing. -/
theorem ioWrite_eq_neg_one_iff : (ioWrite s data).2 = -1 ↔ s.eval.write = false := by
  unfold ioWrite
  split_ifs with hw
  · exact iff_of_false (by simp) (by simp [hw])
  · exact iff_of_true rfl (by simpa using hw)

theorem ioWrite_of_not_write (h : s.eval.write = false) : (ioWrite s data).1 = s := by
  unfold ioWrite
  rw [h]
  rfl

/-- **A write that is let through**: what it returns, and what it leaves
where the file is not open for writing. -/
theorem radareWriteAt_let_through (fresh : ℕ → u8) (data : List u8)
    (h : ∀ sec, sectionGet s.sections off = some sec → ¬sec.Writable) :
    ((radareWriteAt fresh s off data).2 = -1 ↔ s.eval.write = false) ∧
    (s.eval.write = false →
      (radareWriteAt fresh s off data).1.file = s.file ∧
      ((radareWriteAt fresh s off data).1.undoWList = s.undoWList ↔ ¬s.Records off data) ∧
      ((radareWriteAt fresh s off data).1.config.seek = s.config.seek ↔
        Restores s.config.vaddr s.config.seek off)) := by
  obtain ⟨data', -, heq⟩ := radareWriteAt_of_not_writable fresh data h
  obtain ⟨o, -, hcore⟩ := core_prepared fresh s off data
  have heval : (s.prepared fresh off data).eval = s.eval := by
    have := congrArg Core.eval hcore
    split_ifs at this <;> exact this
  rw [heq]
  refine ⟨by rw [ioWrite_eq_neg_one_iff, heval], fun hw => ?_⟩
  rw [ioWrite_of_not_write (heval ▸ hw)]
  have hseek : (radareSeek (s.prepared fresh off data) s.config.seek .set).1.core =
      (s.prepared fresh off data).core := core_radareSeek .set
  rw [hcore] at hseek
  refine ⟨?_, ?_, ?_⟩
  · have := congrArg Core.file hseek
    split_ifs at this <;> exact this
  · have hlist := congrArg Core.undoWList hseek
    split_ifs at hlist with hrec
    · refine iff_of_false (fun hsame => ?_) (not_not_intro hrec)
      have hlen := congrArg List.length (hlist.symm.trans hsame)
      simp [Core.record, State.core] at hlen
    · exact iff_of_true hlist hrec
  · have hvaddr : (s.prepared fresh off data).config.vaddr = s.config.vaddr := by
      have := congrArg Core.vaddr hcore
      split_ifs at this <;> exact this
    rw [seek_radareSeek, hvaddr]
    unfold Restores
    split_ifs with hcur
    · rw [hcur, seek_prepared_eq_neg_one_iff, and_iff_right hcur]
    · exact rebase_eq_self_iff

/-- **When `radare_write_at` protects**: it refuses a write if and only if
the offset lies in a section without `SECTION_W`, and a write refused
leaves the file, the undo list and the cursor. -/
theorem radareWriteAt_protects (fresh : ℕ → u8) (s : State) (offset : ut64) (data : List u8) :
    (((radareWriteAt fresh s offset data).2 = -1 ↔ s.WriteProtected offset) ∧
      ((radareWriteAt fresh s offset data).2 = -1 →
        (radareWriteAt fresh s offset data).1.file = s.file ∧
        (radareWriteAt fresh s offset data).1.undoWList = s.undoWList ∧
        (radareWriteAt fresh s offset data).1.config.seek = s.config.seek)) ↔
      s.Protects offset data := by
  unfold State.Protects
  cases hget : sectionGet s.sections offset with
  | none =>
    obtain ⟨hret, -⟩ := radareWriteAt_let_through fresh data
      fun sec (h : sectionGet s.sections offset = some sec) => by simp [hget] at h
    have hfree := not_writeProtected hget
    dsimp only
    rw [hret, iff_false_right hfree, Bool.not_eq_false]
    exact ⟨fun h => h.1, fun h => ⟨h, fun hw => by simp [h] at hw⟩⟩
  | some sec =>
    dsimp only
    split_ifs with hw
    · -- refused by this section: another has to justify it
      have hcore : (radareSeek s offset .set).1.core = s.core := core_radareSeek .set
      have hfile : (radareSeek s offset .set).1.file = s.file := congrArg Core.file hcore
      have hlist : (radareSeek s offset .set).1.undoWList = s.undoWList :=
        congrArg Core.undoWList hcore
      rw [radareWriteAt_of_writable hget hw, seek_radareSeek]
      simp only [true_iff, forall_const, hfile, hlist, true_and]
      split_ifs with hoff
      · simp [hoff]
      · simp [hoff]
    · obtain ⟨hret, hstate⟩ := radareWriteAt_let_through fresh data
        fun sec' (h : sectionGet s.sections offset = some sec') => by
          obtain rfl := Option.some.inj (hget.symm.trans h)
          exact hw
      have hprot : s.WriteProtected offset :=
        ⟨sec, (sectionGet_has hget).1, (sectionGet_has hget).2, hw⟩
      rw [hret, iff_true_right hprot]
      constructor
      · rintro ⟨hwrite, h⟩
        obtain ⟨-, hlist, hseek⟩ := hstate hwrite
        obtain ⟨-, hl, hs⟩ := h hwrite
        exact ⟨hwrite, hlist.mp hl, hseek.mp hs⟩
      · rintro ⟨hwrite, hrec, hres⟩
        obtain ⟨hfile, hlist, hseek⟩ := hstate hwrite
        exact ⟨hwrite, fun _ => ⟨hfile, hlist.mpr hrec, hseek.mpr hres⟩⟩

/-- **A section with `SECTION_W` refuses its writes, and one without it
takes them**: in the first the cursor is lost as well. -/
theorem writable_section_refused :
    let s : ℕ → State := fun rwx =>
      { openFile [0x41, 0x42] 2 1 with sections := [⟨0, 1, 0, 0, rwx, []⟩] }
    ¬(s 7).WriteProtected 1 ∧ (radareWriteAt (fun _ => 0) (s 7) 1 [0x5a]).2 = -1 ∧
    (radareWriteAt (fun _ => 0) (s 7) 1 [0x5a]).1.config.seek = 1 ∧
    (s 5).WriteProtected 1 ∧
    (radareWriteAt (fun _ => 0) (s 5) 1 [0x5a]).1.file = [0x41, 0x5a] := by
  decide

end Radare
