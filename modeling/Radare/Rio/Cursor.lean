import Radare.Rio.Frame
/-!
# What a seek back restores

`config.seek` counts from the base address: a seek to an offset at or
above `config.vaddr` takes the base off it (`rebase`). A seek back to the
cursor is therefore the identity only below the base address, and the
offset `-1` no seek goes to (`radareReadAt_seek`).

A seek also leaves the position in the file, and the last address that
`section_align` computed. What is read at an offset does not depend on them
if the offset is `Settled`, and but for them a read that restores the cursor
changes nothing (`still_radareReadAt`).
-/

namespace Radare

variable {s : State} {off cur vaddr : ut64} {buf : List u8} {n : ℕ}

/-- What a seek to an offset leaves in `config.seek`. -/
def rebase (vaddr off : ut64) : ut64 := if off < vaddr then off else off - vaddr

/-- A cursor that a seek back restores, from a seek to an offset. -/
def Restores (vaddr cur off : ut64) : Prop :=
  if cur = -1 then off = -1 else vaddr = 0 ∨ cur < vaddr

instance : Decidable (Restores vaddr cur off) := inferInstanceAs (Decidable (ite _ _ _))

theorem rebase_eq_self_iff : rebase vaddr off = off ↔ vaddr = 0 ∨ off < vaddr := by
  unfold rebase
  split_ifs with hlt
  · exact iff_of_true rfl (Or.inr hlt)
  · have hsub : off - vaddr = off ↔ vaddr = 0 := by grind
    rw [hsub]
    exact (or_iff_left hlt).symm

/-- A seek lands on `-1` from nowhere. -/
theorem rebase_ne (hoff : off ≠ -1) : rebase vaddr off ≠ -1 := by
  unfold rebase
  split_ifs with hlt
  · exact hoff
  · intro h
    -- the offset one below the base address is below it
    exact hoff (by grind)

/-! ## The cursor after each function -/

theorem config_sectionAlign (addr vaddr paddr : ut64) :
    (sectionAlign s addr vaddr paddr).1.config = s.config := by
  unfold sectionAlign
  split_ifs
  · rfl
  · split <;> rfl

theorem seek_ioRead : (ioRead s n).1.config.seek = s.config.seek := by
  unfold ioRead
  dsimp only
  split_ifs <;> rfl

/-- **The cursor after a seek.** -/
theorem seek_radareSeek :
    (radareSeek s off .set).1.config.seek =
      if off = -1 then s.config.seek else rebase s.config.vaddr off := by
  have hend : ¬(Whence.set = Whence.end_ ∧ s.config.size = -1) := by
    rintro ⟨h, -⟩
    cases h
  unfold radareSeek
  rw [if_neg hend]
  by_cases hoff : off = -1
  · rw [if_pos hoff, if_pos hoff]
  rw [if_neg hoff, if_neg hoff]
  unfold rebase
  by_cases hv : s.config.vaddr = 0
  · have hlt : ¬off < 0 := UInt64.not_lt_zero
    simp [hv, hlt]
  by_cases hlt : off < s.config.vaddr
  · have hback : off + s.config.vaddr - s.config.vaddr = off := UInt64.add_sub_cancel _ _
    simp [hv, hlt, config_sectionAlign, hback]
  · simp [hv, hlt, config_sectionAlign]

theorem vaddr_radareSeek : (radareSeek s off .set).1.config.vaddr = s.config.vaddr :=
  congrArg Core.vaddr (core_radareSeek .set)

theorem vaddr_ioRead : (ioRead s n).1.config.vaddr = s.config.vaddr :=
  congrArg Core.vaddr core_ioRead

/-- The cursor after a seek and a seek back. -/
def seekBack (vaddr cur off : ut64) : ut64 :=
  if cur = -1 then (if off = -1 then cur else rebase vaddr off) else rebase vaddr cur

theorem seekBack_eq_iff : seekBack vaddr cur off = cur ↔ Restores vaddr cur off := by
  unfold seekBack Restores
  split_ifs with hcur hoff
  · exact iff_of_true rfl hoff
  · refine iff_of_false ?_ hoff
    rw [hcur]
    exact rebase_ne hoff
  · exact rebase_eq_self_iff

/-- **A read leaves the cursor where a seek back leads.** -/
theorem seek_radareReadAt :
    (radareReadAt s off buf).1.config.seek = seekBack s.config.vaddr s.config.seek off := by
  unfold radareReadAt seekBack
  dsimp only
  rw [seek_radareSeek, seek_ioRead, seek_radareSeek, vaddr_ioRead, vaddr_radareSeek]

/-- It is `-1` only where it was and is sought. -/
theorem seekBack_eq_neg_one_iff : seekBack vaddr cur off = -1 ↔ cur = -1 ∧ off = -1 := by
  by_cases hcur : cur = -1
  · rw [hcur, seekBack_eq_iff]
    unfold Restores
    rw [if_pos rfl, and_iff_right rfl]
  · unfold seekBack
    rw [if_neg hcur]
    exact iff_of_false (rebase_ne hcur) fun h => hcur h.1

/-- **When `radare_read_at` keeps the cursor.** -/
theorem radareReadAt_seek (s : State) (offset : ut64) (buf : List u8) :
    (radareReadAt s offset buf).1.config.seek = s.config.seek ↔
      Restores s.config.vaddr s.config.seek offset := by
  rw [seek_radareReadAt, seekBack_eq_iff]

/-- **A cursor above the base address moves down**: from `0x1800`, with the
base at `0x1000`, to `0x800`. -/
theorem cursor_moves_down :
    (radareReadAt { openFile [0x41] 1 1 with config :=
        { (openFile [0x41] 1 1).config with vaddr := 0x1000, seek := 0x1800 } } 0 [0]).1.config.seek =
      0x800 := by
  decide

/-! ## What is read -/

/-- The program, but for the cursor, the position and the last address
computed. -/
def State.still (s : State) : State :=
  { s with pos := 0, lastAlign := 0, config := { s.config with seek := 0 } }

/-- An offset with the base address. -/
def State.based (s : State) (off : ut64) : ut64 :=
  if off < s.config.vaddr then off + s.config.vaddr else off

/-- Where a seek to an offset goes in the file. -/
def State.sought (s : State) (off : ut64) : ut64 :=
  if s.config.vaddr = 0 then off
  else (sectionAlign s (s.based off) s.config.vaddr s.config.paddr).2

/-- Where the sections lay it. -/
def State.laid (s : State) (off : ut64) : ut64 :=
  if s.config.vaddr = 0 then off
  else
    match sectionGet s.sections.reverse (s.based off) with
    | some sec => sec.paddr + s.based off - sec.from_
    | none => s.based off - s.config.vaddr + s.config.paddr

/-- What the maps give there. -/
def State.mapped (s : State) (off : ut64) (n : ℕ) : List u8 :=
  ioMapReadAt s.ioMaps (if off = -1 then s.config.seek else rebase s.config.vaddr off)
    (UInt64.ofNat n)

/-- A map gives the bytes, or the file is read where the sections lay the
offset. -/
def State.Settled (s : State) (off : ut64) (n : ℕ) : Prop :=
  s.mapped off n ≠ [] ∨ off ≠ -1 ∧ s.sought off = s.laid off ∧ (s.laid off).toNat < 2 ^ 63

instance : Decidable (s.Settled off n) := inferInstanceAs (Decidable (_ ∨ _))

/-- The bytes there. -/
def State.bytesThere (s : State) (off : ut64) (n : ℕ) : List u8 :=
  if s.mapped off n ≠ [] then s.mapped off n
  else (s.file.drop (s.laid off).toNat).take (min n readMost)

theorem still_sectionAlign (addr vaddr paddr : ut64) :
    (sectionAlign s addr vaddr paddr).1.still = s.still := by
  unfold sectionAlign
  split_ifs
  · rfl
  · split <;> rfl

theorem still_ioLseek : (ioLseek s off).still = s.still := by
  unfold ioLseek
  split_ifs <;> rfl

theorem still_ioRead : (ioRead s n).1.still = s.still := by
  unfold ioRead
  dsimp only
  split_ifs <;> rfl

theorem pos_sectionAlign (addr vaddr paddr : ut64) :
    (sectionAlign s addr vaddr paddr).1.pos = s.pos := by
  unfold sectionAlign
  split_ifs
  · rfl
  · split <;> rfl

/-- With another cursor. -/
def State.withSeek (s : State) (off : ut64) : State := { s with config := { s.config with seek := off } }

/-- **What a seek does**, but for the last address computed. -/
theorem radareSeek_sought (hoff : off ≠ -1) :
    ∃ t : State, t.still = s.still ∧ t.pos = s.pos ∧ (radareSeek s off .set).1 =
      (ioLseek t (s.sought off)).withSeek (rebase s.config.vaddr off) := by
  have hend : ¬(Whence.set = Whence.end_ ∧ s.config.size = -1) := by
    rintro ⟨h, -⟩
    cases h
  by_cases hv : s.config.vaddr = 0
  · refine ⟨s, rfl, rfl, ?_⟩
    have hsought : s.sought off = off := if_pos hv
    have hrebase : rebase s.config.vaddr off = off := rebase_eq_self_iff.mpr (Or.inl hv)
    unfold radareSeek
    rw [if_neg hoff, if_neg hend, hsought, hrebase]
    simp only [hv, ne_eq, not_true_eq_false, decide_false, reduceCtorEq, if_false, if_true,
      Bool.false_eq_true, false_and]
    rfl
  · refine ⟨(sectionAlign s (s.based off) s.config.vaddr s.config.paddr).1,
      still_sectionAlign _ _ _, pos_sectionAlign _ _ _, ?_⟩
    have hsought : s.sought off =
        (sectionAlign s (s.based off) s.config.vaddr s.config.paddr).2 := if_neg hv
    rw [hsought]
    unfold radareSeek State.based State.withSeek rebase
    rw [if_neg hoff, if_neg hend]
    by_cases hlt : off < s.config.vaddr
    · have hback : off + s.config.vaddr - s.config.vaddr = off := UInt64.add_sub_cancel _ _
      simp [hv, hlt, config_sectionAlign, hback]
    · simp [hv, hlt, config_sectionAlign]

/-- It changes nothing else that is seen. -/
theorem still_radareSeek : (radareSeek s off .set).1.still = s.still := by
  by_cases hoff : off = -1
  · rw [hoff, radareSeek_last]
  · obtain ⟨t, ht, -, hseek⟩ := radareSeek_sought (s := s) hoff
    have hstill : (ioLseek t (s.sought off)).still = t.still := still_ioLseek
    rw [hseek, ← ht, ← hstill]
    rfl

/-- Nor does a read. -/
theorem still_radareReadAt : (radareReadAt s off buf).1.still = s.still := by
  unfold radareReadAt
  dsimp only
  rw [still_radareSeek, still_ioRead, still_radareSeek]

/-- **What is read at a settled offset.** -/
theorem radareReadAt_settled (h : s.Settled off buf.length) :
    (radareReadAt s off buf).2 = overlay buf (s.bytesThere off buf.length) := by
  have hmaps : (radareSeek s off .set).1.ioMaps = s.ioMaps :=
    congrArg Core.ioMaps (core_radareSeek .set)
  have hfile : (radareSeek s off .set).1.file = s.file :=
    congrArg Core.file (core_radareSeek .set)
  have hmapped : ioMapReadAt (radareSeek s off .set).1.ioMaps
      (radareSeek s off .set).1.config.seek (UInt64.ofNat buf.length) = s.mapped off buf.length := by
    rw [hmaps, seek_radareSeek]
    rfl
  have hdata : (ioRead (radareSeek s off .set).1 buf.length).2.2 = s.bytesThere off buf.length := by
    unfold ioRead State.bytesThere
    dsimp only
    rw [hmapped]
    by_cases hnil : s.mapped off buf.length ≠ []
    · rw [if_pos hnil, if_pos hnil]
    · obtain ⟨hoff, hlaid, hlt⟩ := h.resolve_left hnil
      obtain ⟨t, -, -, hseek⟩ := radareSeek_sought (s := s) hoff
      have hpos : (radareSeek s off .set).1.pos = (s.laid off).toNat := by
        rw [hseek, hlaid]
        unfold ioLseek
        rw [if_pos hlt]
        rfl
      rw [if_neg hnil, if_neg hnil, hfile, hpos]
  unfold radareReadAt
  dsimp only
  rw [hdata]

end Radare
