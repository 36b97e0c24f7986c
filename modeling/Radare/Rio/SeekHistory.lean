import Mathlib.Algebra.Order.Group.Unbundled.Int
import Mathlib.Data.List.Basic
import Mathlib.Tactic.Common
import Radare.Model.Word
/-!
# The history of seeks

The seek half of `undo.c`. Every access to `undos` goes through `load` or
`store`, which write its index down, so that what is said of the indices
is said of all of them. They stay below the end of the array
(`SeekHistory.Bounded`), and the only one before its start is `-1`: the
first push of a run compares with it, and a seek back or a look back from
the oldest entry reads it (`seeks_inBounds`).
-/

namespace Radare

/-- `UNDOS`. -/
def undosSize : ℕ := 64

/-- The static variables of the history, `config.seek`, and the indices
used so far. -/
structure SeekHistory where
  undos : Vector ut64 undosSize
  undosIdx : ℤ
  undosLim : ℤ
  seek : ut64
  used : List ℤ

/-- The program as it starts. -/
def SeekHistory.start : SeekHistory := ⟨Vector.replicate undosSize 0, 0, 0, 0, []⟩

/-- The index is one of the array. -/
def InBounds (i : ℤ) : Prop := 0 ≤ i ∧ i < undosSize

instance (i : ℤ) : Decidable (InBounds i) := inferInstanceAs (Decidable (_ ∧ _))

variable {outside : ℤ → ut64} {h : SeekHistory} {i : ℤ}

/-! ## The functions -/

/-- A load from `undos`; `outside` is the memory around it. -/
def SeekHistory.load (outside : ℤ → ut64) (h : SeekHistory) (i : ℤ) : SeekHistory × ut64 :=
  ({ h with used := h.used ++ [i] },
    if 0 ≤ i then (h.undos[i.toNat]?).getD (outside i) else outside i)

/-- A store into `undos`. -/
def SeekHistory.store (h : SeekHistory) (i : ℤ) (x : ut64) : SeekHistory :=
  { h with
    used := h.used ++ [i]
    undos := if 0 ≤ i then h.undos.setIfInBounds i.toNat x else h.undos }

/-- `undo_get_last_seek`: the value returned. -/
def undoGetLastSeek (outside : ℤ → ut64) (h : SeekHistory) : SeekHistory × ut64 :=
  if h.undosIdx = 0 then (h, h.seek) else h.load outside (h.undosIdx - 2)

/-- `undo_seek`. -/
def undoSeek (outside : ℤ → ut64) (h : SeekHistory) : SeekHistory :=
  let h := { h with undosIdx := h.undosIdx - 1 }
  if h.undosIdx < 0 then { h with undosIdx := 0 }
  else
    let (h, seek) := h.load outside (h.undosIdx - 1)
    { h with seek := seek }

/-- `undo_redo`. -/
def undoRedo (outside : ℤ → ut64) (h : SeekHistory) : SeekHistory :=
  if h.undosIdx < h.undosLim then undoSeek outside { h with undosIdx := h.undosIdx + 2 } else h

/-- The loop of `undo_push`, which moves every entry down by one. -/
def undoShift (outside : ℤ → ut64) (h : SeekHistory) : SeekHistory :=
  (List.range (undosSize - 1)).foldl (fun (h : SeekHistory) (k : ℕ) =>
    let (h, x) := h.load outside ((k : ℤ) + 1)
    h.store (k : ℤ) x) h

/-- The index moves up, unless the array is full: then its entries move
down. -/
def undoAdvance (outside : ℤ → ut64) (h : SeekHistory) : SeekHistory :=
  if h.undosIdx = undosSize - 1 then undoShift outside h
  else { h with undosIdx := h.undosIdx + 1 }

/-- `undo_push`. -/
def undoPush (outside : ℤ → ut64) (h : SeekHistory) : SeekHistory :=
  let (h, last) := h.load outside (h.undosIdx - 1)
  if last = h.seek then h
  else
    let h := undoAdvance outside (h.store h.undosIdx h.seek)
    if h.undosLim < h.undosIdx then { h with undosLim := h.undosIdx } else h

/-- `undo_reset`. -/
def undoReset (h : SeekHistory) : SeekHistory := { h with undosIdx := 0 }

/-- A call, a push with the `config.seek` it finds. -/
inductive SeekOp where
  | push (seek : ut64)
  | seek
  | redo
  | reset
  | getLastSeek
deriving DecidableEq

/-- The history after a call. -/
def SeekHistory.step (outside : ℤ → ut64) (h : SeekHistory) : SeekOp → SeekHistory
  | .push seek => undoPush outside { h with seek := seek }
  | .seek => undoSeek outside h
  | .redo => undoRedo outside h
  | .reset => undoReset h
  | .getLastSeek => (undoGetLastSeek outside h).1

/-- The history after a run. -/
def SeekHistory.run (outside : ℤ → ut64) (ops : List SeekOp) : SeekHistory :=
  ops.foldl (SeekHistory.step outside) .start

/-- The indices a call uses. -/
def SeekHistory.uses (outside : ℤ → ut64) (h : SeekHistory) (op : SeekOp) : List ℤ :=
  (h.step outside op).used.drop h.used.length

/-- A call that does not look behind the oldest entry. -/
def SeekOp.Safe (h : SeekHistory) : SeekOp → Prop
  | .push _ => h.undosIdx ≠ 0
  | .seek => h.undosIdx ≠ 1
  | .redo => True
  | .reset => True
  | .getLastSeek => h.undosIdx ≠ 1

variable {op : SeekOp} {ops : List SeekOp}

instance : Decidable (op.Safe h) := by
  cases op <;> unfold SeekOp.Safe <;> infer_instance

/-! ## What a call does -/

/-- **The invariant of the index and its high-water mark.** -/
structure SeekHistory.Bounded (h : SeekHistory) : Prop where
  nonneg : 0 ≤ h.undosIdx
  le_lim : h.undosIdx ≤ h.undosLim
  lim_lt : h.undosLim < undosSize

/-- A call from one history to another that uses indices, all of them in
bounds exactly if the test holds. -/
structure Uses (h h' : SeekHistory) (safe : Prop) : Prop where
  bounded : h'.Bounded
  used : ∃ l, h'.used = h.used ++ l ∧ ((∀ i ∈ l, InBounds i) ↔ safe)

theorem inBounds_iff : InBounds i ↔ 0 ≤ i ∧ i < 64 := Iff.rfl

/-- The entries are moved within the array. -/
theorem undoShift_spec (outside : ℤ → ut64) (h : SeekHistory) :
    (undoShift outside h).undosIdx = h.undosIdx ∧ (undoShift outside h).undosLim = h.undosLim ∧
    ∃ l, (undoShift outside h).used = h.used ++ l ∧ ∀ i ∈ l, InBounds i := by
  unfold undoShift
  have hrange : ∀ k ∈ List.range (undosSize - 1), k < 63 := fun k hk => List.mem_range.mp hk
  generalize List.range (undosSize - 1) = ks at hrange
  induction ks generalizing h with
  | nil => exact ⟨rfl, rfl, [], (List.append_nil _).symm, fun i hi => by cases hi⟩
  | cons k ks ih =>
    have hk := hrange k List.mem_cons_self
    obtain ⟨hidx, hlim, l, hused, hl⟩ := ih (((h.load outside (k + 1)).1).store k
      (h.load outside (k + 1)).2) fun m hm => hrange m (List.mem_cons_of_mem _ hm)
    refine ⟨hidx, hlim, (k + 1 : ℤ) :: (k : ℤ) :: l, ?_, fun i hi => ?_⟩
    · rw [List.foldl_cons, hused]
      simp [SeekHistory.load, SeekHistory.store]
    · rw [inBounds_iff]
      rcases List.mem_cons.mp hi with rfl | hi
      · omega
      rcases List.mem_cons.mp hi with rfl | hi
      · omega
      · exact hl i hi

/-- **Going back reads the entry before the index.** -/
theorem undoSeek_spec (outside : ℤ → ut64) (hnn : 0 ≤ h.undosIdx)
    (hle : h.undosIdx - 1 ≤ h.undosLim) (hpos : 0 ≤ h.undosLim) (hlim : h.undosLim < 64) :
    Uses h (undoSeek outside h) (h.undosIdx ≠ 1) := by
  unfold undoSeek
  dsimp only
  split_ifs with hneg
  · refine ⟨⟨le_rfl, hpos, hlim⟩, [], (List.append_nil _).symm, ?_⟩
    exact iff_of_true (fun i hi => by cases hi) (by omega)
  · refine ⟨⟨Int.not_lt.mp hneg, hle, hlim⟩, [h.undosIdx - 1 - 1], rfl, ?_⟩
    rw [List.forall_mem_singleton, inBounds_iff]
    omega

theorem undoAdvance_spec (outside : ℤ → ut64) (hnn : 0 ≤ h.undosIdx) (hlt : h.undosIdx < 64) :
    0 ≤ (undoAdvance outside h).undosIdx ∧ (undoAdvance outside h).undosIdx < 64 ∧
    (undoAdvance outside h).undosLim = h.undosLim ∧
    ∃ l, (undoAdvance outside h).used = h.used ++ l ∧ ∀ i ∈ l, InBounds i := by
  unfold undoAdvance
  split_ifs with hfull
  · obtain ⟨hidx, hlim, l, hused, hl⟩ := undoShift_spec outside h
    rw [hidx, hlim]
    exact ⟨hnn, hlt, rfl, l, hused, hl⟩
  · rw [undosSize] at hfull
    refine ⟨?_, ?_, rfl, [], (List.append_nil _).symm, fun i hi => by cases hi⟩
    · show 0 ≤ h.undosIdx + 1
      omega
    · show h.undosIdx + 1 < 64
      omega

/-- **A push compares with the entry before the index**, and stores at the
index, which is always in bounds. -/
theorem undoPush_spec (outside : ℤ → ut64) (hb : h.Bounded) :
    Uses h (undoPush outside h) (h.undosIdx ≠ 0) := by
  obtain ⟨hnn, hle, hlim⟩ := hb
  have hlim64 : h.undosLim < 64 := hlim
  have hlast : InBounds (h.undosIdx - 1) ↔ h.undosIdx ≠ 0 := by
    rw [inBounds_iff]
    omega
  obtain ⟨hgnn, hglt, hglim, l, hused, hl⟩ := undoAdvance_spec outside
    (h := (h.load outside (h.undosIdx - 1)).1.store h.undosIdx h.seek) hnn (by
      show h.undosIdx < 64
      omega)
  have hg : ∃ l', (undoAdvance outside ((h.load outside (h.undosIdx - 1)).1.store h.undosIdx
      h.seek)).used = h.used ++ l' ∧ ((∀ i ∈ l', InBounds i) ↔ h.undosIdx ≠ 0) := by
    refine ⟨(h.undosIdx - 1) :: h.undosIdx :: l, ?_, ?_⟩
    · rw [hused]
      simp [SeekHistory.load, SeekHistory.store]
    · have hidx : InBounds h.undosIdx := ⟨hnn, by
        rw [undosSize]
        omega⟩
      rw [List.forall_mem_cons, List.forall_mem_cons, hlast]
      exact and_iff_left ⟨hidx, hl⟩
  unfold undoPush
  dsimp only
  split_ifs with hsame hraise
  · refine ⟨⟨hnn, hle, hlim⟩, [h.undosIdx - 1], rfl, ?_⟩
    rw [List.forall_mem_singleton, hlast]
  · exact ⟨⟨hgnn, le_rfl, hglt⟩, hg⟩
  · exact ⟨⟨hgnn, Int.not_lt.mp hraise, lt_of_eq_of_lt hglim hlim⟩, hg⟩

/-- **Every call keeps the bounds, and uses indices in bounds exactly if it
is safe.** -/
theorem step_spec (outside : ℤ → ut64) (hb : h.Bounded) (op : SeekOp) :
    Uses h (h.step outside op) (op.Safe h) := by
  have hidle : ∀ safe : Prop, safe → ∃ l, h.used = h.used ++ l ∧
      ((∀ i ∈ l, InBounds i) ↔ safe) := fun safe hs =>
    ⟨[], (List.append_nil _).symm, iff_of_true (fun i hi => by cases hi) hs⟩
  obtain ⟨hnn, hle, hlim⟩ := hb
  have hlim64 : h.undosLim < 64 := hlim
  cases op with
  | push seek =>
    obtain ⟨hb', hused⟩ := undoPush_spec outside (h := { h with seek := seek }) ⟨hnn, hle, hlim⟩
    exact ⟨hb', hused⟩
  | seek => exact undoSeek_spec outside hnn (by omega) (by omega) hlim
  | redo =>
    show Uses h (undoRedo outside h) True
    unfold undoRedo
    split_ifs with hlt
    · obtain ⟨hb', hused⟩ := undoSeek_spec outside (h := { h with undosIdx := h.undosIdx + 2 }) (by
          show 0 ≤ h.undosIdx + 2
          omega) (by
          show h.undosIdx + 2 - 1 ≤ h.undosLim
          omega) (by
          show 0 ≤ h.undosLim
          omega) hlim
      have hne : h.undosIdx + 2 ≠ 1 := by omega
      exact ⟨hb', by simpa [hne] using hused⟩
    · exact ⟨⟨hnn, hle, hlim⟩, hidle True trivial⟩
  | reset => exact ⟨⟨le_rfl, by show 0 ≤ h.undosLim; omega, hlim⟩, hidle True trivial⟩
  | getLastSeek =>
    show Uses h (undoGetLastSeek outside h).1 (h.undosIdx ≠ 1)
    unfold undoGetLastSeek
    split_ifs with hzero
    · exact ⟨⟨hnn, hle, hlim⟩, hidle _ (by omega)⟩
    · refine ⟨⟨hnn, hle, hlim⟩, [h.undosIdx - 2], rfl, ?_⟩
      rw [List.forall_mem_singleton, inBounds_iff]
      omega

/-! ## Runs -/

theorem start_bounded : SeekHistory.start.Bounded := ⟨le_rfl, le_rfl, by decide⟩

theorem run_concat :
    SeekHistory.run outside (ops ++ [op]) = (SeekHistory.run outside ops).step outside op := by
  unfold SeekHistory.run
  rw [List.foldl_append]
  rfl

/-- **The bounds hold after every run.** -/
theorem run_bounded (ops : List SeekOp) : (SeekHistory.run outside ops).Bounded := by
  induction ops using List.reverseRecOn with
  | nil => exact start_bounded
  | append_singleton ops op ih =>
    rw [run_concat]
    exact (step_spec outside ih op).bounded

/-- Before the first push there is nothing to go back to. -/
theorem run_of_not_push (hops : ∀ x, .push x ∉ ops) :
    SeekHistory.run outside ops = .start := by
  induction ops using List.reverseRecOn with
  | nil => rfl
  | append_singleton ops op ih =>
    rw [run_concat, ih fun x hx => hops x (List.mem_append_left _ hx)]
    have hop : ∀ x, op ≠ .push x := fun x hx => hops x (by simp [hx])
    cases op with
    | push x => exact absurd rfl (hop x)
    | seek => rfl
    | redo => rfl
    | reset => rfl
    | getLastSeek => rfl

/-- What a run has used stays used. -/
theorem used_run_append (ops ops' : List SeekOp) :
    (SeekHistory.run outside ops).used <+: (SeekHistory.run outside (ops ++ ops')).used := by
  induction ops' using List.reverseRecOn with
  | nil => rw [List.append_nil]
  | append_singleton ops' op ih =>
    rw [← List.append_assoc, run_concat]
    obtain ⟨l, hused, -⟩ := (step_spec outside (run_bounded (ops ++ ops')) op).used
    rw [hused]
    exact ih.trans (List.prefix_append _ _)

/-- **Where the indices into `undos` stay in bounds**: in the runs without
a push, and after any run in the calls that look no further back than the
oldest entry. -/
theorem seeks_inBounds (outside : ℤ → ut64) (ops : List SeekOp) :
    ((∀ i ∈ (SeekHistory.run outside ops).used, InBounds i) ↔ ∀ x, .push x ∉ ops) ∧
    ∀ op : SeekOp, (∀ i ∈ (SeekHistory.run outside ops).uses outside op, InBounds i) ↔
      op.Safe (SeekHistory.run outside ops) := by
  refine ⟨⟨fun hall => ?_, fun hops => ?_⟩, fun op => ?_⟩
  · induction ops using List.reverseRecOn with
    | nil =>
      intro x hx
      cases hx
    | append_singleton ops op ih =>
      have hops := ih fun i hi => hall i ((used_run_append ops [op]).subset hi)
      obtain ⟨l, hused, hl⟩ := (step_spec outside (run_bounded ops) op).used
      rw [run_concat, hused] at hall
      have hsafe := hl.mp fun i hi => hall i (List.mem_append_right _ hi)
      intro x hx
      rcases List.mem_append.mp hx with hx | hx
      · exact hops x hx
      · -- a first push would compare with the entry before the first
        obtain rfl := List.mem_singleton.mp hx
        rw [run_of_not_push hops] at hsafe
        exact hsafe rfl
  · rw [run_of_not_push hops]
    intro i hi
    cases hi
  · obtain ⟨l, hused, hl⟩ := (step_spec outside (run_bounded ops) op).used
    unfold SeekHistory.uses
    rw [hused, List.drop_left, hl]

/-- **The first push is out of bounds.** -/
theorem first_push_out_of_bounds :
    -1 ∈ (SeekHistory.run (fun _ => 0) [.push 0x10]).used ∧ ¬InBounds (-1) := by
  decide

/-! ## Back and forth -/

/-- A seek back from an entry that is not the oldest. -/
theorem undoSeek_of_lt (hidx : 1 ≤ h.undosIdx) :
    undoSeek outside h =
      { h with
        undosIdx := h.undosIdx - 1
        seek := (h.load outside (h.undosIdx - 2)).2
        used := h.used ++ [h.undosIdx - 2] } := by
  unfold undoSeek
  dsimp only
  rw [if_neg (by omega), Int.sub_sub]
  rfl

/-- **A seek back and a redo** lead to where they began, if that is the
entry below the index. The index is below the high-water mark once it has
gone down, so the redo goes up by two and one down again. -/
theorem SeekHistory.Bounded.redo_undoSeek (hb : h.Bounded) (htwo : 2 ≤ h.undosIdx) :
    undoRedo outside (undoSeek outside h) =
      { h with
        seek := (h.load outside (h.undosIdx - 1)).2
        used := h.used ++ [h.undosIdx - 2, h.undosIdx - 1] } := by
  have hlt : h.undosIdx - 1 < h.undosLim := by
    have := hb.le_lim
    omega
  have hup : h.undosIdx - 1 + 2 = h.undosIdx + 1 := by omega
  have htop : h.undosIdx + 1 - 2 = h.undosIdx - 1 := by omega
  rw [undoSeek_of_lt (by omega)]
  unfold undoRedo
  dsimp only
  rw [if_pos hlt, hup, undoSeek_of_lt (by
    show 1 ≤ h.undosIdx + 1
    omega)]
  unfold SeekHistory.load
  simp only [htop, Int.add_sub_cancel, List.append_assoc, List.singleton_append]

/-- **Undo and redo are the identity**: after any run, with any seek that is
the entry below an index of two or more, a seek back and a redo leave the
seek, the index, the high-water mark and the entries as they are. -/
theorem undo_then_redo (outside : ℤ → ut64) (ops : List SeekOp) (seek : ut64)
    (htwo : 2 ≤ (SeekHistory.run outside ops).undosIdx)
    (hseek : (SeekHistory.run outside ops).undos[
      ((SeekHistory.run outside ops).undosIdx - 1).toNat]? = some seek) :
    let h := { SeekHistory.run outside ops with seek := seek }
    let h' := undoRedo outside (undoSeek outside h)
    h'.seek = h.seek ∧ h'.undosIdx = h.undosIdx ∧ h'.undosLim = h.undosLim ∧
      h'.undos = h.undos := by
  intro h h'
  have hrun : (SeekHistory.run outside ops).Bounded := run_bounded ops
  have hb : h.Bounded := ⟨hrun.nonneg, hrun.le_lim, hrun.lim_lt⟩
  have hh' : h' = _ := hb.redo_undoSeek htwo
  have hload : (h.load outside (h.undosIdx - 1)).2 = seek := by
    have hpos : 0 ≤ h.undosIdx - 1 := by
      have : 2 ≤ h.undosIdx := htwo
      omega
    have hentry : h.undos[(h.undosIdx - 1).toNat]? = some seek := hseek
    unfold SeekHistory.load
    dsimp only
    rw [if_pos hpos, hentry, Option.getD_some]
  rw [hh']
  exact ⟨hload, rfl, rfl, rfl⟩

/-- Two seeks. -/
theorem undo_then_redo_two :
    let h := SeekHistory.run (fun _ => 0) [.push 0x10, .push 0x20]
    (undoRedo (fun _ => 0) (undoSeek (fun _ => 0) { h with seek := 0x20 })).seek = 0x20 :=
  (undo_then_redo (fun _ => 0) [.push 0x10, .push 0x20] 0x20 (by decide) (by decide)).1

end Radare
