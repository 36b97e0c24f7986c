import Radare.Common.Loop
import Radare.Model.Text
import Radare.Rio.Protect
/-!
# Listing the writes, and choosing one

`undo_write_list` numbers the records from the oldest on, and
`undo_write_set` counts from the newest. No two records of a history are
of the same write (`State.History.nodup`), so the record with an index in
the one is the record with that index in the other only in the middle of
the list (`listing_agrees`).
-/

namespace Radare

open Common

variable {s t : State} {off : ut64} {data : List u8} {us : List UndoW} {n i : ℕ}

/-! ## The functions -/

/-- `undo_write_size`. -/
def undoWriteSize (s : State) : ℕ := s.undoWList.length

/-- The first bytes of a record's data, and two dots where there are as
many as are shown. -/
def undoWriteBytes (data : List u8) : List u8 :=
  let bw := 8
  (data.take bw).flatMap (fun c => hexText 2 c.toUInt64 ++ [32]) ++
    if bw ≤ data.length then [46, 46, 32] else []

/-- The line `undo_write_list(0)` prints for a record. -/
def undoWriteLine (i : ℕ) (u : UndoW) : List u8 :=
  decText 2 i ++ [32, if u.set then 43 else 45, 32] ++ decText 1 u.n.length ++ [32] ++
    hexText 8 u.off ++ [58, 32] ++ undoWriteBytes u.o ++ [61, 62, 32] ++ undoWriteBytes u.n ++ [10]

/-- The loop of `undo_write_list`: every record, with the index it is
printed with. -/
def undoWriteNumbered : ℕ → List UndoW → List (ℕ × UndoW)
  | _, [] => []
  | i, u :: us => (i, u) :: undoWriteNumbered (i + 1) us

/-- `undo_write_list(0)`. -/
def undoWriteList (s : State) : List (List u8) :=
  (undoWriteNumbered 0 s.undoWList).map fun (i, u) => undoWriteLine i u

/-- The record printed with an index. -/
def undoWritePrinted (s : State) (n : ℕ) : Option UndoW :=
  ((undoWriteNumbered 0 s.undoWList).find? fun iu => iu.1 = n).map Prod.snd

/-- The record `undo_write_set` applies: its loop counts from the end of
the list. -/
def undoWriteSelected (s : State) (n : ℤ) : Option UndoW := nthFrom n 0 s.undoWList.reverse

/-- `undo_write_set`. -/
def undoWriteSet (fresh : ℕ → u8) (s : State) (n : ℤ) (set : Bool) : State :=
  match undoWriteSelected s n with
  | none => s
  | some u =>
    let (s, u) := undoWriteSetT fresh s u set
    { s with undoWList := (s.undoWList.reverse.set n.toNat u).reverse }

/-- A history of recorded writes, with the undoing and redoing of some of
them, and whatever else the program does between. -/
inductive State.History : State → Prop
  | start (s : State) (hs : s.undoWList = []) : s.History
  | new (s : State) (h : s.History) (fresh : ℕ → u8) (off : ut64) (data : List u8) :
      (undoWriteNew fresh s off data).History
  | set (s : State) (h : s.History) (fresh : ℕ → u8) (n : ℤ) (set : Bool) :
      (undoWriteSet fresh s n set).History
  | setAll (s : State) (h : s.History) (fresh : ℕ → u8) (set : Bool) :
      (undoWriteSetAll fresh s set).History
  | between (s t : State) (h : s.History) (ht : t.undoWList = s.undoWList) : t.History

/-! ## The two traversals -/

theorem undoWriteSelected_eq : undoWriteSelected s n = s.undoWList.reverse[n]? := by
  unfold undoWriteSelected
  rw [nthFrom_eq, if_neg (by omega)]
  congr 1

theorem find?_undoWriteNumbered (i n : ℕ) (us : List UndoW) :
    ((undoWriteNumbered i us).find? fun iu => iu.1 = i + n).map Prod.snd = us[n]? := by
  induction us generalizing i n with
  | nil => rfl
  | cons u us ih =>
    unfold undoWriteNumbered
    cases n with
    | zero => simp
    | succ n =>
      rw [List.find?_cons_of_neg (by simp), List.getElem?_cons_succ, ← ih (i + 1) n]
      congr 2
      ext iu
      rw [Nat.add_right_comm i 1 n, Nat.add_assoc]

theorem undoWriteNumbered_getElem? (i n : ℕ) (us : List UndoW) :
    (undoWriteNumbered i us)[n]? = us[n]?.map fun u => (i + n, u) := by
  induction us generalizing i n with
  | nil => rfl
  | cons u us ih =>
    cases n with
    | zero => rfl
    | succ n =>
      unfold undoWriteNumbered
      rw [List.getElem?_cons_succ, List.getElem?_cons_succ, ih]
      congr! 3
      omega

theorem undoWritePrinted_eq : undoWritePrinted s n = s.undoWList[n]? := by
  have h := find?_undoWriteNumbered 0 n s.undoWList
  rwa [Nat.zero_add] at h

/-- **The lines of the listing** are those of the records printed, each with
its index. -/
theorem undoWriteList_getElem? :
    (undoWriteList s)[n]? = (undoWritePrinted s n).map (undoWriteLine n) := by
  rw [undoWritePrinted_eq]
  unfold undoWriteList
  rw [List.getElem?_map, undoWriteNumbered_getElem?, Option.map_map, Nat.zero_add]
  rfl

/-! ## No write is in a history twice -/

/-- What tells a record from the others. -/
def UndoW.key (u : UndoW) : ut64 × List u8 := (u.off, u.n)

/-- **Below the lock nothing is recorded**, wherever the write goes. -/
theorem undoWList_radareWriteAt (fresh : ℕ → u8) (hlock : s.undoWLock = true) :
    (radareWriteAt fresh s off data).1.undoWList = s.undoWList := by
  have hseek : ∀ (t : State) (o : ut64), (radareSeek t o .set).1.undoWList = t.undoWList :=
    fun t o => congrArg Core.undoWList (core_radareSeek .set)
  by_cases hw : ∃ sec, sectionGet s.sections off = some sec ∧ sec.Writable
  · obtain ⟨sec, hsec, hw⟩ := hw
    rw [radareWriteAt_of_writable hsec hw]
    exact hseek s off
  · obtain ⟨data', -, heq⟩ := radareWriteAt_of_not_writable fresh data
      fun sec hsec hw' => hw ⟨sec, hsec, hw'⟩
    obtain ⟨o, -, hcore⟩ := core_prepared fresh s off data
    have hunlocked : ¬s.Records off data := fun h => by
      rw [h.2.1] at hlock
      cases hlock
    rw [if_neg hunlocked] at hcore
    have hio : ∀ t : State, (ioWrite t data').1.undoWList = t.undoWList := fun t => by
      unfold ioWrite
      split_ifs <;> rfl
    rw [heq, hseek, hio]
    exact congrArg Core.undoWList hcore

theorem undoWriteSetT_spec (fresh : ℕ → u8) (s : State) (u : UndoW) (set : Bool) :
    (undoWriteSetT fresh s u set).1.undoWList = s.undoWList ∧
      (undoWriteSetT fresh s u set).2.key = u.key := by
  refine ⟨?_, rfl⟩
  unfold undoWriteSetT
  exact undoWList_radareWriteAt fresh rfl

theorem undoWriteEach_keys (fresh : ℕ → u8) (s : State) (set : Bool) (us : List UndoW) :
    (undoWriteEach fresh s set us).2.map UndoW.key = us.map UndoW.key := by
  induction us with
  | nil => rfl
  | cons u us ih =>
    unfold undoWriteEach
    dsimp only
    rw [List.map_cons, List.map_cons, ih, (undoWriteSetT_spec fresh _ u set).2]

/-- A record put back in its place leaves the keys. -/
theorem map_key_set {u v : UndoW} (hu : us[n]? = some u) (hv : v.key = u.key) :
    (us.set n v).map UndoW.key = us.map UndoW.key := by
  obtain ⟨hn, rfl⟩ := List.getElem?_eq_some_iff.mp hu
  have hn' : n < (us.map UndoW.key).length := by rwa [List.length_map]
  have hk : (us.map UndoW.key)[n] = us[n].key := List.getElem_map _
  rw [List.map_set, hv, ← hk, List.set_getElem_self]

theorem undoWriteSet_keys (fresh : ℕ → u8) (s : State) (n : ℤ) (set : Bool) :
    (undoWriteSet fresh s n set).undoWList.map UndoW.key = s.undoWList.map UndoW.key := by
  unfold undoWriteSet
  cases hu : undoWriteSelected s n with
  | none => rfl
  | some u =>
    obtain ⟨hlist, hkey⟩ := undoWriteSetT_spec fresh s u set
    unfold undoWriteSelected at hu
    rw [nthFrom_eq] at hu
    split_ifs at hu
    have hget : s.undoWList.reverse[n.toNat]? = some u := by
      rw [← hu]
      congr 2
      omega
    dsimp only
    rw [hlist, List.map_reverse, map_key_set hget hkey, ← List.map_reverse, List.reverse_reverse]

/-- **The records of a history are of different writes.** -/
theorem State.History.nodup (h : s.History) : (s.undoWList.map UndoW.key).Nodup := by
  induction h with
  | start s hs =>
    rw [hs]
    exact List.nodup_nil
  | new s h fresh off data ih =>
    by_cases hrec : s.Records off data
    · have hlist : (undoWriteNew fresh s off data).undoWList = s.undoWList ++ [⟨true, off,
          (radareReadAt s off (malloc fresh data.length)).2, data⟩] := by
        have := congrArg Core.undoWList (core_undoWriteNew fresh s off data)
        rwa [if_pos hrec] at this
      rw [hlist, List.map_append, List.map_singleton, List.nodup_append]
      refine ⟨ih, List.nodup_singleton _, fun k hk k' hk' hkk => ?_⟩
      -- a record of the same write would have been found
      obtain ⟨u, hu, rfl⟩ := List.mem_map.mp hk
      obtain rfl := List.mem_singleton.mp hk'
      obtain ⟨hoff, hn⟩ := Prod.mk.inj hkk
      exact hrec.2.2 u hu ⟨hoff.symm, hn.symm⟩
    · rwa [undoWriteNew_of_not_records hrec]
  | set s h fresh n set ih => rwa [undoWriteSet_keys]
  | setAll s h fresh set ih =>
    unfold undoWriteSetAll
    dsimp only
    rwa [undoWriteEach_keys]
  | between s t h ht ih => rwa [ht]

/-! ## Agreement -/

/-- **The listing and the selector agree in the middle alone.** -/
theorem listing_agrees (s : State) (n : ℕ) (h : s.History) (hn : n < undoWriteSize s) :
    undoWritePrinted s n = undoWriteSelected s n ↔ 2 * n + 1 = undoWriteSize s := by
  have hnodup : s.undoWList.Nodup := h.nodup.of_map _
  unfold undoWriteSize at hn ⊢
  have hrev : s.undoWList.length - 1 - n < s.undoWList.length := by omega
  rw [undoWritePrinted_eq, undoWriteSelected_eq, List.getElem?_reverse hn,
    List.getElem?_eq_getElem hn, List.getElem?_eq_getElem hrev, Option.some_inj,
    hnodup.getElem_inj_iff]
  omega

/-- A file with records of `Z` at 0, at 1 and so on. -/
def recorded : ℕ → State
  | 0 => openFile [0x41, 0x42, 0x43] 3 1
  | n + 1 => undoWriteNew (fun _ => 0) (recorded n) (UInt64.ofNat n) [0x5a]

theorem recorded_history : ∀ n, (recorded n).History
  | 0 => .start _ rfl
  | n + 1 => .new _ (recorded_history n) _ _ _

/-- The second of three records is the second from both ends. -/
theorem listing_agrees_three :
    undoWritePrinted (recorded 3) 1 = undoWriteSelected (recorded 3) 1 :=
  (listing_agrees (recorded 3) 1 (recorded_history 3) (by decide)).mpr (by decide)

/-- **Of two records each is taken for the other.** -/
theorem listing_swaps_two :
    (recorded 2).History ∧ undoWriteSize (recorded 2) = 2 ∧
    (undoWritePrinted (recorded 2) 0).map UndoW.off = some 0 ∧
    (undoWriteSelected (recorded 2) 0).map UndoW.off = some 1 :=
  ⟨.new _ (.new _ (.start _ rfl) _ _ _) _ _ _, by decide⟩

end Radare
