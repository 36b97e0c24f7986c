import Radare.Rio.Undo
/-!
# Runs of writes

Any run of the three writers, with whatever other commands do to the seek,
the block and `cfg.count` between them. While every write is of one copy
`undo_write_set_all` puts the file back (`writes_undone`). A write of two
copies records the first alone, and the second stays
(`second_copy_stays`).
-/

namespace Radare

/-- A step of a run, with what it takes from outside. -/
inductive WriteOp where
  | write (getMath : List u8 → ut64) (behind arg : List u8) (mode : WMode)
  | writeAt (offset : ut64) (data : List u8)
  | poke (content : Option (List u8)) (yes : Bool)
  /-- Other commands, which leave the file and the undo list. -/
  | between (config : Config) (pos : ℕ) (count : ut64)

variable {fresh : ℕ → u8} {s s' : State} {op : WriteOp}

/-- The program after a step. -/
def WriteOp.run (fresh : ℕ → u8) (s : State) : WriteOp → Option State
  | .write getMath behind arg mode => (radareWrite getMath fresh behind s arg mode).map Prod.fst
  | .writeAt offset data => some (radareWriteAt fresh s offset data).1
  | .poke content yes => some (radarePoke fresh s content yes)
  | .between config pos count =>
    some { s with pos := pos, config := config, eval := { s.eval with count := count } }

/-- The program after a run. -/
def writes : List ((ℕ → u8) × WriteOp) → State → Option State
  | [], s => some s
  | (fresh, op) :: ops, s => (op.run fresh s).bind (writes ops)

/-- Every step of a run is as the predicate says. -/
def Throughout (P : (ℕ → u8) → State → WriteOp → Prop) :
    List ((ℕ → u8) × WriteOp) → State → Prop
  | [], _ => True
  | (fresh, op) :: ops, s => P fresh s op ∧ ∀ t, op.run fresh s = some t → Throughout P ops t

/-- The bytes written, all copies of them, lie inside the file; between
the writes the base address stays 0. -/
def WriteOp.Inside (fresh : ℕ → u8) (s : State) : WriteOp → Prop
  | .write getMath behind arg mode => ∀ data, s.eval.write = true →
      writeBytes getMath behind arg mode = some data → data ≠ [] →
      s.config.seek.toNat + data.length * writeTimes s.eval.count ≤ s.file.length
  | .writeAt offset data => offset.toNat + data.length ≤ s.file.length
  | .poke content _ => ∀ bytes, content = some bytes → s.eval.write = true →
      s.config.seek.toNat + (pokeData fresh s bytes).length * writeTimes s.eval.count ≤
        s.file.length
  | .between config _ _ => config.vaddr = 0

/-- One copy is written, `file.insert` moves nothing, and the bytes that
were there are read from the file. -/
def WriteOp.OneCopy (fresh : ℕ → u8) (s : State) : WriteOp → Prop
  | .write getMath behind arg mode => ∀ data, s.eval.write = true →
      writeBytes getMath behind arg mode = some data → data ≠ [] →
      writeTimes s.eval.count = 1 ∧ ¬s.Shifts ∧ s.core.Unmapped s.config.seek data.length
  | .writeAt offset data => s.core.Unmapped offset data.length
  | .poke content _ => ∀ bytes, content = some bytes → s.eval.write = true →
      (writeTimes s.eval.count = 1 ∨ pokeData fresh s bytes = []) ∧
        s.core.Unmapped s.config.seek (pokeData fresh s bytes).length
  | .between _ _ _ => True

/-- Before a run: writes go to the file, they are recorded, and nothing is
yet. -/
structure State.Unwritten (s : State) : Prop extends s.core.Direct where
  undowrite : s.eval.undowrite = true
  undoWLock : s.undoWLock = false
  undoWList : s.undoWList = []
  /-- The descriptor takes every offset of the file. -/
  small : s.file.length < 2 ^ 63

theorem State.Unwritten.undoable (h : s.Unwritten) : s.core.Undoable s.file where
  sections := h.sections
  vaddr := h.vaddr
  writeMask := h.writeMask
  undowrite := h.undowrite
  undoWLock := h.undoWLock
  length := rfl
  inside := fun u hu => by
    have hlist : s.core.undoWList = [] := h.undoWList
    rw [hlist] at hu
    cases hu
  restores := by
    have hlist : s.core.undoWList = [] := h.undoWList
    rw [hlist]
    rfl
  idle := fun _ => rfl

/-- **A step of one copy inside the file keeps the file undoable.** -/
theorem WriteOp.run_undoable {orig : List u8} (hfile : orig.length < 2 ^ 63)
    (h : s.core.Undoable orig) (hin : op.Inside fresh s) (hone : op.OneCopy fresh s)
    (hrun : op.run fresh s = some s') : s'.core.Undoable orig := by
  have hlength : s.file.length = orig.length := h.length
  cases op with
  | write getMath behind arg mode =>
    obtain ⟨⟨t, ret⟩, hret, rfl⟩ := Option.map_eq_some_iff.mp hrun
    unfold radareWrite at hret
    by_cases hwrite : (!s.eval.write) = true
    · rw [if_pos hwrite] at hret
      obtain ⟨rfl, -⟩ := Prod.mk.inj (Option.some.inj hret)
      exact h
    · rw [if_neg hwrite] at hret
      obtain ⟨data, hdata, hret⟩ := Option.bind_eq_some_iff.mp hret
      split_ifs at hret
      have hundo := h.radareWriteData fresh hfile fun hw hne => by
        obtain ⟨htimes, hshift, hmap⟩ := hone data hw hdata hne
        have hinside := hin data hw hdata hne
        rw [htimes, Nat.mul_one, hlength] at hinside
        exact ⟨htimes, hshift, hinside, hmap⟩
      rwa [Option.some.inj hret] at hundo
  | writeAt offset data =>
    obtain rfl := Option.some.inj hrun
    exact h.radareWriteAt fresh hfile (by rw [← hlength]; exact hin) hone
  | poke content yes =>
    obtain rfl := Option.some.inj hrun
    refine h.radarePoke fresh hfile fun bytes hbytes hw => ?_
    obtain ⟨htimes, hmap⟩ := hone bytes hbytes hw
    have hinside := hin bytes hbytes hw
    refine ⟨htimes, ?_, hmap⟩
    rcases htimes with htimes | hnil
    · rwa [htimes, Nat.mul_one, hlength] at hinside
    · rw [hnil] at hinside ⊢
      rw [hlength] at hinside
      simpa using hinside
  | between config pos count =>
    obtain rfl := Option.some.inj hrun
    exact { h with vaddr := hin }

/-- A run of them. -/
theorem writes_undoable {orig : List u8} (hfile : orig.length < 2 ^ 63)
    {ops : List ((ℕ → u8) × WriteOp)} (h : s.core.Undoable orig)
    (hin : Throughout WriteOp.Inside ops s) (hone : Throughout WriteOp.OneCopy ops s)
    (hrun : writes ops s = some s') : s'.core.Undoable orig := by
  induction ops generalizing s with
  | nil =>
    obtain rfl := Option.some.inj hrun
    exact h
  | cons fop ops ih =>
    obtain ⟨fresh, op⟩ := fop
    obtain ⟨t, ht, hrun⟩ := Option.bind_eq_some_iff.mp hrun
    have hstep := WriteOp.run_undoable hfile h hin.1 hone.1 ht
    exact ih hstep (hin.2 t ht) (hone.2 t ht) hrun

/-- **What is written is undone**: after any run of writes inside the
file, each of one copy, `undo_write_set_all` leaves the file as it was. -/
theorem writes_undone (fresh : ℕ → u8) (s s' : State) (ops : List ((ℕ → u8) × WriteOp))
    (hs : s.Unwritten) (hin : Throughout WriteOp.Inside ops s)
    (hone : Throughout WriteOp.OneCopy ops s) (hrun : writes ops s = some s') :
    (undoWriteSetAll fresh s' false).file = s.file :=
  (writes_undoable hs.small hs.undoable hin hone hrun).undoWriteSetAll fresh hs.small

/-- `Z` written over `AB`, and then `Y` behind it. -/
theorem writes_undone_zy :
    ∃ s', writes [(fun _ => 0, .write (fun _ => 0) [] [0x5a] .string),
        (fun _ => 0, .writeAt 1 [0x59])] (openFile [0x41, 0x42] 2 1) = some s' ∧
      s'.file = [0x5a, 0x59] ∧ (undoWriteSetAll (fun _ => 0) s' false).file = [0x41, 0x42] := by
  refine ⟨_, rfl, by decide, ?_⟩
  refine writes_undone (fun _ => 0) (openFile [0x41, 0x42] 2 1) _
    [(fun _ => 0, .write (fun _ => 0) [] [0x5a] .string), (fun _ => 0, .writeAt 1 [0x59])]
    ⟨⟨rfl, rfl, rfl⟩, rfl, rfl, rfl, by decide⟩ ⟨?_, ?_⟩ ⟨?_, ?_⟩ rfl
  · intro data _ hdata _
    obtain rfl := Option.some.inj hdata
    decide
  · intro t ht
    obtain rfl := Option.some.inj ht
    have hinside : (1 : ut64).toNat + [(0x59 : u8)].length ≤ 2 := by decide
    exact ⟨hinside, fun _ _ => trivial⟩
  · intro data _ hdata _
    obtain rfl := Option.some.inj hdata
    exact ⟨by decide, by decide, rfl⟩
  · intro t ht
    obtain rfl := Option.some.inj ht
    exact ⟨rfl, fun _ _ => trivial⟩

/-- **The second copy stays**: `Z` is written twice over `AB`, and undone
once. -/
theorem second_copy_stays :
    (openFile [0x41, 0x42] 2 2).Unwritten ∧
    Throughout WriteOp.Inside [(fun _ => 0, .write (fun _ => 0) [] [0x5a] .string)]
      (openFile [0x41, 0x42] 2 2) ∧
    ∃ s', writes [(fun _ => 0, .write (fun _ => 0) [] [0x5a] .string)]
        (openFile [0x41, 0x42] 2 2) = some s' ∧
      (undoWriteSetAll (fun _ => 0) s' false).file = [0x41, 0x5a] := by
  refine ⟨⟨⟨rfl, rfl, rfl⟩, rfl, rfl, rfl, by decide⟩, ⟨?_, fun _ _ => trivial⟩, _, rfl, by decide⟩
  intro data _ hdata _
  obtain rfl := Option.some.inj hdata
  decide

end Radare
