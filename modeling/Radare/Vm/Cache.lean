import Radare.Rio.Model
import Mathlib.Data.List.Induction
/-!
# Cached memory

With `vm.realio` off the VM writes to a list and reads from it first: a
write appends a record, and a read is answered by the first record that
contains its range, with the bytes at the record's own start. So the answer
is that of a memory, where the latest write to a byte decides, only as far
as that record has the latest bytes at these places
(`vmMmuRead_latest_iff`).
-/

namespace Radare

/-- `struct vm_change_t`. -/
structure VmChange where
  from_ : ut64
  to_ : ut64
  data : List u8
deriving DecidableEq

/-- The static variables, and the program the VM runs in. -/
structure VmState where
  io : State
  realio : Bool
  cache : List VmChange

/-- `vm_mmu_cache_write`. -/
def vmMmuCacheWrite (cache : List VmChange) (addr : ut64) (buf : List u8) : List VmChange :=
  cache ++ [⟨addr, addr + UInt64.ofNat buf.length, buf⟩]

/-- A byte of the data, or of what is behind it in memory. -/
def VmChange.byte (behind : VmChange → ℕ → u8) (c : VmChange) (k : ℕ) : u8 :=
  c.data.getD k (behind c (k - c.data.length))

/-- The test of `vm_mmu_cache_read`. -/
def VmChange.Contains (c : VmChange) (addr : ut64) (len : ℕ) : Prop :=
  addr ≥ c.from_ ∧ addr + UInt64.ofNat len ≤ c.to_

instance {c : VmChange} {addr : ut64} {len : ℕ} : Decidable (c.Contains addr len) :=
  inferInstanceAs (Decidable (_ ∧ _))

/-- `vm_mmu_cache_read`: the bytes copied into the buffer, if it returns
1. -/
def vmMmuCacheRead (behind : VmChange → ℕ → u8) (cache : List VmChange) (addr : ut64)
    (len : ℕ) : Option (List u8) :=
  (cache.find? fun c => c.Contains addr len).map fun c => (List.range len).map (c.byte behind)

/-- `vm_mmu_read`: the buffer after the read, and the value returned. -/
def vmMmuRead (behind : VmChange → ℕ → u8) (vm : VmState) (off : ut64) (buf : List u8) :
    VmState × List u8 × ℕ :=
  match if vm.realio then none else vmMmuCacheRead behind vm.cache off buf.length with
  | some data => (vm, data, buf.length)
  | none =>
    let (io, data) := radareReadAt vm.io off buf
    ({ vm with io := io }, data, (ioRead (radareSeek vm.io off .set).1 buf.length).2.1)

/-- `vm_mmu_write`. -/
def vmMmuWrite (fresh : ℕ → u8) (vm : VmState) (off : ut64) (data : List u8) : VmState × ℤ :=
  if vm.realio then
    let (io, ret) := radareWriteAt fresh vm.io off data
    ({ vm with io := io }, ret)
  else ({ vm with cache := vmMmuCacheWrite vm.cache off data }, 0)

/-! ## Writes -/

/-- A write: where, and what. -/
structure VmWrite where
  addr : ut64
  data : List u8

/-- The record it makes. -/
def VmWrite.change (w : VmWrite) : VmChange := ⟨w.addr, w.addr + UInt64.ofNat w.data.length, w.data⟩

/-- What it stores at an address, if it covers it. -/
def VmWrite.stores (w : VmWrite) (x : ut64) : Option u8 := w.data[(x - w.addr).toNat]?

/-- The writes one after the other. -/
def vmWrites (fresh : ℕ → u8) (vm : VmState) (writes : List VmWrite) : VmState :=
  writes.foldl (fun vm w => (vmMmuWrite fresh vm w.addr w.data).1) vm

/-- The byte that the latest write covering an address stored there. -/
def latest (writes : List VmWrite) (x : ut64) : Option u8 := writes.reverse.findSome? (·.stores x)

variable {fresh : ℕ → u8} {behind : VmChange → ℕ → u8} {vm : VmState} {writes : List VmWrite}
variable {w : VmWrite} {addr : ut64} {len : ℕ} {data buf : List u8}

/-- With `realio` off a write is a record more, and nothing else. -/
theorem vmWrites_eq (hreal : vm.realio = false) :
    vmWrites fresh vm writes = { vm with cache := vm.cache ++ writes.map VmWrite.change } := by
  induction writes using List.reverseRecOn with
  | nil => simp [vmWrites]
  | append_singleton writes w ih =>
    have hlast : vmWrites fresh vm (writes ++ [w]) =
        (vmMmuWrite fresh (vmWrites fresh vm writes) w.addr w.data).1 := by
      unfold vmWrites
      rw [List.foldl_append]
      rfl
    rw [hlast, ih]
    unfold vmMmuWrite vmMmuCacheWrite
    dsimp only
    rw [hreal, if_neg Bool.false_ne_true, List.map_append, ← List.append_assoc]
    rfl

/-- An answer from the cache is what `vm_mmu_read` gives. -/
theorem vmMmuRead_of_cached (hreal : vm.realio = false)
    (h : vmMmuCacheRead behind vm.cache addr buf.length = some data) :
    vmMmuRead behind vm addr buf = (vm, data, buf.length) := by
  unfold vmMmuRead
  rw [hreal, if_neg Bool.false_ne_true, h]

/-- The oldest write that contains a range. -/
def Oldest (writes : List VmWrite) (addr : ut64) (len : ℕ) (w : VmWrite) : Prop :=
  ∃ pre post, writes = pre ++ w :: post ∧ w.change.Contains addr len ∧
    ∀ v ∈ pre, ¬v.change.Contains addr len

/-- **What answers a read.** -/
theorem vmMmuCacheRead_eq_some :
    vmMmuCacheRead behind (writes.map VmWrite.change) addr len = some data ↔
      ∃ w, Oldest writes addr len w ∧ data = (List.range len).map (w.change.byte behind) := by
  unfold vmMmuCacheRead Oldest
  rw [List.find?_map, Option.map_map, Option.map_eq_some_iff]
  refine exists_congr fun w => ?_
  rw [List.find?_eq_some_iff_append]
  simp only [Function.comp, decide_eq_true_eq, Bool.not_eq_true', decide_eq_false_iff_not]
  constructor
  · rintro ⟨⟨hw, pre, post, hsplit, hpre⟩, rfl⟩
    exact ⟨⟨pre, post, hsplit, hw, hpre⟩, rfl⟩
  · rintro ⟨⟨pre, post, hsplit, hw, hpre⟩, rfl⟩
    exact ⟨⟨hw, pre, post, hsplit, hpre⟩, rfl⟩

/-- **When the cached memory is a memory**: a read answered from the cache
gives at every place the byte of the latest write that covers it, if and
only if the oldest write that contains the range has that byte at the same
place from its own start. -/
theorem vmMmuRead_latest_iff (fresh : ℕ → u8) (behind : VmChange → ℕ → u8) (io : State)
    (writes : List VmWrite) (addr : ut64) (buf : List u8) :
    let vm := vmWrites fresh ⟨io, false, []⟩ writes
    ((vmMmuCacheRead behind vm.cache addr buf.length).isSome → ∀ k < buf.length,
        (vmMmuRead behind vm addr buf).2.1[k]? = latest writes (addr + UInt64.ofNat k)) ↔
      ∀ w, Oldest writes addr buf.length w → ∀ k < buf.length,
        latest writes (addr + UInt64.ofNat k) = some (w.change.byte behind k) := by
  dsimp only
  rw [vmWrites_eq rfl, List.nil_append]
  have hread : ∀ w, Oldest writes addr buf.length w → ∀ k < buf.length,
      (vmMmuRead behind ⟨io, false, writes.map VmWrite.change⟩ addr buf).2.1[k]? =
        some (w.change.byte behind k) := by
    intro w hw k hk
    rw [vmMmuRead_of_cached rfl (vmMmuCacheRead_eq_some.mpr ⟨w, hw, rfl⟩), List.getElem?_map,
      List.getElem?_range hk, Option.map_some]
  constructor
  · intro h w hw k hk
    have hsome : vmMmuCacheRead behind (writes.map VmWrite.change) addr buf.length = some _ :=
      vmMmuCacheRead_eq_some.mpr ⟨w, hw, rfl⟩
    rw [← h (Option.isSome_iff_exists.mpr ⟨_, hsome⟩) k hk, hread w hw k hk]
  · intro h hsome k hk
    obtain ⟨data, hdata⟩ := Option.isSome_iff_exists.mp hsome
    obtain ⟨w, hw, -⟩ := vmMmuCacheRead_eq_some.mp hdata
    rw [hread w hw k hk, h w hw k hk]

/-- **Bytes from the wrong place**: of four bytes written at 0 the second is
read as the first. -/
theorem second_byte_read_as_first :
    let vm := vmWrites (fun _ => 0) ⟨openFile [] 1 1, false, []⟩ [⟨0, [1, 2, 3, 4]⟩]
    (vmMmuRead (fun _ _ => 0) vm 1 [0]).2 = ([1], 1) ∧ latest [⟨0, [1, 2, 3, 4]⟩] 1 = some 2 := by
  decide

end Radare
