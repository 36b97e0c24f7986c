import Radare.Common.Stores
import Radare.Model.Word
/-!
# The output of rasc

`print_shellcode` puts together what was asked for, a segment after the other, and then the
return address over it. What it writes is modelled by its stores, whether or not they go
to where there is room for it.

An enumeration byte is written four times, and the end of the room is where an address is
last taken to fit. So it is laid out as it should be, and nothing is written elsewhere, just
where neither goes over the end (`printShellcode_right_iff`).
-/

namespace Radare

open Common

/-- `BLOCK`. -/
def rascBlock : ℕ := 4096

/-- What `rasc` was asked for, without an environment to patch the shellcode from. -/
structure Rasc where
  sizeA : ℕ
  sizeN : ℕ
  sizeC : ℕ
  sizeE : ℕ
  shellcode : List u8
  addr : ut64
  off : ut64

namespace Rasc

/-- `SCSIZE`. -/
def scsizeAll (s : Rasc) : ℕ := s.sizeN + s.sizeA + s.sizeC + s.sizeE + s.shellcode.length

/-- The nops, or pairs of `inc eax` and `dec eax`. -/
def sledStores (s : Rasc) : List (ℕ × u8) :=
  if s.sizeN % 2 ≠ 0 then (List.range' 0 s.sizeN).map fun i => (i + s.sizeA, 0x90)
  else (List.range' 0 ((s.sizeN + 1) / 2) 2).flatMap fun i =>
    [(i + s.sizeA, 0x40), (i + s.sizeA + 1, 0x48)]

/-- The loop of the enumeration, so many rounds from `i` and `j` on. -/
def enumStores (s : Rasc) : ℕ → ℕ → ℕ → List (ℕ × u8)
  | 0, _, _ => []
  | n + 1, i, j =>
    let j := if j = 10 ∨ j = 13 then j + 1 else j
    let c := UInt8.ofNat (j % 256)
    (i * 4 + s.sizeA + s.sizeN, c) :: (i * 4 + s.sizeA + s.sizeN + 1, c) ::
      (i * 4 + s.sizeA + s.sizeN + 2, c) :: (i * 4 + s.sizeA + s.sizeN + 3, c) ::
      s.enumStores n (i + 1) (j + 1)

/-- `otf_patch`, of the return address. -/
def otfPatch (s : Rasc) : List (ℕ × u8) :=
  if s.addr ≠ 0 then
    let off := if s.off > UInt64.ofNat s.scsizeAll then UInt64.ofNat s.scsizeAll - 4 else s.off
    [((off + 0).toNat, s.addr.toUInt8), ((off + 1).toNat, (s.addr >>> 8).toUInt8),
      ((off + 2).toNat, (s.addr >>> 16).toUInt8), ((off + 3).toNat, (s.addr >>> 24).toUInt8)]
  else []

/-- The output buffer as it is prepared. -/
def prepare (s : Rasc) : List (ℕ × u8) :=
  (List.range' 0 s.sizeA).map (fun i => (i, 65)) ++ s.sledStores ++ s.enumStores s.sizeE 0 65 ++
    storesAt (s.sizeA + s.sizeN + s.sizeE) s.shellcode ++
    (List.range' 0 s.sizeC).map fun i =>
      (i + s.sizeA + s.sizeE + s.sizeN + s.shellcode.length, 0xcc)

/-- `print_shellcode`: what it stores in `output`. -/
def printShellcode (s : Rasc) : List (ℕ × u8) :=
  if s.scsizeAll = 0 then []
  else if s.scsizeAll ≥ rascBlock then []
  else s.prepare ++ s.otfPatch

/-! ## What it is to be -/

/-- What the bytes of a sled do to `eax`. -/
def sledRun : List u8 → UInt32 → Option UInt32
  | [], eax => some eax
  | b :: rest, eax =>
    if b = 0x90 then sledRun rest eax
    else if b = 0x40 then sledRun rest (eax + 1)
    else if b = 0x48 then sledRun rest (eax - 1)
    else none

/-- Nops, or complete pairs. -/
def IsSled (sled : List u8) : Prop :=
  (∃ n, sled = List.replicate n 0x90) ∨ ∃ n, sled = (List.replicate n [0x40, 0x48]).flatten

/-- The enumeration, from `A` on and each byte four times. -/
def enumeration (n : ℕ) : List u8 :=
  (List.range n).map fun k => UInt8.ofNat ((65 + k / 4) % 256)

/-- The layout. -/
def layout (s : Rasc) (sled : List u8) : List u8 :=
  List.replicate s.sizeA 65 ++ sled ++ enumeration s.sizeE ++ s.shellcode ++
    List.replicate s.sizeC 0xcc

/-- Nothing is written behind the output, which is laid out so but for the return address,
and the sled has no effect. -/
def Right (s : Rasc) (output : ℕ → u8) : Prop :=
  (∀ w ∈ s.printShellcode, w.1 < s.scsizeAll) ∧
    ∃ sled, sled.length = s.sizeN ∧ IsSled sled ∧ (∀ eax, sledRun sled eax = some eax) ∧
      ∀ i < s.scsizeAll, (∀ w ∈ s.otfPatch, w.1 ≠ i) →
        (s.layout sled)[i]? = some (stored output s.printShellcode i)

/-- The enumeration bytes that are too many go over the shellcode and the traps, and the
return address fits, or is behind the end. -/
def Safe (s : Rasc) : Prop :=
  3 * s.sizeE ≤ s.sizeC + s.shellcode.length ∧
    (s.addr = 0 ∨ s.off.toNat + 4 ≤ s.scsizeAll ∨ 4 ≤ s.scsizeAll ∧ s.scsizeAll < s.off.toNat)

variable {s : Rasc} {output : ℕ → u8} {n i j k : ℕ}

/-! ## The segments -/

/-- The sled as it is written. -/
def sled (s : Rasc) : List u8 :=
  if s.sizeN % 2 ≠ 0 then List.replicate s.sizeN 0x90
  else (List.replicate (s.sizeN / 2) [0x40, 0x48]).flatten

theorem length_sled : s.sled.length = s.sizeN := by
  unfold sled
  split
  · exact List.length_replicate
  · rw [List.length_flatten, List.map_replicate, List.sum_replicate_nat]
    change s.sizeN / 2 * 2 = s.sizeN
    omega

theorem isSled_sled : IsSled s.sled := by
  unfold sled
  split
  · exact .inl ⟨_, rfl⟩
  · exact .inr ⟨_, rfl⟩

/-- **A sled has no effect.** -/
theorem sledRun_sled {sled : List u8} (h : IsSled sled) (eax : UInt32) :
    sledRun sled eax = some eax := by
  obtain ⟨n, rfl⟩ | ⟨n, rfl⟩ := h
  · induction n with
    | zero => rfl
    | succ n ih => exact ih
  · induction n with
    | zero => rfl
    | succ n ih =>
      have hback : eax + 1 - 1 = eax := UInt32.add_sub_cancel eax 1
      change sledRun _ (eax + 1 - 1) = some eax
      rw [hback]
      exact ih

theorem pairStores_eq (s : Rasc) : ∀ n i : ℕ,
    ((List.range' i n 2).flatMap fun i => [(i + s.sizeA, (0x40 : u8)), (i + s.sizeA + 1, 0x48)]) =
      storesAt (i + s.sizeA) (List.replicate n [0x40, 0x48]).flatten
  | 0, _ => rfl
  | n + 1, i => by
    have hnext : i + 2 + s.sizeA = i + s.sizeA + 2 := by omega
    rw [List.range'_succ, List.flatMap_cons, pairStores_eq s n (i + 2), List.replicate_succ,
      List.flatten_cons, storesAt_append, hnext]
    rfl

theorem sledStores_eq : s.sledStores = storesAt s.sizeA s.sled := by
  unfold sledStores sled
  split
  · rw [storesAt_replicate, Nat.zero_add]
  · have hhalf : (s.sizeN + 1) / 2 = s.sizeN / 2 := by omega
    rw [hhalf, pairStores_eq, Nat.zero_add]

/-- The enumeration from a number on. -/
def enumFrom (j n : ℕ) : List u8 := (List.range n).map fun k => UInt8.ofNat ((j + k / 4) % 256)

theorem enumFrom_succ (j n : ℕ) :
    enumFrom j (4 * (n + 1)) =
      List.replicate 4 (UInt8.ofNat (j % 256)) ++ enumFrom (j + 1) (4 * n) := by
  have hrange : List.range (4 * (n + 1)) = [0, 1, 2, 3] ++ (List.range (4 * n)).map (4 + ·) := by
    rw [Nat.mul_succ, Nat.add_comm, List.range_add]
    rfl
  have hshift : ∀ k, UInt8.ofNat ((j + (4 + k) / 4) % 256) = UInt8.ofNat ((j + 1 + k / 4) % 256) :=
    fun k => by rw [show j + (4 + k) / 4 = j + 1 + k / 4 by omega]
  rw [enumFrom, hrange, List.map_append, List.map_map, enumFrom]
  exact congrArg _ (List.map_congr_left fun k _ => hshift k)

theorem enumStores_eq : ∀ n i j : ℕ, 13 < j →
    s.enumStores n i j = storesAt (i * 4 + s.sizeA + s.sizeN) (enumFrom j (4 * n))
  | 0, _, _, _ => rfl
  | n + 1, i, j, hj => by
    have hnext : i * 4 + s.sizeA + s.sizeN + 4 = (i + 1) * 4 + s.sizeA + s.sizeN := by omega
    rw [enumStores, if_neg (by omega), enumStores_eq n (i + 1) (j + 1) (by omega), enumFrom_succ,
      storesAt_append, List.length_replicate, hnext]
    rfl

/-- The output as far as it is enumerated, and behind that. -/
theorem prepare_eq : s.prepare =
    storesAt 0 (List.replicate s.sizeA 65 ++ s.sled ++ enumFrom 65 (4 * s.sizeE)) ++
      storesAt (0 + (s.sizeA + s.sizeN + s.sizeE))
        (s.shellcode ++ List.replicate s.sizeC 0xcc) := by
  have hA : (List.range' 0 s.sizeA).map (fun i => (i, (65 : u8))) =
      storesAt 0 (List.replicate s.sizeA 65) := storesAt_replicate (p := 0)
  have hC : ((List.range' 0 s.sizeC).map fun i =>
      (i + s.sizeA + s.sizeE + s.sizeN + s.shellcode.length, (0xcc : u8))) =
        storesAt (s.sizeA + s.sizeN + s.sizeE + s.shellcode.length)
          (List.replicate s.sizeC 0xcc) := by
    rw [← Nat.zero_add (s.sizeA + s.sizeN + s.sizeE + s.shellcode.length), ← storesAt_replicate]
    exact List.map_congr_left fun i _ => Prod.ext (by dsimp only; omega) rfl
  rw [prepare, hA, hC, sledStores_eq, enumStores_eq _ _ _ (by omega), storesAt_append,
    storesAt_append, storesAt_append, List.length_append, List.length_replicate, length_sled,
    Nat.zero_mul, Nat.zero_add, Nat.zero_add, Nat.zero_add, List.append_assoc]

/-! ## What goes where -/

/-- **The enumeration is covered**: as the output is prepared, it is laid out. -/
theorem stored_prepare (hE : 3 * s.sizeE ≤ s.sizeC + s.shellcode.length) :
    stored output s.prepare = stored output (storesAt 0 (s.layout s.sled)) := by
  have hfront : (List.replicate s.sizeA (65 : u8) ++ s.sled).length = s.sizeA + s.sizeN := by
    rw [List.length_append, List.length_replicate, length_sled]
  have hlength : (enumFrom 65 (4 * s.sizeE)).length = 4 * s.sizeE := by
    rw [enumFrom, List.length_map, List.length_range]
  have htake : (enumFrom 65 (4 * s.sizeE)).take s.sizeE = enumeration s.sizeE := by
    rw [enumFrom, ← List.map_take, List.take_range, Nat.min_eq_left (by omega)]
    rfl
  rw [prepare_eq, stored_cover]
  · rw [← hfront, List.take_length_add_append, htake, layout]
    simp only [List.append_assoc]
  · rw [List.length_append, hfront, hlength]
    omega
  · rw [List.length_append, hfront, hlength, List.length_append, List.length_replicate]
    omega

theorem length_layout : (s.layout s.sled).length = s.scsizeAll := by
  rw [layout, enumeration, scsizeAll]
  simp only [List.length_append, List.length_replicate, List.length_map, List.length_range,
    length_sled]
  omega

/-- What is prepared stays within the output just where the enumeration does. -/
theorem prepare_lt_iff :
    (∀ w ∈ s.prepare, w.1 < s.scsizeAll) ↔ 3 * s.sizeE ≤ s.sizeC + s.shellcode.length := by
  have hlength : (List.replicate s.sizeA 65 ++ s.sled ++ enumFrom 65 (4 * s.sizeE)).length =
      s.sizeA + s.sizeN + 4 * s.sizeE := by
    rw [enumFrom, List.length_append, List.length_append, List.length_replicate, length_sled,
      List.length_map, List.length_range]
  have hrest : (s.shellcode ++ List.replicate s.sizeC (0xcc : u8)).length =
      s.shellcode.length + s.sizeC := by
    rw [List.length_append, List.length_replicate]
  have htotal : s.scsizeAll =
      s.sizeA + s.sizeN + s.sizeE + s.shellcode.length + s.sizeC := by
    rw [scsizeAll]
    omega
  rw [prepare_eq, List.forall_mem_append, forall_storesAt (P := (· < s.scsizeAll)),
    forall_storesAt (P := (· < s.scsizeAll)), hlength, hrest]
  constructor
  · rintro ⟨hin, -⟩
    by_contra hover
    have hlast := hin s.scsizeAll (Nat.zero_le _) (by omega)
    omega
  · exact fun hE => ⟨fun i _ hi => by omega, fun i _ hi => by omega⟩

/-- Four bytes from an offset on. -/
theorem four_lt_iff {off : ut64} {size : ℕ} {b₀ b₁ b₂ b₃ : u8} (hsize : size < rascBlock) :
    (∀ w ∈ [((off + 0).toNat, b₀), ((off + 1).toNat, b₁), ((off + 2).toNat, b₂),
      ((off + 3).toNat, b₃)], w.1 < size) ↔ off.toNat + 4 ≤ size := by
  have hblock : rascBlock = 4096 := rfl
  have hlt := off.toNat_lt
  have h1 : (off + 1).toNat = (off.toNat + 1) % 2 ^ 64 := UInt64.toNat_add off 1
  have h2 : (off + 2).toNat = (off.toNat + 2) % 2 ^ 64 := UInt64.toNat_add off 2
  have h3 : (off + 3).toNat = (off.toNat + 3) % 2 ^ 64 := UInt64.toNat_add off 3
  simp only [List.forall_mem_cons, UInt64.add_zero, h1, h2, h3]
  constructor
  · rintro ⟨hoff, -, -, hlast, -⟩
    omega
  · intro hle
    exact ⟨by omega, by omega, by omega, by omega, fun w hw => absurd hw List.not_mem_nil⟩

/-- The return address fits just where it is said to, or where it is moved to the end. -/
theorem otfPatch_lt_iff (hsize : s.scsizeAll < rascBlock) :
    (∀ w ∈ s.otfPatch, w.1 < s.scsizeAll) ↔
      s.addr = 0 ∨ s.off.toNat + 4 ≤ s.scsizeAll ∨
        4 ≤ s.scsizeAll ∧ s.scsizeAll < s.off.toNat := by
  have hblock : rascBlock = 4096 := rfl
  have hword : s.scsizeAll < UInt64.size := by
    change s.scsizeAll < 2 ^ 64
    omega
  have hall : (UInt64.ofNat s.scsizeAll).toNat = s.scsizeAll := UInt64.toNat_ofNat_of_lt' hword
  unfold otfPatch
  by_cases haddr : s.addr = 0
  · rw [if_neg (not_not.mpr haddr)]
    exact iff_of_true (fun w hw => absurd hw List.not_mem_nil) (.inl haddr)
  · rw [if_pos haddr, or_iff_right haddr]
    dsimp only
    rw [four_lt_iff hsize]
    have hmove : s.off > UInt64.ofNat s.scsizeAll ↔ s.scsizeAll < s.off.toNat := by
      rw [gt_iff_lt, UInt64.lt_iff_toNat_lt, hall]
    by_cases hover : s.scsizeAll < s.off.toNat
    · have hsub : (UInt64.ofNat s.scsizeAll - 4).toNat = (2 ^ 64 - 4 + s.scsizeAll) % 2 ^ 64 := by
        rw [UInt64.toNat_sub, hall]
        rfl
      rw [if_pos (hmove.mpr hover), hsub]
      omega
    · rw [if_neg fun h => hover (hmove.mp h)]
      omega

/-- **The output is right just where the enumeration is covered and the return address fits.** -/
theorem printShellcode_right_iff (s : Rasc) (output : ℕ → u8) (hpos : 0 < s.scsizeAll)
    (hsize : s.scsizeAll < rascBlock) : s.Right output ↔ s.Safe := by
  have hprint : s.printShellcode = s.prepare ++ s.otfPatch := by
    rw [printShellcode, if_neg (by omega), if_neg (by omega)]
  rw [Right, Safe, hprint, List.forall_mem_append, prepare_lt_iff, otfPatch_lt_iff hsize]
  refine and_iff_left_of_imp fun hsafe =>
    ⟨s.sled, length_sled, isSled_sled, sledRun_sled isSled_sled, fun i hi hpatch => ?_⟩
  have hlayout : i < (s.layout s.sled).length := length_layout ▸ hi
  rw [stored_append, stored_of_ne hpatch, stored_prepare hsafe.1, stored_storesAt,
    if_pos (Nat.zero_le i), Nat.sub_zero, List.getElem?_eq_getElem hlayout, Option.getD_some]

/-- A byte of the enumeration, a shellcode and three traps, and the address inside. -/
theorem printShellcode_right_traps :
    (⟨2, 2, 3, 1, [0xc3], 0x08048000, 5⟩ : Rasc).Right fun _ => 0 :=
  (printShellcode_right_iff _ _ (by decide) (by decide)).mpr ⟨by decide, .inr (.inl (by decide))⟩

/-- One byte of the enumeration alone is written four times, and an address at the end is
written behind it. -/
theorem printShellcode_over :
    (¬ (⟨0, 0, 0, 1, [], 0, 0⟩ : Rasc).Right fun _ => 0) ∧
      ¬ (⟨4, 0, 0, 0, [], 0x08048000, 4⟩ : Rasc).Right fun _ => 0 := by
  refine ⟨fun h => ?_, fun h => ?_⟩
  · exact absurd (h.1 (3, 65) (by decide)) (by decide)
  · exact absurd (h.1 (7, 8) (by decide +kernel)) (by decide)

end Rasc

end Radare
