import Radare.Rasm.X86
/-!
# Branches, assembled and decoded

`arch_x86_aop` adds the displacement of a branch to the address behind it, and asks `udis86`
for the length. The two agree on every branch with four bytes, where the mode is not that of
16 bits. The one byte of a `jmp` does not leave out the opcode and leaves out the address
twice, and that of a `jz` or `jnz` leaves out the opcode after it was found to fit
(`branch_decoded_iff`).
-/

namespace Radare

namespace X86

/-! ## `udis86` -/

/-- `SZ_Z` and `SZ_B`. -/
inductive OperandSize where
  | z
  | b
deriving DecidableEq

/-- The size of the operand in an entry of `ud_itab_list`, and `P_def64` of its prefix. -/
structure ItabEntry where
  size : OperandSize
  def64 : Bool

/-- `search_itab`, for the branches: the bytes of the opcode, and the entry. -/
def searchItab (bytes : List u8) : Option (ℕ × ItabEntry) :=
  let curr := bytes.getD 0 0
  if curr = 0x0f then
    let curr := bytes.getD 1 0
    if 0x80 ≤ curr ∧ curr ≤ 0x8f then some (2, ⟨.z, true⟩) else none
  else if 0x70 ≤ curr ∧ curr ≤ 0x7f ∨ curr = 0xeb then some (1, ⟨.b, false⟩)
  else if curr = 0xe8 ∨ curr = 0xe9 then some (1, ⟨.z, true⟩)
  else none

/-- `ud_set_mode`. -/
def udSetMode (m : u8) : ℕ := if m = 16 ∨ m = 32 ∨ m = 64 then m.toNat else 16

/-- `opr_mode`, without a prefix. -/
def oprMode (disMode : ℕ) (def64 : Bool) : ℕ :=
  if disMode = 64 then if def64 then 64 else 32 else disMode

/-- `resolve_operand_size`. -/
def resolveOperandSize (oprMode : ℕ) : OperandSize → ℕ
  | .z => if oprMode = 16 then 16 else 32
  | .b => 8

/-! ## `arch_x86_aop` -/

/-- The types of the branches, and of what else begins with `0f`. -/
inductive OpType where
  | unk
  | nop
  | call
  | jmp
  | cjmp
deriving DecidableEq

/-- What is read here of `struct aop_t`. -/
structure Aop where
  type : OpType := .unk
  /-- `AOP_STACK_LOCAL_GET`. -/
  localGet : Bool := false
  length : ℕ := 0
  eob : Bool := false
  jump : ut64 := 0
  fail : ut64 := 0
  ref : ut64 := 0
deriving DecidableEq

/-- What the decoder has from the rest of the program. -/
structure AopEnv where
  /-- `asm.bits`. -/
  bits : ut64
  /-- The switch, for the bytes that begin no branch. -/
  other : ut64 → List u8 → Aop := fun _ _ => {}
  /-- The length in a mode, of what is no branch. -/
  ud : ℕ → List u8 → ℕ := fun _ _ => 1

variable (env : AopEnv) (addr : ut64)

/-- `ud_insn_len`, behind `ud_disassemble`. -/
def udInsnLen (bytes : List u8) : ℕ :=
  let disMode := udSetMode env.bits.toUInt8
  match searchItab bytes with
  | some (n, e) => n + resolveOperandSize (oprMode disMode e.def64) e.size / 8
  | none => env.ud disMode bytes

/-- `bytes[0]+(bytes[1]<<8)+(bytes[2]<<16)+(bytes[3]<<24)`, where the last is an `int`. -/
def disp32 (bytes : List u8) : ut64 :=
  (bytes.getD 0 0).toUInt64 + (bytes.getD 1 0).toUInt64 <<< 8 +
    (bytes.getD 2 0).toUInt64 <<< 16 + Utils.charOff (bytes.getD 3 0) <<< 24

/-- `arch_x86_aop`. -/
def archX86Aop (bytes : List u8) : Aop :=
  let b0 := bytes.getD 0 0
  let b1 := bytes.getD 1 0
  let aop : Aop :=
    if b0 = 0x0f then
      if b1 = 0xbe then { ref := 0 - Utils.charOff (bytes.getD 3 0), localGet := true }
      else if b1 = 0x31 then { eob := false }
      else if 0x18 ≤ b1 ∧ b1 ≤ 0x1f then { type := .nop, length := 3 }
      else if 0x80 ≤ b1 ∧ b1 ≤ 0x8f then
        { type := .cjmp
          jump := addr + 6 + disp32 (bytes.drop 2)
          fail := addr + 6
          length := 6
          eob := true }
      else {}
    else if b0 = 0xe8 then
      { type := .call
        length := 5
        jump := addr + 5 + disp32 (bytes.drop 1)
        fail := addr + 5 }
    else if b0 = 0xe9 then
      { type := .jmp
        length := 5
        jump := addr + 5 + disp32 (bytes.drop 1)
        fail := 0
        eob := true }
    else if b0 = 0xeb then
      { type := .jmp
        length := 2
        jump := addr + (Utils.charOff b1 + 2)
        fail := 0
        eob := true }
    else if 0x70 ≤ b0 ∧ b0 ≤ 0x7f then
      { type := .cjmp
        length := 2
        jump := addr + Utils.charOff b1 + 2
        fail := addr + 2
        eob := true }
    else env.other addr bytes
  { aop with length := udInsnLen env bytes }

/-! ## Displacements -/

variable {env addr} {x : ut64} {behind : List u8}

/-- What is near. -/
theorem isNear_iff : isNear x = true ↔ x.toNat < 127 ∨ 2 ^ 64 - 128 < x.toNat := by
  have hlt := x.toNat_lt
  unfold isNear offT
  rw [decide_eq_true_iff]
  split_ifs with h <;> omega

theorem toNat_charOff (c : u8) :
    (Utils.charOff c).toNat = if c.toNat < 128 then c.toNat else 2 ^ 64 - 256 + c.toNat := by
  have hlt := c.toNat_lt
  have hiff : c < 128 ↔ c.toNat < 128 := UInt8.lt_iff_toNat_lt
  unfold Utils.charOff
  by_cases hc : c.toNat < 128
  · rw [if_pos (hiff.mpr hc), if_pos hc, UInt8.toNat_toUInt64]
  · rw [if_neg fun h => hc (hiff.mp h), if_neg hc, UInt64.toNat_sub, UInt8.toNat_toUInt64]
    change (2 ^ 64 - 256 + c.toNat) % 2 ^ 64 = _
    omega

/-- **One byte**: it is the displacement if that has a sign and seven bits. -/
theorem charOff_toUInt8 (hx : x.toNat < 128 ∨ 2 ^ 64 - 128 ≤ x.toNat) :
    Utils.charOff x.toUInt8 = x := by
  have hlt := x.toNat_lt
  have hlow : x.toUInt8.toNat = x.toNat % 256 := UInt64.toNat_toUInt8 x
  refine UInt64.toNat_inj.mp ?_
  rw [toNat_charOff, hlow]
  split_ifs <;> omega

/-- **Four bytes**: they are the displacement modulo 2^32. -/
theorem disp32_le32 (x : ut64) (behind : List u8) :
    (disp32 (le32 x ++ behind)).toNat % 2 ^ 32 = x.toNat % 2 ^ 32 := by
  generalize hn : x.toNat = n
  have hbytes : le32 x ++ behind = UInt8.ofNat n :: UInt8.ofNat (n / 256) ::
      UInt8.ofNat (n / 256 / 256) :: UInt8.ofNat (n / 256 / 256 / 256) :: behind := by
    unfold le32
    rw [hn]
    rfl
  have hbyte : ∀ k, (UInt8.ofNat k).toNat = k % 256 := fun k => UInt8.toNat_ofNat' ..
  have hlast := toNat_charOff (UInt8.ofNat (n / 256 / 256 / 256))
  rw [hbyte] at hlast
  have h8 : ∀ y : ut64, (y <<< 8).toNat = y.toNat * 2 ^ 8 % 2 ^ 64 := fun y => by
    rw [UInt64.toNat_shiftLeft, Nat.shiftLeft_eq]
    rfl
  have h16 : ∀ y : ut64, (y <<< 16).toNat = y.toNat * 2 ^ 16 % 2 ^ 64 := fun y => by
    rw [UInt64.toNat_shiftLeft, Nat.shiftLeft_eq]
    rfl
  have h24 : ∀ y : ut64, (y <<< 24).toNat = y.toNat * 2 ^ 24 % 2 ^ 64 := fun y => by
    rw [UInt64.toNat_shiftLeft, Nat.shiftLeft_eq]
    rfl
  rw [hbytes]
  change ((UInt8.ofNat n).toUInt64 + (UInt8.ofNat (n / 256)).toUInt64 <<< 8 +
    (UInt8.ofNat (n / 256 / 256)).toUInt64 <<< 16 +
    Utils.charOff (UInt8.ofNat (n / 256 / 256 / 256)) <<< 24).toNat % 2 ^ 32 = _
  rw [UInt64.toNat_add, UInt64.toNat_add, UInt64.toNat_add, h8, h16, h24, UInt8.toNat_toUInt64,
    UInt8.toNat_toUInt64, UInt8.toNat_toUInt64, hbyte, hbyte, hbyte, hlast]
  split_ifs <;> omega

/-- Behind `k` bytes of an opcode, the displacement leads to the target. -/
theorem jump_le32 (addr t k : ut64) (behind : List u8) :
    (addr + k + disp32 (le32 (t - addr - k) ++ behind)).toNat % 2 ^ 32 = t.toNat % 2 ^ 32 := by
  have hdisp := disp32_le32 (t - addr - k) behind
  have hsum : addr + k + (t - addr - k) = t := by
    rw [UInt64.add_comm addr k, UInt64.add_comm, ← UInt64.add_assoc, UInt64.sub_add_cancel,
      UInt64.sub_add_cancel]
  generalize disp32 (le32 (t - addr - k) ++ behind) = d at hdisp ⊢
  generalize t - addr - k = x at hdisp hsum
  have ht := UInt64.toNat_add (addr + k) x
  rw [hsum] at ht
  rw [UInt64.toNat_add]
  omega

/-! ## The length -/

/-- The modes that do not have 16 bits. -/
def Wide (bits : ut64) : Prop := bits.toNat % 256 = 32 ∨ bits.toNat % 256 = 64

instance (bits : ut64) : Decidable (Wide bits) := inferInstanceAs (Decidable (_ ∨ _))

/-- **The bytes of a long displacement**, for `udis86`. -/
theorem long_bytes (bits : ut64) :
    resolveOperandSize (oprMode (udSetMode bits.toUInt8) true) .z / 8 =
      if Wide bits then 4 else 2 := by
  have hlow : bits.toUInt8.toNat = bits.toNat % 256 := UInt64.toNat_toUInt8 bits
  have hiff : ∀ m : u8, bits.toUInt8 = m ↔ bits.toNat % 256 = m.toNat := fun m => by
    rw [← UInt8.toNat_inj, hlow]
  by_cases hwide : Wide bits
  · rw [if_pos hwide]
    rcases hwide with h | h
    · rw [(hiff 32).mpr h]
      rfl
    · rw [(hiff 64).mpr h]
      rfl
  · have hmode : udSetMode bits.toUInt8 = 16 := by
      unfold udSetMode
      split_ifs with h
      · rcases h with h | h | h
        · rw [h]
          rfl
        · exact absurd (Or.inl ((hiff 32).mp h)) hwide
        · exact absurd (Or.inr ((hiff 64).mp h)) hwide
      · rfl
    rw [if_neg hwide, hmode]
    rfl

/-- One byte behind one byte of an opcode is the same in every mode. -/
theorem short_bytes {b : u8} {bytes : List u8} (hb : b = 0xeb ∨ b = 0x74 ∨ b = 0x75) :
    (archX86Aop env addr (b :: bytes)).length = 2 := by
  have hentry : searchItab (b :: bytes) = some (1, ⟨.b, false⟩) := by
    rcases hb with rfl | rfl | rfl <;> rfl
  change udInsnLen env (b :: bytes) = 2
  unfold udInsnLen
  rw [hentry]
  dsimp only
  rw [resolveOperandSize]

/-- So they are as many as there are just in these modes. -/
theorem long_bytes_iff (n : ℕ) (bits : ut64) :
    n + resolveOperandSize (oprMode (udSetMode bits.toUInt8) true) .z / 8 = n + 4 ↔ Wide bits := by
  rw [long_bytes]
  split_ifs with h
  · exact iff_of_true rfl h
  · exact iff_of_false (by omega) h

/-! ## Branches -/

/-- The displacements that the assembler writes in one byte. -/
def Branch.Near (offset t : ℕ) : Branch → Prop
  | .call => False
  | .jmp => 2 * offset < t + 128 ∧ t < 2 * offset + 127
  | .jz => offset < t + 128 ∧ t < offset + 127
  | .jnz => offset < t + 128 ∧ t < offset + 127

/-- What is decoded is what was assembled. -/
def Branch.Decoded (env : RasmEnv) (aopEnv : AopEnv) (offset : ut64) (a : Target env)
    (behind : List u8) (b : Branch) : Prop :=
  let data := rasmX86 env offset (b.op ++ 32 :: a.text)
  let aop := archX86Aop aopEnv offset (data ++ behind)
  aop.length = data.length ∧ aop.jump.toNat % 2 ^ 32 = a.val.toNat % 2 ^ 32 ∧
    (b ≠ .jmp → aop.fail = offset + UInt64.ofNat data.length)

/-- When it is. -/
def Branch.Fits (bits : ut64) (offset t : ℕ) (b : Branch) : Prop :=
  (b.Near offset t → if b = .jmp then offset = 2 else offset ≠ t + 127) ∧
    (¬b.Near offset t → Wide bits)

section Decoded

variable {rasm : RasmEnv} {aopEnv : AopEnv} {offset t : ut64} {a : Target rasm} {b : Branch}

theorem isNear_jcc (hoff : offset.toNat < 2 ^ 31) (ht : t.toNat < 2 ^ 31) :
    isNear (t - offset) = true ↔ offset.toNat < t.toNat + 128 ∧ t.toNat < offset.toNat + 127 := by
  rw [isNear_iff, UInt64.toNat_sub]
  omega

theorem isNear_jmp (hoff : offset.toNat < 2 ^ 31) (ht : t.toNat < 2 ^ 31) :
    isNear (t - offset - offset) = true ↔
      2 * offset.toNat < t.toNat + 128 ∧ t.toNat < 2 * offset.toNat + 127 := by
  rw [isNear_iff, UInt64.toNat_sub, UInt64.toNat_sub]
  omega

/-- The four bytes of a `call` or a `jmp`, and of a `jz` or a `jnz`. -/
theorem far_decoded_iff {p : Prop} (n : ℕ) (jump t : ut64) (hp : p)
    (hjump : jump.toNat % 2 ^ 32 = t.toNat % 2 ^ 32) :
    n + resolveOperandSize (oprMode (udSetMode aopEnv.bits.toUInt8) true) .z / 8 = n + 4 ∧
      jump.toNat % 2 ^ 32 = t.toNat % 2 ^ 32 ∧ p ↔ Wide aopEnv.bits := by
  rw [long_bytes_iff]
  exact and_iff_left ⟨hjump, hp⟩

theorem call_decoded_iff (behind : List u8) :
    Branch.Decoded rasm aopEnv offset a behind .call ↔ Wide aopEnv.bits := by
  unfold Branch.Decoded
  rw [rasmX86_branch .call a.fits, Branch.asm, asmCall_target]
  exact far_decoded_iff 1 _ _ (fun _ => rfl) (jump_le32 offset a.val 5 behind)

theorem jmp_decoded_far (behind : List u8)
    (hfar : isNear (a.val - offset - offset) = false) :
    Branch.Decoded rasm aopEnv offset a behind .jmp ↔ Wide aopEnv.bits := by
  unfold Branch.Decoded
  rw [rasmX86_branch .jmp a.fits, Branch.asm, asmJmp_target, hfar, if_neg Bool.false_ne_true]
  exact far_decoded_iff 1 _ _ (fun h => absurd rfl h) (jump_le32 offset a.val 5 behind)

/-- The one byte of a `jmp` leads two bytes too far, and short of the target by the address. -/
theorem jmp_decoded_near (behind : List u8) (hoff : offset.toNat < 2 ^ 31)
    (hnear : isNear (a.val - offset - offset) = true) :
    Branch.Decoded rasm aopEnv offset a behind .jmp ↔ offset.toNat = 2 := by
  have hrange := isNear_iff.mp hnear
  have hbyte : Utils.charOff (a.val - offset - offset).toUInt8 = a.val - offset - offset :=
    charOff_toUInt8 (by omega)
  have hjump : (archX86Aop aopEnv offset
      ([0xeb, (a.val - offset - offset).toUInt8] ++ behind)).jump = a.val - offset + 2 := by
    change offset + (Utils.charOff (a.val - offset - offset).toUInt8 + 2) = _
    rw [hbyte, ← UInt64.add_assoc, UInt64.add_comm offset, UInt64.sub_add_cancel]
  unfold Branch.Decoded
  rw [rasmX86_branch .jmp a.fits, Branch.asm, asmJmp_target, hnear, if_pos rfl]
  dsimp only
  have htwo : (2 : ut64).toNat = 2 := rfl
  rw [hjump, UInt64.toNat_add, UInt64.toNat_sub, htwo]
  constructor
  · rintro ⟨-, hmod, -⟩
    omega
  · intro h
    exact ⟨short_bytes (Or.inl rfl), by omega, fun hjmp => absurd rfl hjmp⟩

/-- The one byte of a `jz` or a `jnz` is the displacement, but for the lowest. -/
theorem jump_jcc (short : u8) (behind : List u8) (hshort : short = 0x74 ∨ short = 0x75)
    (hnear : isNear (t - offset) = true) :
    (archX86Aop aopEnv offset ([short, (t - offset - 2).toUInt8] ++ behind)).jump.toNat % 2 ^ 32 =
      t.toNat % 2 ^ 32 ↔ (t - offset).toNat ≠ 2 ^ 64 - 127 := by
  have hrange := isNear_iff.mp hnear
  have hjump : (archX86Aop aopEnv offset ([short, (t - offset - 2).toUInt8] ++ behind)).jump =
      offset + Utils.charOff (t - offset - 2).toUInt8 + 2 := by
    rcases hshort with rfl | rfl <;> rfl
  have hback : offset + (t - offset) = t := by rw [UInt64.add_comm, UInt64.sub_add_cancel]
  have htwo : (2 : ut64).toNat = 2 := rfl
  have hdst := UInt64.toNat_sub (t - offset) 2
  rw [htwo] at hdst
  rw [hjump]
  generalize t - offset = dst at hrange hback hdst ⊢
  have hlt := dst.toNat_lt
  by_cases hlow : dst.toNat = 2 ^ 64 - 127
  · -- the byte of -129 is that of 127
    have hdst' : dst = 0 - 127 := UInt64.toNat_inj.mp (hlow.trans (by decide))
    have hwrap : offset + Utils.charOff (dst - 2).toUInt8 + 2 = t + 256 := by
      rw [← hback, hdst', UInt64.add_assoc, UInt64.add_assoc]
      congr 1
    rw [hwrap, UInt64.toNat_add]
    refine iff_of_false ?_ (fun h => h hlow)
    change ¬(t.toNat + 256) % 2 ^ 64 % 2 ^ 32 = t.toNat % 2 ^ 32
    omega
  · have hfits : Utils.charOff (dst - 2).toUInt8 = dst - 2 := charOff_toUInt8 (by omega)
    rw [hfits, UInt64.add_assoc, UInt64.sub_add_cancel, hback]
    exact iff_of_true rfl hlow

theorem jcc_decoded_iff (short long : u8) (behind : List u8)
    (hcc : short = 0x74 ∧ long = 0x84 ∨ short = 0x75 ∧ long = 0x85)
    (hasm : b.asm rasm offset a.text = asmJcc rasm offset short long a.text) :
    Branch.Decoded rasm aopEnv offset a behind b ↔
      if isNear (a.val - offset) then (a.val - offset).toNat ≠ 2 ^ 64 - 127
      else Wide aopEnv.bits := by
  have hshort : short = 0x74 ∨ short = 0x75 := hcc.imp And.left And.left
  unfold Branch.Decoded
  rw [rasmX86_branch b a.fits, hasm, asmJcc_target]
  by_cases hnear : isNear (a.val - offset) = true
  · rw [if_pos hnear, if_pos hnear, ← jump_jcc short behind hshort hnear]
    constructor
    · exact fun h => h.2.1
    · intro h
      refine ⟨short_bytes (Or.inr hshort), h, fun _ => ?_⟩
      rcases hshort with rfl | rfl <;> rfl
  · rw [if_neg hnear, if_neg hnear]
    have hjump := jump_le32 offset a.val 6 behind
    rcases hcc with ⟨rfl, rfl⟩ | ⟨rfl, rfl⟩
    · exact far_decoded_iff 2 _ _ (fun _ => rfl) hjump
    · exact far_decoded_iff 2 _ _ (fun _ => rfl) hjump

/-- **When a branch is decoded to what was assembled**: one with four bytes in every mode but
that of 16 bits, a `jmp` with one byte at the address 2 alone, and a `jz` or a `jnz` with one
byte if it does not go back by 127. -/
theorem branch_decoded_iff (rasm : RasmEnv) (aopEnv : AopEnv) (offset : ut64) (a : Target rasm)
    (behind : List u8) (b : Branch) (hoff : offset.toNat < 2 ^ 31) (ht : a.val.toNat < 2 ^ 31) :
    b.Decoded rasm aopEnv offset a behind ↔ b.Fits aopEnv.bits offset.toNat a.val.toNat := by
  have hjcc : (if isNear (a.val - offset) then (a.val - offset).toNat ≠ 2 ^ 64 - 127
      else Wide aopEnv.bits) ↔
        (offset.toNat < a.val.toNat + 128 ∧ a.val.toNat < offset.toNat + 127 →
          offset.toNat ≠ a.val.toNat + 127) ∧
        (¬(offset.toNat < a.val.toNat + 128 ∧ a.val.toNat < offset.toNat + 127) →
          Wide aopEnv.bits) := by
    have hlow : (a.val - offset).toNat ≠ 2 ^ 64 - 127 ↔ offset.toNat ≠ a.val.toNat + 127 := by
      rw [UInt64.toNat_sub]
      omega
    rw [← isNear_jcc hoff ht]
    split_ifs with hnear
    · rw [hlow]
      exact ⟨fun h => ⟨fun _ => h, fun hfar => absurd hnear hfar⟩, fun h => h.1 hnear⟩
    · exact ⟨fun h => ⟨fun hn => absurd hn hnear, fun _ => h⟩, fun h => h.2 hnear⟩
  cases b with
  | call =>
    rw [call_decoded_iff]
    exact ⟨fun h => ⟨False.elim, fun _ => h⟩, fun h => h.2 id⟩
  | jmp =>
    unfold Branch.Fits Branch.Near
    rw [← isNear_jmp hoff ht, if_pos rfl]
    by_cases hnear : isNear (a.val - offset - offset) = true
    · rw [jmp_decoded_near behind hoff hnear]
      exact ⟨fun h => ⟨fun _ => h, fun hfar => absurd hnear hfar⟩, fun h => h.1 hnear⟩
    · rw [jmp_decoded_far behind (Bool.eq_false_iff.mpr hnear)]
      exact ⟨fun h => ⟨fun hn => absurd hn hnear, fun _ => h⟩, fun h => h.2 hnear⟩
  | jz => rw [jcc_decoded_iff 0x74 0x84 behind (Or.inl ⟨rfl, rfl⟩) rfl, hjcc]; rfl
  | jnz => rw [jcc_decoded_iff 0x75 0x85 behind (Or.inr ⟨rfl, rfl⟩) rfl, hjcc]; rfl

end Decoded

/-! ## Numbers as targets -/

/-- The value of a number that is no option. -/
theorem getMath_literal {env : Utils.MathEnv} {a : Literal} (flags : List FlagT)
    (hnames : ∀ b, configNodeGet env.behindName env.config (a.text ++ List.replicate b 32) = none) :
    (Utils.getMath (env.withFlags flags) a.text 0).1 = UInt64.ofNat a.read := by
  let e : Arith := { num := a, before := 0, after := 0, terms := [] }
  have htext : e.text = a.text := by
    change [] ++ a.text ++ [] ++ [] = a.text
    rw [List.append_nil, List.append_nil, List.nil_append]
  have hunnamed : e.Unnamed env := by
    intro c hc
    rw [List.mem_singleton.mp hc]
    exact hnames
  have hmath := getMath_arith flags hunnamed
  have heval : e.eval Literal.read = a.read :=
    Int.emod_eq_of_lt (by omega) (by exact_mod_cast a.read_lt)
  rw [htext, heval] at hmath
  refine UInt64.toNat_inj.mp ?_
  rw [toNat_ofNat_read]
  exact_mod_cast hmath

/-- A number that is no option is the target it says, in both functions. -/
def targetOf (env : Utils.MathEnv) (flags : List FlagT) (rsc : ut64 → List u8 → List u8)
    (stack : List u8) (a : Literal)
    (hnames : ∀ b, configNodeGet env.behindName env.config (a.text ++ List.replicate b 32) = none)
    (hpos : a.read ≠ 0) (hfits : a.text.length < 115) :
    Target ⟨env.withFlags flags, rsc, stack⟩ where
  text := a.text
  val := UInt64.ofNat a.read
  math := getMath_literal flags hnames
  offset := by
    have hnone : optionOf (env.withFlags flags)
        (RasmEnv.getMath ⟨env.withFlags flags, rsc, stack⟩) (a.text ++ List.replicate 0 32) = 0 := by
      have h : configNodeGet (env.withFlags flags).behindName (env.withFlags flags).config
          (a.text ++ List.replicate 0 32) = none := hnames 0
      unfold optionOf
      rw [h]
    have hoffset := Literal.getOffset_within (env.withFlags flags) a 0 0 (withFlags_digit env flags)
    have htext : a.within 0 0 = a.text := List.append_nil _
    rw [htext] at hoffset
    unfold RasmEnv.getOffset offsetOf
    rw [hoffset, Common.Prog.inside_bind, Common.Prog.run_bind, run_configGetI, hnone]
    rfl
  ne_zero := by
    intro h
    have hread := congrArg UInt64.toNat h
    rw [toNat_ofNat_read] at hread
    exact hpos hread
  fits := hfits

/-- The number 32. -/
def thirtyTwo : Target ⟨Utils.MathEnv.withFlags {} [], fun _ _ => [], []⟩ :=
  targetOf {} [] (fun _ _ => []) [] ⟨false, ascii "32", by decide, by decide +kernel⟩
    (fun _ => rfl) (by decide +kernel) (by decide)

theorem thirtyTwo_val : thirtyTwo.val = 32 := by decide +kernel

/-- `jz 32` at 16 is decoded to 32. -/
theorem jz_forward_decoded :
    Branch.Decoded _ { bits := 32 } 16 thirtyTwo [] .jz :=
  (branch_decoded_iff _ { bits := 32 } 16 thirtyTwo [] .jz (by decide)
    (by rw [thirtyTwo_val]; decide)).mpr
    ⟨fun _ => by rw [thirtyTwo_val]; decide, fun _ => Or.inl rfl⟩

/-- `jmp 32` at 16 is decoded to 18. -/
theorem jmp_forward_not_decoded : ¬Branch.Decoded _ { bits := 32 } 16 thirtyTwo [] .jmp := by
  have hnear : isNear (thirtyTwo.val - 16 - 16) = true := by
    rw [thirtyTwo_val]
    decide +kernel
  intro h
  exact absurd ((jmp_decoded_near [] (by decide) hnear).mp h) (by decide)

end X86

end Radare
