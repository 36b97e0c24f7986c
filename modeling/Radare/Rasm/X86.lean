import Mathlib.Tactic.Common
import Radare.Cmd.PlainLine
import Radare.Cons.Grep
import Radare.Javasm.Pool
import Radare.Model.Bytes
import Radare.Utils.Arith
/-!
# The assembler of x86

`rasm_x86` takes a line apart at its first blank and writes the bytes of the opcode to
`data`. What is behind the blank is an expression or a register, and a register is what has
the value zero. A branch is written with a displacement of one byte or of four.
-/

namespace Radare

namespace X86

/-- What the assembler has from the rest of the program. -/
structure RasmEnv where
  math : Utils.MathEnv
  /-- The bytes of `rasm_rsc`, which asks another program. -/
  rsc : ut64 → List u8 → List u8 := fun _ _ => []
  /-- What `op` holds behind the 120 characters that are copied, up to a NUL. -/
  stack : List u8 := []

/-- `get_math`, not within another expression. -/
def RasmEnv.getMath (env : RasmEnv) (text : List u8) : ut64 := (Utils.getMath env.math text 0).1

/-- `get_offset`. -/
def RasmEnv.getOffset (env : RasmEnv) (text : List u8) : ut64 := offsetOf env.math env.getMath text

variable (env : RasmEnv) (offset : ut64)

/-- An `off_t`. -/
def offT (x : ut64) : ℤ := if x.toNat < 2 ^ 63 then x.toNat else x.toNat - 2 ^ 64

/-- `dst>-0x80 && dst<0x7f`. -/
def isNear (dst : ut64) : Bool := -0x80 < offT dst ∧ offT dst < 0x7f

/-- `ptr[0]` to `ptr[3]`. -/
def le32 (addr : ut64) : List u8 := bytesOf 4 addr.toNat

/-- The registers, in the order they are compared, with their numbers. -/
def registers : List (List u8 × u8) :=
  [(ascii "eax", 0), (ascii "ebx", 3), (ascii "ecx", 1), (ascii "edx", 2), (ascii "esi", 6),
    (ascii "edi", 7), (ascii "ebp", 5), (ascii "esp", 4)]

/-- The byte of a register, from that of `eax`. -/
def register (eax : u8) (arg : List u8) : Option u8 :=
  (registers.find? (·.1 = arg)).map fun r => eax + r.2

/-! ## The opcodes -/

/-- `call`. -/
def asmCall (arg : List u8) : List u8 :=
  let dst := env.getMath arg
  if dst = 0 then
    match register 0xd0 arg with
    | some b => [0xff, b]
    | none => []
  else 0xe8 :: le32 (dst - offset - 5)

/-- `push`. -/
def asmPush (arg : List u8) : List u8 :=
  let dst := env.getMath arg
  if dst = 0 ∧ arg.head? ≠ some 48 then (register 0x50 arg).toList
  else 0x68 :: le32 dst

/-- `pop`. -/
def asmPop (arg : List u8) : List u8 :=
  if env.getMath arg = 0 then (register 0x58 arg).toList else []

/-- `mov`. -/
def asmMov (arg : List u8) : List u8 :=
  match Cmd.strchr 44 arg with
  | none => []
  | some (arg, arg2) =>
    let dst := env.getMath arg2
    let src := (register 0xb8 arg).getD 0xb8
    if dst = 0 ∧ arg2.head? ≠ some 48 then
      -- the other registers are compared with the comma, which is a NUL by now
      if strstr arg2 (ascii "eax") then [0x89, 0xc0 + 8 * (src - 0xb8)] else []
    else src :: le32 dst

/-- `jmp`, of what has no value. -/
def asmJmpRegister (arg : List u8) : List u8 :=
  match register 0xe0 arg with
  | some b => [0xff, b]
  | none =>
    match (registers.take 6).find? fun r => arg = 91 :: r.1 ++ [93] with
    | some r => [0xff, 0x20 + r.2]
    | none =>
      match (registers.take 7).find? fun r => strstr arg (91 :: r.1) with
      | some r => [0xff, 0x60 + r.2, (env.getMath (arg.drop 4)).toUInt8]
      | none =>
        if arg = ascii "[esp" then [0xff, 0x64, 0x24, (env.getMath (arg.drop 4)).toUInt8] else []

/-- `jmp`. The offset is taken off twice before the short form is chosen. -/
def asmJmp (arg : List u8) : List u8 :=
  let addr := env.getOffset arg - offset
  if addr + offset = 0 then asmJmpRegister env arg
  else
    let dst := addr - offset
    if isNear dst then [0xeb, dst.toUInt8] else 0xe9 :: le32 (addr - 5)

/-- `jnz` and `jz`, with the bytes of their two forms. -/
def asmJcc (short long : u8) (arg : List u8) : List u8 :=
  let dst := env.getMath arg - offset
  if isNear dst then [short, (dst - 2).toUInt8] else 0x0f :: long :: le32 (dst - 6)

/-- `rasm_x86`: the bytes it writes, as many as it returns. -/
def rasmX86 (str : List u8) : List u8 :=
  let line := if str.length < 120 then str else str.take 120 ++ env.stack
  let op := ((Cmd.strchr 32 line).map Prod.fst).getD line
  let hasArg : Bool := (Cmd.strchr 32 line).isSome
  let arg := ((Cmd.strchr 32 line).map Prod.snd).getD []
  if op = ascii "ret" then [0xc3]
  else if op = ascii "ret0" then [0x31, 0xc0, 0xc3]
  else if op = ascii "trap" then [0xcc]
  else if hasArg ∧ op = ascii "int" then [0xcd, (env.getOffset arg).toUInt8]
  else if op = ascii "hang" then [0xeb, 0xfe]
  else if hasArg ∧ op = ascii "call" then asmCall env offset arg
  else if hasArg ∧ op = ascii "push" then asmPush env arg
  else if hasArg ∧ op = ascii "pop" then asmPop env arg
  else if hasArg ∧ op = ascii "mov" then asmMov env arg
  else if hasArg ∧ op = ascii "jmp" then asmJmp env offset arg
  else if op = ascii "jnz" then asmJcc env offset 0x75 0x85 arg
  else if op = ascii "jz" then asmJcc env offset 0x74 0x84 arg
  else if op = ascii "pusha" then [0x60]
  else if op = ascii "popa" then [0x61]
  else if op = ascii "nop" then [0x90]
  else if op.head? = some 59 then []
  else env.rsc offset str

/-! ## Branches -/

/-- The branches. -/
inductive Branch where
  | call
  | jmp
  | jz
  | jnz
deriving DecidableEq

/-- The word for a branch. -/
def Branch.op : Branch → List u8
  | call => ascii "call"
  | jmp => ascii "jmp"
  | jz => ascii "jz"
  | jnz => ascii "jnz"

/-- The bytes of a branch. -/
def Branch.asm (arg : List u8) : Branch → List u8
  | call => asmCall env offset arg
  | jmp => asmJmp env offset arg
  | jz => asmJcc env offset 0x74 0x84 arg
  | jnz => asmJcc env offset 0x75 0x85 arg

variable {env offset} {arg : List u8}

/-- A line with a branch is taken apart. -/
theorem rasmX86_branch (b : Branch) (hfits : arg.length < 115) :
    rasmX86 env offset (b.op ++ 32 :: arg) = b.asm env offset arg := by
  have hlen : b.op.length ≤ 4 := by cases b <;> decide
  have hblank : 32 ∉ b.op := by cases b <;> decide
  have hline : (b.op ++ 32 :: arg).length < 120 := by
    rw [List.length_append, List.length_cons]
    omega
  unfold rasmX86
  rw [if_pos hline]
  dsimp only
  rw [Cmd.strchr_append hblank]
  cases b <;> rfl

/-! ## Targets -/

/-- A text for an address that is not zero: both functions find it. -/
structure Target (env : RasmEnv) where
  text : List u8
  val : ut64
  math : env.getMath text = val
  offset : env.getOffset text = val
  ne_zero : val ≠ 0
  fits : text.length < 115

variable {a : Target env}

theorem asmCall_target (a : Target env) :
    asmCall env offset a.text = 0xe8 :: le32 (a.val - offset - 5) := by
  unfold asmCall
  rw [a.math]
  exact if_neg a.ne_zero

theorem asmJmp_target (a : Target env) :
    asmJmp env offset a.text =
      if isNear (a.val - offset - offset) then [0xeb, (a.val - offset - offset).toUInt8]
      else 0xe9 :: le32 (a.val - offset - 5) := by
  have haddr : a.val - offset + offset ≠ 0 := by
    rw [UInt64.sub_add_cancel]
    exact a.ne_zero
  unfold asmJmp
  rw [a.offset]
  exact if_neg haddr

theorem asmJcc_target (short long : u8) (a : Target env) :
    asmJcc env offset short long a.text =
      if isNear (a.val - offset) then [short, (a.val - offset - 2).toUInt8]
      else 0x0f :: long :: le32 (a.val - offset - 6) := by
  unfold asmJcc
  rw [a.math]

end X86

end Radare
