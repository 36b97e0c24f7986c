import Radare.Javasm.Pool
import Radare.Utils.Literal
/-!
# Instructions of a class file, as text

`java_disasm` prints an instruction and `java_assemble` reads the text with `sscanf`. The
printer takes the operands from the byte of the opcode on, and prints two of them in
hexadecimal, where the numbers that are read are decimal. So an operand survives where it
happens to be what is read in its place (`reassembles_iff`).
-/

namespace Radare

open Common

/-- `struct java_op`. -/
structure JavaOp where
  name : List u8
  byte : u8
  size : ℕ
deriving DecidableEq

/-- `java_ops`. -/
def javaOps : List JavaOp :=
  [⟨ascii "aconst_null", 0x01, 1⟩, ⟨ascii "aload", 0x19, 2⟩, ⟨ascii "aload_0", 0x2a, 1⟩,
    ⟨ascii "aload_1", 0x2b, 1⟩, ⟨ascii "aload_2", 0x2c, 1⟩, ⟨ascii "aload_3", 0x2d, 1⟩,
    ⟨ascii "areturn", 0xb0, 1⟩, ⟨ascii "arraylength", 0xbe, 1⟩, ⟨ascii "astore", 0x3a, 2⟩,
    ⟨ascii "astore_0", 0x4b, 1⟩, ⟨ascii "astore_1", 0x4c, 1⟩, ⟨ascii "astore_2", 0x4d, 1⟩,
    ⟨ascii "astore_3", 0x4e, 1⟩, ⟨ascii "athrow", 0xbf, 1⟩, ⟨ascii "baload", 0x33, 1⟩,
    ⟨ascii "bastore", 0x54, 1⟩, ⟨ascii "bipush", 0x10, 2⟩, ⟨ascii "caload", 0x34, 1⟩,
    ⟨ascii "castore", 0x55, 1⟩, ⟨ascii "checkcast", 0xc0, 3⟩, ⟨ascii "d2f", 0x90, 1⟩,
    ⟨ascii "d2i", 0x8e, 1⟩, ⟨ascii "d2l", 0x8f, 1⟩, ⟨ascii "dadd", 0x63, 1⟩,
    ⟨ascii "daload", 0x31, 1⟩, ⟨ascii "dastore", 0x52, 1⟩, ⟨ascii "dcmpg", 0x98, 1⟩,
    ⟨ascii "dcmpl", 0x97, 1⟩, ⟨ascii "dconst_0", 0x0e, 1⟩, ⟨ascii "dconst_1", 0x0f, 1⟩,
    ⟨ascii "ddiv", 0x6f, 1⟩, ⟨ascii "dload", 0x18, 2⟩, ⟨ascii "dload_0", 0x26, 1⟩,
    ⟨ascii "dload_1", 0x27, 1⟩, ⟨ascii "dload_2", 0x28, 1⟩, ⟨ascii "dload_3", 0x29, 1⟩,
    ⟨ascii "dmul", 0x6b, 1⟩, ⟨ascii "dneg", 0x77, 1⟩, ⟨ascii "drem", 0x73, 1⟩,
    ⟨ascii "dreturn", 0xaf, 1⟩, ⟨ascii "dstore", 0x39, 2⟩, ⟨ascii "dstore_0", 0x47, 1⟩,
    ⟨ascii "dstore_1", 0x48, 1⟩, ⟨ascii "dstore_2", 0x49, 1⟩, ⟨ascii "dstore_3", 0x4a, 1⟩,
    ⟨ascii "dsub", 0x67, 1⟩, ⟨ascii "dup", 0x59, 1⟩, ⟨ascii "dup_x1", 0x5a, 1⟩,
    ⟨ascii "dup_x2", 0x5b, 1⟩, ⟨ascii "dup2", 0x5c, 1⟩, ⟨ascii "dup2_x1", 0x5d, 1⟩,
    ⟨ascii "dup2_x2", 0x5e, 1⟩, ⟨ascii "f2d", 0x8d, 1⟩, ⟨ascii "f2i", 0x8b, 1⟩,
    ⟨ascii "f2l", 0x8c, 1⟩, ⟨ascii "fadd", 0x62, 1⟩, ⟨ascii "faload", 0x30, 1⟩,
    ⟨ascii "fastore", 0x51, 1⟩, ⟨ascii "fcmpg", 0x96, 1⟩, ⟨ascii "fcmpl", 0x95, 1⟩,
    ⟨ascii "fconst_0", 0x0b, 1⟩, ⟨ascii "fconst_1", 0x0c, 1⟩, ⟨ascii "fconst_2", 0x0d, 1⟩,
    ⟨ascii "fdiv", 0x6e, 1⟩, ⟨ascii "fload", 0x17, 2⟩, ⟨ascii "fload_0", 0x22, 1⟩,
    ⟨ascii "fload_1", 0x23, 1⟩, ⟨ascii "fload_2", 0x24, 1⟩, ⟨ascii "fload_3", 0x25, 1⟩,
    ⟨ascii "fmul", 0x6a, 1⟩, ⟨ascii "fneg", 0x76, 1⟩, ⟨ascii "frem", 0x72, 1⟩,
    ⟨ascii "freturn", 0xae, 1⟩, ⟨ascii "fstore", 0x38, 2⟩, ⟨ascii "fstore_0", 0x43, 1⟩,
    ⟨ascii "fstore_1", 0x44, 1⟩, ⟨ascii "fstore_2", 0x45, 1⟩, ⟨ascii "fstore_3", 0x46, 1⟩,
    ⟨ascii "fsub", 0x66, 1⟩, ⟨ascii "getfield", 0xb4, 3⟩, ⟨ascii "getstatic", 0xb2, 3⟩,
    ⟨ascii "goto", 0xa7, 3⟩, ⟨ascii "goto_w", 0xc8, 5⟩, ⟨ascii "i2b", 0x91, 1⟩,
    ⟨ascii "i2c", 0x92, 1⟩, ⟨ascii "i2d", 0x87, 1⟩, ⟨ascii "i2f", 0x86, 1⟩, ⟨ascii "i2l", 0x85, 1⟩,
    ⟨ascii "i2s", 0x93, 1⟩, ⟨ascii "iadd", 0x60, 1⟩, ⟨ascii "iaload", 0x2e, 1⟩,
    ⟨ascii "iand", 0x7e, 1⟩, ⟨ascii "iastore", 0x4f, 1⟩, ⟨ascii "iconst_m1", 0x02, 1⟩,
    ⟨ascii "iconst_0", 0x03, 1⟩, ⟨ascii "iconst_1", 0x04, 1⟩, ⟨ascii "iconst_2", 0x05, 1⟩,
    ⟨ascii "iconst_3", 0x06, 1⟩, ⟨ascii "iconst_4", 0x07, 1⟩, ⟨ascii "iconst_5", 0x08, 1⟩,
    ⟨ascii "idiv", 0x6c, 1⟩, ⟨ascii "if_acmpeq", 0xa5, 3⟩, ⟨ascii "if_acmpne", 0xa6, 3⟩,
    ⟨ascii "if_icmpeq", 0x9f, 3⟩, ⟨ascii "if_icmpne", 0xa0, 3⟩, ⟨ascii "if_icmplt", 0xa1, 3⟩,
    ⟨ascii "if_icmpge", 0xa2, 3⟩, ⟨ascii "if_icmpgt", 0xa3, 3⟩, ⟨ascii "if_icmple", 0xa4, 3⟩,
    ⟨ascii "ifeq", 0x99, 3⟩, ⟨ascii "ifne", 0x9a, 3⟩, ⟨ascii "iflt", 0x9b, 3⟩,
    ⟨ascii "ifge", 0x9c, 3⟩, ⟨ascii "ifgt", 0x9d, 3⟩, ⟨ascii "ifle", 0x9e, 3⟩,
    ⟨ascii "ifnonnull", 0xc7, 3⟩, ⟨ascii "ifnull", 0xc6, 3⟩, ⟨ascii "iinc", 0x84, 3⟩,
    ⟨ascii "iload", 0x15, 2⟩, ⟨ascii "iload_0", 0x1a, 1⟩, ⟨ascii "iload_1", 0x1b, 1⟩,
    ⟨ascii "iload_2", 0x1c, 1⟩, ⟨ascii "iload_3", 0x1d, 1⟩, ⟨ascii "imul", 0x68, 1⟩,
    ⟨ascii "ineg", 0x74, 1⟩, ⟨ascii "instanceof", 0xc1, 3⟩, ⟨ascii "invokevirtual", 0xb6, 3⟩,
    ⟨ascii "invokespecial", 0xb7, 3⟩, ⟨ascii "invokestatic", 0xb8, 3⟩,
    ⟨ascii "invokeinterface", 0xb9, 5⟩, ⟨ascii "ior", 0x80, 1⟩, ⟨ascii "irem", 0x70, 1⟩,
    ⟨ascii "ireturn", 0xac, 1⟩, ⟨ascii "ishl", 0x78, 1⟩, ⟨ascii "ishr", 0x7a, 1⟩,
    ⟨ascii "istore", 0x36, 2⟩, ⟨ascii "istore_0", 0x3b, 1⟩, ⟨ascii "istore_1", 0x3c, 1⟩,
    ⟨ascii "istore_2", 0x3d, 1⟩, ⟨ascii "istore_3", 0x3e, 1⟩, ⟨ascii "isub", 0x64, 1⟩,
    ⟨ascii "iushr", 0x7c, 1⟩, ⟨ascii "ixor", 0x82, 1⟩, ⟨ascii "lxor", 0x83, 1⟩,
    ⟨ascii "jsr", 0xa8, 3⟩, ⟨ascii "jsr_w", 0xc9, 5⟩, ⟨ascii "l2d", 0x8a, 1⟩,
    ⟨ascii "l2f", 0x89, 1⟩, ⟨ascii "l2i", 0x88, 1⟩, ⟨ascii "ladd", 0x61, 1⟩,
    ⟨ascii "laload", 0x2f, 1⟩, ⟨ascii "land", 0x7f, 1⟩, ⟨ascii "lastore", 0x50, 1⟩,
    ⟨ascii "lcmp", 0x94, 1⟩, ⟨ascii "lconst_0", 0x09, 1⟩, ⟨ascii "lconst_1", 0x0a, 1⟩,
    ⟨ascii "ldc", 0x12, 2⟩, ⟨ascii "ldc_w", 0x13, 3⟩, ⟨ascii "ldc2_w", 0x14, 3⟩,
    ⟨ascii "ldiv", 0x6d, 1⟩, ⟨ascii "lload", 0x16, 2⟩, ⟨ascii "lload_0", 0x1e, 1⟩,
    ⟨ascii "lload_1", 0x1f, 1⟩, ⟨ascii "lload_2", 0x20, 1⟩, ⟨ascii "lload_3", 0x21, 1⟩,
    ⟨ascii "lmul", 0x69, 1⟩, ⟨ascii "lneg", 0x75, 1⟩, ⟨ascii "lookupswitch", 0xab, 3⟩,
    ⟨ascii "lor", 0x81, 1⟩, ⟨ascii "lrem", 0x71, 1⟩, ⟨ascii "lreturn", 0xad, 1⟩,
    ⟨ascii "lshl", 0x79, 1⟩, ⟨ascii "lshr", 0x7b, 1⟩, ⟨ascii "lstore", 0x37, 2⟩,
    ⟨ascii "lstore_0", 0x3f, 1⟩, ⟨ascii "lstore_1", 0x40, 1⟩, ⟨ascii "lstore_2", 0x41, 1⟩,
    ⟨ascii "lstore_3", 0x42, 1⟩, ⟨ascii "lsub", 0x65, 1⟩, ⟨ascii "lushr", 0x7d, 1⟩,
    ⟨ascii "lxor", 0x83, 1⟩, ⟨ascii "monitorenter", 0xc2, 1⟩, ⟨ascii "monitorexit", 0xc3, 1⟩,
    ⟨ascii "multinewarray", 0xc5, 3⟩, ⟨ascii "new", 0xbb, 3⟩, ⟨ascii "newarray", 0xbc, 2⟩,
    ⟨ascii "nop", 0x00, 1⟩, ⟨ascii "pop", 0x57, 1⟩, ⟨ascii "pop2", 0x58, 1⟩,
    ⟨ascii "putfield", 0xb5, 3⟩, ⟨ascii "putstatic", 0xb3, 3⟩, ⟨ascii "ret", 0xa9, 2⟩,
    ⟨ascii "return", 0xb1, 1⟩, ⟨ascii "saload", 0x35, 1⟩, ⟨ascii "sastore", 0x36, 1⟩,
    ⟨ascii "sipush", 0x11, 3⟩, ⟨ascii "swap", 0x5f, 1⟩, ⟨ascii "tableswitch", 0xaa, 3⟩,
    ⟨ascii "wide", 0xc4, 1⟩, ⟨ascii "breakpoint", 0xca, 1⟩, ⟨ascii "impdep1", 0xfe, 1⟩,
    ⟨ascii "impdep2", 0xff, 1⟩, ⟨ascii "unused", 0xba, 1⟩]
/-! ## `java_disasm` -/

section Disasm

variable (left : ℕ → CpItem) (p : Pool)

/-- `java_print_opcode`: what is in `output`, and the size. -/
def javaPrintOpcode (op : JavaOp) (bytes output : List u8) : List u8 × ℕ :=
  if op.byte ∈ [0x12, 0x13, 0x14] then
    (op.name ++ 32 :: (p.javaResolve left ((bytes.getD 1 0).toNat - 1)).2, op.size)
  else if op.byte ∈ [0xb2, 0xb6, 0xb7, 0xb8, 0xb9] then
    (op.name ++ 32 :: (p.javaResolve left (ushort bytes 1 - 1)).2, op.size)
  else
    (match op.size with
      | 1 => op.name
      | 2 => op.name ++ 32 :: decText 0 (bytes.getD 0 0).toNat
      | 3 => op.name ++ 32 :: 48 :: 120 :: (hexText 0 (bytes.getD 0 0).toUInt64 ++
          32 :: 48 :: 120 :: hexText 0 (bytes.getD 1 0).toUInt64)
      | 5 => op.name ++ 32 :: decText 0 (bytes.getD 0 0).toNat
      | _ => output, op.size)

/-- `java_disasm`; there is no result for `-1`. -/
def javaDisasm (bytes output : List u8) : Option (List u8 × ℕ) :=
  (javaOps.find? (·.byte = bytes.getD 0 0)).map fun op =>
    javaPrintOpcode left p op bytes output

end Disasm

/-! ## `java_assemble` -/

/-- `%s` of `sscanf`, and what is behind it. -/
def scanWord (text : List u8) : List u8 × List u8 :=
  (Utils.skipSpace text).span fun c => ¬(c = 32 ∨ 9 ≤ c ∧ c ≤ 13)

/-- `%d` of `sscanf`, and what is behind it. -/
def scanInt (text : List u8) : Option (UInt32 × List u8) :=
  let (neg, rest) := Utils.scanSign (Utils.skipSpace text)
  let ds := Utils.scanDigits 10 rest
  if ds = [] then none
  else
    let n : ℤ := if neg then -value 10 ds else value 10 ds
    some (UInt32.ofInt (max (-2 ^ 63) (min n (2 ^ 63 - 1))), rest.drop ds.length)

/-- So many of these, up to the first that is none. -/
def scanInts : ℕ → List u8 → List UInt32
  | 0, _ => []
  | n + 1, text =>
    match scanInt text with
    | none => []
    | some (a, rest) => a :: scanInts n rest

/-- What is on the stack of `java_assemble`. -/
structure AsmFrame where
  name : List u8
  a : UInt32
  b : UInt32
  c : UInt32
  d : UInt32

namespace AsmFrame

/-- The numbers, of which `sscanf` has read some. -/
def numbers (left : AsmFrame) (read : List UInt32) : List UInt32 :=
  read ++ [left.a, left.b, left.c, left.d].drop read.length

end AsmFrame

/-- `java_assemble`: what is in `bytes`, and the size. There is no result if the name does
not fit. -/
def javaAssemble (left : AsmFrame) (bytes string : List u8) : Option (List u8 × ℕ) :=
  let (word, rest) := scanWord string
  if 128 ≤ word.length then none
  else
    let name := if word = [] then left.name else word
    let args := (left.numbers (if word = [] then [] else scanInts 4 rest)).map UInt32.toUInt8
    match javaOps.find? (·.name = name) with
    | none => some (bytes, 0)
    | some op =>
      let operands := match op.size with
        | 2 => args.take 1
        | 3 => args.take 2
        | 5 => args.take 4
        | _ => []
      some (Common.overlay bytes 0 (op.byte :: operands), op.size)

/-! ## Instructions -/

/-- The opcodes that are resolved in the constant pool. -/
def resolvedOps : List u8 := [0x12, 0x13, 0x14, 0xb2, 0xb6, 0xb7, 0xb8, 0xb9]

/-- The bytes of an instruction: the opcode is in the table, where the first is found. -/
structure JavaCode where
  op : JavaOp
  operands : List u8
  first : javaOps.find? (·.byte = op.byte) = some op
  plain : op.byte ∉ resolvedOps
  length : operands.length + 1 = op.size

namespace JavaCode

def bytes (code : JavaCode) : List u8 := code.op.byte :: code.operands

/-- It is assembled again from what is printed of it, whatever is behind it. -/
def Reassembles (left : ℕ → CpItem) (p : Pool) (frame : AsmFrame) (output rest buf : List u8)
    (code : JavaCode) : Prop :=
  ∃ text, javaDisasm left p (code.bytes ++ rest) output = some (text, code.op.size) ∧
    ∃ buf', javaAssemble frame buf text = some (buf', code.op.size) ∧
      buf'.take code.op.size = code.bytes

/-- The operands are what is read in their places: the opcode, and what is on the stack. -/
def OperandsRight (frame : AsmFrame) (code : JavaCode) : Prop :=
  match code.operands with
  | [] => True
  | [x] => x = code.op.byte
  | [x, y] => x = 0 ∧ y = frame.b.toUInt8
  | x :: ys => x = code.op.byte ∧ ys = [frame.b.toUInt8, frame.c.toUInt8, frame.d.toUInt8]

end JavaCode

/-! ## The table -/

/-- A name as a number. -/
def nameKey (name : List u8) : ℕ := value 256 (name.map UInt8.toNat)

variable {α : Type*} {l : List α} {q r : α → Bool} {x : α}

/-- What is found is found by less, too. -/
theorem find?_of_imp (h : l.find? q = some x) (hx : r x = true)
    (himp : ∀ y, r y = true → q y = true) : l.find? r = some x := by
  obtain ⟨-, as, bs, rfl, hne⟩ := List.find?_eq_some_iff_append.mp h
  refine List.find?_eq_some_iff_append.mpr ⟨hx, as, bs, rfl, fun y hy => ?_⟩
  rw [Bool.not_eq_true', Bool.eq_false_iff]
  intro hr
  have := hne y hy
  rw [himp y hr] at this
  cases this

/-- **An instruction of the table is found by its name.** -/
theorem find_name {op : JavaOp} (hop : op ∈ javaOps) :
    javaOps.find? (·.name = op.name) = some op := by
  have hall : ∀ op ∈ javaOps, javaOps.find? (nameKey ·.name = nameKey op.name) = some op := by
    decide +kernel
  refine find?_of_imp (hall op hop) (decide_eq_true rfl) fun y hy => ?_
  exact decide_eq_true (congrArg nameKey (of_decide_eq_true hy))

/-- Its name is one word. -/
theorem name_word {op : JavaOp} (hop : op ∈ javaOps) :
    op.name ≠ [] ∧ op.name.length < 128 ∧ ∀ c ∈ op.name, 48 ≤ c.toNat := by
  have hword : ∀ op ∈ javaOps, op.name ≠ [] ∧ op.name.length < 128 := by decide +kernel
  have hchar : ∀ op ∈ javaOps, op.name.all (fun c => Nat.ble 48 c.toNat) = true := by
    decide +kernel
  refine ⟨(hword op hop).1, (hword op hop).2, fun c hc => ?_⟩
  exact Nat.le_of_ble_eq_true (List.all_eq_true.mp (hchar op hop) c hc)

theorem size_mem {op : JavaOp} (hop : op ∈ javaOps) : op.size ∈ [1, 2, 3, 5] := by
  have hall : ∀ op ∈ javaOps, op.size ∈ [1, 2, 3, 5] := by decide +kernel
  exact hall op hop

/-! ## Reading the text -/

section Scan

variable {w rest text : List u8} {c : u8}

/-- A character that is no digit is no number. -/
theorem scanInt_of_ne (hspace : ¬(c = 32 ∨ 9 ≤ c ∧ c ≤ 13)) (hsign : c ≠ 45 ∧ c ≠ 43)
    (hdigit : hexDigit c = none) : scanInt (c :: text) = none := by
  have hskip : Utils.skipSpace (c :: text) = c :: text := by
    rw [Utils.skipSpace, List.dropWhile_cons_of_neg (by rwa [decide_eq_true_eq])]
  have hread : Utils.scanSign (c :: text) = (false, c :: text) := by
    rw [Utils.scanSign, List.head?_cons, if_neg fun h => hsign.1 (Option.some.inj h),
      if_neg fun h => hsign.2 (Option.some.inj h)]
  have hnone : Utils.scanDigits 10 (c :: text) = [] := by
    rw [Utils.scanDigits, List.takeWhile_cons_of_neg (by rw [hdigit]; exact Bool.false_ne_true),
      List.filterMap_nil]
  rw [scanInt, hskip, hread]
  dsimp only
  rw [hnone, if_pos rfl]

/-- **A decimal number is read** up to what is behind it. -/
theorem scanInt_digits (rest : List u8) (hne : w ≠ [])
    (hw : ∀ c ∈ w, (hexDigit c).any (· < 10) = true)
    (hrest : ∀ c ∈ rest.head?, hexDigit c = none)
    (hlt : value 10 (w.filterMap hexDigit) < 2 ^ 31) :
    scanInt (32 :: (w ++ rest)) =
      some (UInt32.ofNat (value 10 (w.filterMap hexDigit)), rest) := by
  obtain ⟨hsign, hds⟩ := scanSign_digits hne hw rest
  have hskip : Utils.skipSpace (32 :: (w ++ rest)) = Utils.skipSpace (w ++ rest) :=
    List.dropWhile_cons_of_pos (by decide)
  have hlength : (w.filterMap hexDigit).length = w.length := by
    rw [List.length_filterMap_eq_countP, List.countP_eq_length]
    exact fun c hc => Option.isSome_of_any (hw c hc)
  have hclamp : max (-2 ^ 63) (min (value 10 (w.filterMap hexDigit) : ℤ) (2 ^ 63 - 1)) =
      (value 10 (w.filterMap hexDigit) : ℕ) := by omega
  have hmod : ((value 10 (w.filterMap hexDigit) : ℤ) % 2 ^ 32).toNat =
      value 10 (w.filterMap hexDigit) := by omega
  rw [scanInt, hskip, hsign]
  dsimp only
  rw [scanDigits_append hw hrest, if_neg hds, if_neg Bool.false_ne_true, hlength,
    List.drop_left, hclamp, UInt32.ofInt, hmod]

/-- **A byte in decimal is read back.** -/
theorem scanInt_decText (x : u8) :
    scanInt (32 :: decText 0 x.toNat) = some (UInt32.ofNat x.toNat, []) := by
  have hx := x.toNat_lt
  have hds : ∀ d ∈ padded 0 (digits 10 20 x.toNat), d < 10 := fun d hd =>
    lt_of_mem_padded (by omega) hd
  have hback : (decText 0 x.toNat).filterMap hexDigit = padded 0 (digits 10 20 x.toNat) :=
    filterMap_digitChar fun d hd => Nat.lt_of_lt_of_le (hds d hd) (by omega)
  have hvalue : value 10 ((decText 0 x.toNat).filterMap hexDigit) = x.toNat := by
    rw [hback, value_padded (by omega)]
  have hdigit : ∀ c ∈ decText 0 x.toNat, (hexDigit c).any (· < 10) = true := by
    intro c hc
    obtain ⟨d, hd, rfl⟩ := List.mem_map.mp hc
    rw [hexDigit_digitChar (Nat.lt_of_lt_of_le (hds d hd) (by omega))]
    exact decide_eq_true (hds d hd)
  have hne : decText 0 x.toNat ≠ [] := by
    intro hnil
    rw [hnil] at hback
    have hlast : ∀ n, digits 10 20 n ≠ [] := by
      intro n
      unfold digits
      split_ifs
      · exact List.cons_ne_nil _ _
      · exact List.append_ne_nil_of_right_ne_nil _ (List.cons_ne_nil _ _)
    exact hlast _ (List.append_eq_nil_iff.mp hback.symm).2
  have hread := scanInt_digits [] hne hdigit (fun c hc => by cases hc) (by omega)
  rwa [List.append_nil, hvalue] at hread

/-- A name is read up to the end or a blank. -/
theorem scanWord_name {op : JavaOp} (hop : op ∈ javaOps)
    (hrest : rest = [] ∨ rest.head? = some 32) :
    scanWord (op.name ++ rest) = (op.name, rest) := by
  obtain ⟨hne, -, hchar⟩ := name_word hop
  have hspace : ∀ c ∈ op.name, ¬(c = 32 ∨ 9 ≤ c ∧ c ≤ 13) := by
    rintro c hc (rfl | ⟨-, hle⟩)
    · exact absurd (hchar _ hc) (by decide)
    · have := hchar c hc
      have hle' : c.toNat ≤ 13 := hle
      omega
  have hskip : Utils.skipSpace (op.name ++ rest) = op.name ++ rest := by
    obtain ⟨c, name, hname⟩ := List.exists_cons_of_ne_nil hne
    rw [hname] at hspace ⊢
    have := hspace c List.mem_cons_self
    exact List.dropWhile_cons_of_neg (by rwa [decide_eq_true_eq])
  have hword : ∀ c ∈ op.name, decide (¬(c = 32 ∨ 9 ≤ c ∧ c ≤ 13)) = true := fun c hc =>
    decide_eq_true (hspace c hc)
  rw [scanWord, hskip, List.span_eq_takeWhile_dropWhile, List.takeWhile_append_of_pos hword,
    List.dropWhile_append_of_pos hword]
  obtain rfl | hblank := hrest
  · rw [List.takeWhile_nil, List.append_nil, List.dropWhile_nil]
  · obtain ⟨t, rfl⟩ : ∃ t, rest = 32 :: t := by
      cases rest with
      | nil => cases hblank
      | cons c t => exact ⟨t, by rw [Option.some.inj hblank]⟩
    rw [List.takeWhile_cons_of_neg (by decide), List.append_nil,
      List.dropWhile_cons_of_neg (by decide)]

/-- **A name and what is behind it** are the opcode and as many operands as it has. -/
theorem javaAssemble_name {op : JavaOp} (frame : AsmFrame) (buf : List u8) (hop : op ∈ javaOps)
    (hrest : rest = [] ∨ rest.head? = some 32) :
    javaAssemble frame buf (op.name ++ rest) =
      some (Common.overlay buf 0 (op.byte ::
        ((frame.numbers (scanInts 4 rest)).map UInt32.toUInt8).take (op.size - 1)), op.size) := by
  obtain ⟨hne, hlength, -⟩ := name_word hop
  have hsize := size_mem hop
  rw [javaAssemble, scanWord_name hop hrest]
  dsimp only
  rw [if_neg (by omega), if_neg hne, if_neg hne, find_name hop]
  dsimp only
  simp only [List.mem_cons, List.not_mem_nil, or_false] at hsize
  obtain h | h | h | h := hsize <;> rw [h] <;> rfl

end Scan

namespace JavaCode

variable {left : ℕ → CpItem} {p : Pool} {frame : AsmFrame} {output rest buf : List u8}
  {code : JavaCode}

theorem mem (code : JavaCode) : code.op ∈ javaOps := List.mem_of_find?_eq_some code.first

/-- What is printed behind the name. -/
def printed (code : JavaCode) : List u8 :=
  match code.operands with
  | [] => []
  | [x, _] => 32 :: 48 :: 120 :: (hexText 0 code.op.byte.toUInt64 ++
      32 :: 48 :: 120 :: hexText 0 x.toUInt64)
  | _ => 32 :: decText 0 code.op.byte.toNat

theorem printed_cases (code : JavaCode) : code.printed = [] ∨ code.printed.head? = some 32 := by
  unfold printed
  split
  · exact .inl rfl
  · exact .inr rfl
  · exact .inr rfl

/-- An instruction has as many operands as its size has room for. -/
theorem operands_cases (code : JavaCode) :
    code.op.size = 1 ∧ code.operands = [] ∨ code.op.size = 2 ∧ (∃ x, code.operands = [x]) ∨
      code.op.size = 3 ∧ (∃ x y, code.operands = [x, y]) ∨
      code.op.size = 5 ∧ ∃ x y z w, code.operands = [x, y, z, w] := by
  have hsize := size_mem code.mem
  have hlength := code.length
  simp only [List.mem_cons, List.not_mem_nil, or_false] at hsize
  obtain h | h | h | h := hsize
  · exact .inl ⟨h, List.length_eq_zero_iff.mp (by omega)⟩
  · exact .inr (.inl ⟨h, List.length_eq_one_iff.mp (by omega)⟩)
  · exact .inr (.inr (.inl ⟨h, List.length_eq_two.mp (by omega)⟩))
  · exact .inr (.inr (.inr ⟨h, List.length_eq_four.mp (by omega)⟩))

/-- **The name is printed, and behind it what stands for the operands.** -/
theorem javaDisasm_bytes (left : ℕ → CpItem) (p : Pool) (output rest : List u8) (code : JavaCode) :
    javaDisasm left p (code.bytes ++ rest) output =
      some (code.op.name ++ code.printed, code.op.size) := by
  have hplain := code.plain
  have hldc : code.op.byte ∉ ([0x12, 0x13, 0x14] : List u8) := fun h =>
    hplain (List.mem_append_left [0xb2, 0xb6, 0xb7, 0xb8, 0xb9] h)
  have hcall : code.op.byte ∉ ([0xb2, 0xb6, 0xb7, 0xb8, 0xb9] : List u8) := fun h =>
    hplain (List.mem_append_right [0x12, 0x13, 0x14] h)
  have hfirst : (code.bytes ++ rest).getD 0 0 = code.op.byte := rfl
  rw [javaDisasm, hfirst, code.first, Option.map_some, javaPrintOpcode, if_neg hldc, if_neg hcall,
    hfirst, printed, bytes]
  obtain ⟨h, hops⟩ | ⟨h, x, hops⟩ | ⟨h, x, y, hops⟩ | ⟨h, x, y, z, w, hops⟩ := code.operands_cases
  · rw [h, hops, List.append_nil]
    rfl
  · rw [h, hops]
    rfl
  · rw [h, hops]
    rfl
  · rw [h, hops]
    rfl

/-- **The opcode is assembled again, so it is about the operands.** -/
theorem reassembles_iff_take :
    code.Reassembles left p frame output rest buf ↔
      ((frame.numbers (scanInts 4 code.printed)).map UInt32.toUInt8).take (code.op.size - 1) =
        code.operands := by
  have hsize := size_mem code.mem
  have hdis := javaDisasm_bytes left p output rest code
  have hasm := javaAssemble_name frame buf code.mem code.printed_cases
  generalize hargs : ((frame.numbers (scanInts 4 code.printed)).map UInt32.toUInt8).take
    (code.op.size - 1) = args at hasm ⊢
  have hlength : (code.op.byte :: args).length = code.op.size := by
    simp only [List.mem_cons, List.not_mem_nil, or_false] at hsize
    rw [List.length_cons, ← hargs, List.length_take, List.length_map, AsmFrame.numbers,
      List.length_append, List.length_drop]
    simp only [List.length_cons, List.length_nil]
    omega
  have htake : (Common.overlay buf 0 (code.op.byte :: args)).take code.op.size =
      code.op.byte :: args := by
    rw [Common.overlay, List.take_zero, List.nil_append, ← hlength, List.take_left]
  constructor
  · rintro ⟨text, htext, buf', hbuf, hbytes⟩
    obtain ⟨rfl, -⟩ := Prod.mk.inj (Option.some.inj (hdis.symm.trans htext))
    obtain ⟨rfl, -⟩ := Prod.mk.inj (Option.some.inj (hasm.symm.trans hbuf))
    exact (List.cons.inj (htake.symm.trans hbytes)).2
  · rintro rfl
    exact ⟨_, hdis, _, hasm, htake⟩

/-- A number read for the opcode. -/
theorem scanInts_opcode (code : JavaCode) :
    scanInts 4 (32 :: decText 0 code.op.byte.toNat) = [UInt32.ofNat code.op.byte.toNat] := by
  rw [scanInts, scanInt_decText]
  rfl

/-- A number in hexadecimal is a zero, and the last one. -/
theorem scanInts_hex (text : List u8) : scanInts 4 (32 :: 48 :: 120 :: text) = [0] := by
  have hzero : scanInt (32 :: ([48] ++ 120 :: text)) = some (0, 120 :: text) := by
    refine scanInt_digits _ (List.cons_ne_nil _ _) (by decide +kernel) ?_ (Nat.two_pow_pos 31)
    rintro c ⟨⟩
    decide
  have hx : scanInt (120 :: text) = none := scanInt_of_ne (by decide) (by decide) (by decide)
  change scanInts 4 (32 :: ([48] ++ 120 :: text)) = [0]
  rw [scanInts, hzero]
  dsimp only
  rw [scanInts, hx]

theorem toUInt8_ofNat (x : u8) : (UInt32.ofNat x.toNat).toUInt8 = x := by
  have hx := x.toNat_lt
  apply UInt8.toNat_inj.mp
  rw [UInt32.toNat_toUInt8, UInt32.toNat_ofNat']
  omega

/-- **An instruction is assembled again just where its operands are what is read for them**:
the opcode for the first one, zero where there are two, and for the others what is on the
stack. -/
theorem reassembles_iff (left : ℕ → CpItem) (p : Pool) (frame : AsmFrame)
    (output rest buf : List u8) (code : JavaCode) :
    code.Reassembles left p frame output rest buf ↔ code.OperandsRight frame := by
  rw [reassembles_iff_take, OperandsRight, printed]
  obtain ⟨h, hops⟩ | ⟨h, x, hops⟩ | ⟨h, x, y, hops⟩ | ⟨h, x, y, z, w, hops⟩ := code.operands_cases
  · rw [h, hops]
    exact iff_of_true rfl trivial
  · rw [h, hops]
    dsimp only
    rw [scanInts_opcode]
    change [(UInt32.ofNat code.op.byte.toNat).toUInt8] = [x] ↔ _
    rw [toUInt8_ofNat, List.singleton_inj, eq_comm]
  · rw [h, hops]
    dsimp only
    rw [scanInts_hex]
    change [0, frame.b.toUInt8] = [x, y] ↔ _
    rw [List.cons.injEq, List.singleton_inj, eq_comm, @eq_comm _ y]
  · rw [h, hops]
    dsimp only
    rw [scanInts_opcode]
    change [(UInt32.ofNat code.op.byte.toNat).toUInt8, frame.b.toUInt8, frame.c.toUInt8,
      frame.d.toUInt8] = [x, y, z, w] ↔ _
    rw [toUInt8_ofNat, List.cons.injEq, eq_comm, @eq_comm _ [y, z, w]]

/-! ### `bipush 5` -/

theorem bipush_first :
    javaOps.find? (·.byte = 0x10) = some (⟨ascii "bipush", 0x10, 2⟩ : JavaOp) := by decide +kernel

theorem bipush_plain : (0x10 : u8) ∉ resolvedOps := by decide

/-- It is printed as `bipush 16`. -/
def bipushFive : JavaCode where
  op := ⟨ascii "bipush", 0x10, 2⟩
  operands := [5]
  first := bipush_first
  plain := bipush_plain
  length := rfl

theorem bipushFive_changed :
    ¬bipushFive.Reassembles (fun _ => Pool.cpNullItem) ⟨0, 0, [], 0, [], fun _ => none⟩
      ⟨[], 0, 0, 0, 0⟩ [] [] [0, 0] := by
  intro h
  have hops := reassembles_iff_take.mp h
  rw [show bipushFive.printed = 32 :: decText 0 bipushFive.op.byte.toNat from rfl,
    scanInts_opcode] at hops
  have hsame : (16 : u8) = 5 := (List.cons.inj hops).1
  exact absurd hsame (by decide)

end JavaCode

end Radare
