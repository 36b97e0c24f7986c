import Radare.Common.Lookup
import Radare.Model.Bytes
import Radare.Utils.Math
import Radare.Vm.Cache
/-!
# The virtual machine

The registers of the VM, its interpreter and its stack, as `vm.c` has them. A
register can have a script for reading it and one for setting it, which the
interpreter runs; while one runs, the static `rec` keeps the accesses from
running others. So the interpreter is written over the two accesses
(`VmAccess`), the plain ones are those under `rec`, and the others run scripts
with these.

Where two values meet in an operation, the one on the left is read first. A read
in front of a text or behind it, a division by zero and a shift by 64 or more have
no result. Messages are left out.
-/

namespace Radare

open Common

/-! ## Registers -/

/-- `vm_reg_types`. -/
inductive VmRegType where
  /-- `VMREG_BIT` -/
  | bit
  /-- `VMREG_INT8` -/
  | int8
  /-- `VMREG_INT16` -/
  | int16
  /-- `VMREG_INT32` -/
  | int32
  /-- `VMREG_INT64` -/
  | int64
  /-- `VMREG_FLOAT32` -/
  | float32
  /-- `VMREG_FLOAT64` -/
  | float64
deriving DecidableEq

/-- The constants of `vm.h`. -/
def VmRegType.code : VmRegType → u8
  | bit => 1
  | int8 => 2
  | int16 => 3
  | int32 => 4
  | int64 => 5
  | float32 => 6
  | float64 => 7

/-- `struct vm_reg_t`. Of its name, what `strncpy` copies; the sixteenth byte is as
`malloc` gives it. -/
structure VmReg where
  name : List u8
  last : u8
  value : ut64
  type : VmRegType
  get : Option (List u8)
  set : Option (List u8)
  short : name.length ≤ 15
deriving DecidableEq

/-- The name as a string: one that fills its fifteen characters goes on with the
byte behind, the value and the type. -/
def VmReg.text (r : VmReg) : List u8 :=
  if r.name.length < 15 then r.name
  else r.name ++ cstr (r.last :: (bytesOf 8 r.value.toNat ++ [r.type.code, 0]))

/-- The names in `struct vm_cpu_t` that are asked for here. -/
structure VmCpu where
  pc : List u8
  sp : List u8
  zf : List u8
deriving DecidableEq

/-- The static variables of `vm.c`, and `vm.realio`. -/
structure Vm where
  mem : VmState
  vmRealio : Bool
  regs : List VmReg
  cpu : VmCpu

/-- What is outside: the memory behind a record, what `malloc` gives, what is in an
array of `vm_eval_eq`, and the length of the instruction at an address. -/
structure VmEnv where
  behind : VmChange → ℕ → u8
  fresh : ℕ → u8
  buf : ℕ → u8
  aopLength : VmState → ut64 → ut64

/-- `vm_reg_add`. -/
def vmRegAdd (last : u8) (name : List u8) (type : VmRegType) (value : ut64)
    (regs : List VmReg) : List VmReg :=
  regs ++ [⟨name.take 15, last, value, type, none, none, List.length_take_le 15 name⟩]

/-- How much of a name `vm_reg_get` compares. -/
def vmRegLen (name : List u8) : ℕ :=
  if name.getLast? = some 93 then name.length - 1 else name.length

/-- The register `vm_reg_get` finds. -/
def vmRegLike (regs : List VmReg) (name : List u8) : Option ℕ :=
  regs.findIdx? fun r => name.take (vmRegLen name) = r.text.take (vmRegLen name)

/-- The register `vm_reg_set` finds. -/
def vmRegNamed (regs : List VmReg) (name : List u8) : Option ℕ :=
  regs.findIdx? fun r => name = r.text

/-- `vm_reg_alias`. -/
def vmRegAlias (name : List u8) (get set : Option (List u8)) (regs : List VmReg) : List VmReg :=
  changeAt (fun r => { r with get := get, set := set }) regs (vmRegNamed regs name)

/-- The value of a register, and what `vm_reg_get` returns if there is none. -/
def Vm.value (vm : Vm) (i : Option ℕ) : ut64 := (entryAt vm.regs i).elim (-1) VmReg.value

/-- `r->value = value` -/
def VmReg.put (value : ut64) (r : VmReg) : VmReg := { r with value := value }

/-- A register with a value, if there is one. -/
def Vm.put (vm : Vm) (value : ut64) (i : Option ℕ) : Vm :=
  { vm with regs := changeAt (VmReg.put value) vm.regs i }

/-- How a program of the VM gets at the registers: `vm_reg_get` and
`vm_reg_set`. -/
structure VmAccess where
  get : Vm → List u8 → Option (Vm × ut64)
  set : Vm → List u8 → ut64 → Option Vm

/-- The accesses while `rec` is set. -/
def vmPlain : VmAccess where
  get vm name := if name = [] then none else some (vm, vm.value (vmRegLike vm.regs name))
  set vm name value := some (vm.put value (vmRegNamed vm.regs name))

/-! ## Values -/

variable (env : VmEnv) (acc : VmAccess)

/-- `vm_get_value`. -/
def vmGetValue (vm : Vm) (str : List u8) : Option (Vm × ut64) :=
  let str := str.dropWhile (· = 32)
  if str.head? = some 36 ∧ str[1]? = some 36 then
    if str[2]? = some 36 then
      (acc.get vm vm.cpu.pc).map fun (vm, ret) => (vm, env.aopLength vm.mem ret)
    else some (vm, vm.mem.io.config.seek)
  else if str.head? = some 48 ∧ str[1]? = some 120 then
    some (vm, (Utils.scanBase 16 (str.drop 2)).getD 0)
  else if str.head?.any fun c => 48 ≤ c ∧ c ≤ 57 then some (vm, (Utils.scanDec str).getD 0)
  else acc.get vm str

/-- The operators `vm_get_math` looks for, the first one first. -/
def vmOperators : List (u8 × (ut64 → ut64 → Option ut64)) :=
  [(43, fun x y => some (x + y)),
    (45, fun x y => some (x - y)),
    (42, fun x y => some (x * y)),
    (47, fun x y => if y = 0 then none else some (x / y)),
    (38, fun x y => some (x &&& y)),
    (124, fun x y => some (x ||| y)),
    (94, fun x y => some (x ^^^ y)),
    (37, fun x y => if y = 0 then none else some (x % y)),
    (62, fun x y => if 64 ≤ y then none else some (x >>> y)),
    (60, fun x y => if 64 ≤ y then none else some (x <<< y))]

/-- The text behind the first `c`, as `strchr` finds it. -/
def behindChar (c : u8) (str : List u8) : Option (List u8) :=
  if c ∈ str then some (str.dropWhile (· ≠ c)).tail else none

/-- `vm_get_math`. -/
def vmGetMath (vm : Vm) (str : List u8) : Option (Vm × ut64) :=
  match vmOperators.find? fun o => o.1 ∈ str with
  | none => vmGetValue env acc vm str
  | some (c, f) =>
    (vmGetValue env acc vm (str.takeWhile (· ≠ c))).bind fun (vm, x) =>
      (vmGetValue env acc vm (str.dropWhile (· ≠ c)).tail).bind fun (vm, y) =>
        (f x y).map fun z => (vm, z)

/-! ## Statements -/

/-- `vm_mmu_read` into a number of so many bytes, which is zero before. -/
def Vm.read (vm : Vm) (off : ut64) (n : ℕ) : Vm × ut64 :=
  let (mem, data, _) := vmMmuRead env.behind vm.mem off (List.replicate n 0)
  ({ vm with mem := mem }, UInt64.ofNat (ofBytes data))

/-- `vm_mmu_write`. -/
def Vm.write (vm : Vm) (off : ut64) (data : List u8) : Vm :=
  { vm with mem := (vmMmuWrite env.fresh vm.mem off data).1 }

/-- The bytes of a size that is written in front of an address. -/
def vmSize (size : ℤ) : ℕ :=
  if size = 8 then 1 else if size = 16 then 2 else if size = 64 then 8 else 4

/-- `vm_eval_cmp`. -/
def vmEvalCmp (vm : Vm) (str : List u8) : Option Vm :=
  let str := str.dropWhile (· = 32)
  match (behindChar 44 str).or (behindChar 32 str) with
  | none => some vm
  | some right =>
    (vmGetMath env acc vm str).bind fun (vm, x) =>
      (vmGetMath env acc vm right).bind fun (vm, y) => acc.set vm vm.cpu.zf (x - y)

/-- A copy in `vm_eval_eq`: the address is that of what is read, for the write
as well. -/
def vmCopy (vm : Vm) (val : List u8) : Option Vm :=
  (vmGetMath env acc vm val).bind fun (vm, off) =>
    match behindChar 58 val with
    | none =>
      let (mem, data, _) := vmMmuRead env.behind vm.mem off (List.replicate 4 0)
      some (Vm.write env { vm with mem := mem } off data)
    | some addr =>
      (vmGetMath env acc vm addr).map fun (vm, off) =>
        let (mem, data, _) := vmMmuRead env.behind vm.mem off (malloc env.buf (vmSize (atoi val)))
        Vm.write env { vm with mem := mem } off data

/-- A store in `vm_eval_eq`: with a size in front of the address, the size is looked
for in the value, and what is written is an array that nothing is put into. -/
def vmStore (vm : Vm) (str val : List u8) : Option Vm :=
  (vmGetMath env acc vm str).bind fun (vm, off) =>
    (vmGetMath env acc vm val).bind fun (vm, v) =>
      match behindChar 58 str with
      | none => some (vm.write env off (bytesOf 4 v.toNat))
      | some addr =>
        (vmGetMath env acc vm addr).map fun (vm, off) =>
          vm.write env off (malloc env.buf (vmSize (atoi val.tail)))

/-- A load in `vm_eval_eq`. -/
def vmLoad (vm : Vm) (str val : List u8) : Option Vm :=
  let val := val.takeWhile (· ≠ 93)
  match behindChar 58 val with
  | none =>
    (vmGetMath env acc vm val).bind fun (vm, off) =>
      let (vm, x) := vm.read env off 4
      acc.set vm str x
  | some addr =>
    (vmGetMath env acc vm addr).bind fun (vm, off) =>
      let (vm, x) := vm.read env off (vmSize (atoi val))
      acc.set vm str x

/-- `vm_eval_eq`. -/
def vmEvalEq (vm : Vm) (str val : List u8) : Option Vm :=
  let str := str.dropWhile (· = 32)
  let val := val.dropWhile (· = 32)
  if str.head? = some 91 then
    if val.head? = some 91 then vmCopy env acc vm val.tail
    else vmStore env acc vm str.tail val
  else if val.head? = some 91 then vmLoad env acc vm str val.tail
  else (vmGetMath env acc vm val).bind fun (vm, x) => acc.set vm str x

/-- The loop of `vm_eval_single` over the blanks: one goes, and the character behind
it is passed over. -/
def vmSqueeze : List u8 → List u8
  | 32 :: c :: rest => c :: vmSqueeze rest
  | [32] => []
  | c :: rest => c :: vmSqueeze rest
  | [] => []

/-- An assignment in `vm_eval_single`, with what is in front of the sign. -/
def vmAssign (vm : Vm) (ptr val : List u8) : Option Vm :=
  match ptr.getLast? with
  | none => none
  | some op =>
    if op ∈ vmOperators.map Prod.fst then
      let ptr := ptr.dropLast
      vmEvalEq env acc vm (ptr.takeWhile (· ≠ 32)) ((ptr ++ op :: val).take 126)
    else if op = 32 then vmEvalEq env acc vm (ptr.rdropWhile (· = 32)) val
    else vmEvalEq env acc vm ptr val

/-- `vm_eval_single`, with whether the value returned is other than -1. -/
def vmEvalSingle (vm : Vm) (str : List u8) : Option (Vm × Bool) :=
  let str := str.dropWhile (· = 32)
  let ptr := vmSqueeze str
  match behindChar 61 ptr with
  | some val => (vmAssign env acc vm (ptr.takeWhile (· ≠ 61)) val).map fun vm => (vm, true)
  | none =>
    if [105, 102, 32].isPrefixOf ptr then
      (acc.get vm (ptr.drop 3)).map fun (vm, x) => (vm, decide (x = 0))
    else if [105, 102, 110, 111, 116, 32].isPrefixOf ptr then
      (acc.get vm (ptr.drop 6)).map fun (vm, x) => (vm, decide (x ≠ 0))
    else if [99, 109, 112, 32].isPrefixOf ptr then
      if str.length < 5 then none
      else (vmEvalCmp env acc vm (str.drop 5)).map fun vm => (vm, true)
    else some (vm, true)

/-- The loop of `vm_eval` over the statements. -/
def vmEvalEach (vm : Vm) : List (List u8) → Option Vm
  | [] => some vm
  | str :: strs =>
    (vmEvalSingle env acc vm str).bind fun (vm, goesOn) =>
      if goesOn then vmEvalEach vm strs else some vm

/-- `vm_eval`. -/
def vmEval (vm : Vm) (str : List u8) : Option Vm :=
  vmEvalEach env acc { vm with mem := { vm.mem with realio := vm.vmRealio } } (str.splitOn 44)

/-! ## Accesses that run scripts -/

/-- `vm_reg_get`. -/
def vmRegGet (vm : Vm) (name : List u8) : Option (Vm × ut64) :=
  if name = [] then none
  else
    let i := vmRegLike vm.regs name
    match (entryAt vm.regs i).bind VmReg.get with
    | none => some (vm, vm.value i)
    | some script => (vmEval env vmPlain vm script).map fun vm => (vm, vm.value i)

/-- `vm_reg_set`. -/
def vmRegSet (vm : Vm) (name : List u8) (value : ut64) : Option Vm :=
  let i := vmRegNamed vm.regs name
  match (entryAt vm.regs i).bind VmReg.set with
  | none => some (vm.put value i)
  | some script => vmEval env vmPlain (vm.put value i) script

/-- The accesses while `rec` is not set. -/
def vmScripted : VmAccess := ⟨vmRegGet env, vmRegSet env⟩

/-! ## The stack -/

/-- `vm_stack_push`. -/
def vmStackPush (vm : Vm) (val : UInt32) : Option Vm :=
  (acc.get vm vm.cpu.sp).bind fun (vm, sp) =>
    (acc.set vm vm.cpu.sp (sp + 4)).bind fun vm =>
      (acc.get vm vm.cpu.sp).map fun (vm, sp) => vm.write env sp (bytesOf 4 val.toNat)

/-- `vm_stack_pop`: the value that `vm_mmu_read` returns is that of an error. -/
def vmStackPop (vm : Vm) (reg : List u8) : Option Vm :=
  (acc.get vm vm.cpu.sp).bind fun (vm, sp) =>
    let (mem, _, ret) := vmMmuRead env.behind vm.mem sp (List.replicate 4 0)
    let vm := { vm with mem := mem }
    if ret ≠ 0 then some vm
    else
      (acc.get vm vm.cpu.sp).bind fun (vm, sp) =>
        let (vm, val) := vm.read env sp 4
        (acc.set vm reg val).bind fun vm =>
          (acc.get vm vm.cpu.sp).bind fun (vm, sp) => acc.set vm vm.cpu.sp (sp - 4)

end Radare
