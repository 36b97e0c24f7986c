import Mathlib.Algebra.Group.Nat.Defs
import Radare.Common.Prog
import Radare.Config.Model
import Radare.Rio.SectionLines
/-!
# Expressions

`get_math` reads an expression from left to right, `get_offset` the numbers
in it. A number can be an option of the configuration, and then the value
of that is an expression again; what stands in brackets is one too, and the
number on the disk there is the value: `get_pointer` seeks to it, and back.
So `get_math` is a program that asks for expressions, pointers and the seek
(`mathBody`), and a static counter says how deep it is in itself
(`mathCall`). This file is the code, but for what it asks of the flags, and
of the instruction at the seek.
-/

namespace Radare

namespace Utils

open Common

/-- What an expression asks for. -/
inductive Ask where
  /-- `get_math`. -/
  | math (text : List u8)
  /-- `get_pointer`, which has asked for `cfg.bigendian`. -/
  | pointer (addr : ut64) (size : ℤ) (big : Bool)
  /-- `config.seek`. -/
  | seek

/-- A program that asks for values. -/
abbrev Calc := Prog Unit Ask ut64 ut64

/-- What expressions read of the rest of the program. -/
structure MathEnv where
  config : ConfigNew := {}
  /-- The file, with `config.seek`, where nothing has been asked for. -/
  disk : State := openFile [] 0 0
  /-- `io_write_last`. -/
  ioWriteLast : ut64 := 0
  lastCmp : ut64 := 0
  blockSize : ut64 := 0
  size : ut64 := 0
  /-- `undo_get_last_seek`. -/
  lastSeek : ut64 := 0
  /-- `data_prev` and `data_prev_size`, of a function, at a seek. -/
  dataPrev : ut64 → ut64 := fun _ => 0
  dataPrevSize : ut64 → ut64 := fun _ => 0
  /-- What `arch_aop` says of the instruction at a seek. -/
  aopLength : ut64 → ut64 := fun _ => 0
  aopEob : ut64 → ut64 := fun _ => 0
  aopJump : ut64 → ut64 := fun _ => 0
  aopFail : ut64 → ut64 := fun _ => 0
  aopRef : ut64 → ut64 := fun _ => 0
  flagGet : List u8 → Option ut64 := fun _ => none
  /-- The bits that `sscanf` makes of a float. -/
  floatBits : List u8 → UInt32 := fun _ => 0
  /-- `1<<j` where an `int` has no such bit above its sign. -/
  shl : ℕ → ut64 := fun _ => 0
  /-- Memory behind a name, behind the two copies of a text, and the
  character in front of another copy. -/
  behindName : List u8 := []
  behind : List u8 := []
  behind2 : List u8 := []
  before : u8 := 0

variable (env : MathEnv)

/-! ## `sscanf` -/

def skipSpace (text : List u8) : List u8 := text.dropWhile fun c => c = 32 ∨ 9 ≤ c ∧ c ≤ 13

/-- A sign, and what is behind it. -/
def scanSign (text : List u8) : Bool × List u8 :=
  if text.head? = some 45 then (true, text.tail)
  else if text.head? = some 43 then (false, text.tail)
  else (false, text)

/-- The digits of a base that a text starts with. -/
def scanDigits (b : ℕ) (text : List u8) : List ℕ :=
  (text.takeWhile fun c => (hexDigit c).any (· < b)).filterMap hexDigit

/-- `%lld`, clamped to a `long long`. -/
def scanDec (text : List u8) : Option ut64 :=
  let (neg, rest) := scanSign (skipSpace text)
  let ds := scanDigits 10 rest
  if ds = [] then none
  else
    let n : ℤ := if neg then -value 10 ds else value 10 ds
    some (UInt64.ofInt (max (-2 ^ 63) (min n (2 ^ 63 - 1))))

/-- A hexadecimal number may start with `0x`. -/
def scanPrefix (b : ℕ) (rest : List u8) : Bool :=
  b = 16 ∧ rest.head? = some 48 ∧ (rest[1]? = some 120 ∨ rest[1]? = some 88) ∧
    (rest[2]?.bind hexDigit).isSome

/-- `%llx` and `%llo`, clamped to an `unsigned long long`. -/
def scanBase (b : ℕ) (text : List u8) : Option ut64 :=
  let (neg, rest) := scanSign (skipSpace text)
  let ds := scanDigits b (if scanPrefix b rest then rest.drop 2 else rest)
  if ds = [] then none
  else if 2 ^ 64 ≤ value b ds then some (-1)
  else some (if neg then -UInt64.ofNat (value b ds) else UInt64.ofNat (value b ds))

/-! ## `get_offset` -/

/-- `config_get_i`. -/
def configGetI (name : List u8) : Calc :=
  match configNodeGet env.behindName env.config name with
  | some node => if node.iValue ≠ 0 then pure node.iValue else Prog.invoke (.math node.value)
  | none => pure 0

/-- `cfg.bigendian`. -/
def bigendianText : List u8 := [99, 102, 103, 46, 98, 105, 103, 101, 110, 100, 105, 97, 110]

/-- The number in some bytes. -/
def wordOf (little : Bool) (bytes : List u8) : ut64 :=
  UInt64.ofNat (value 256 ((if little then bytes.reverse else bytes).map UInt8.toNat))

/-- The seeks of `get_pointer`, and what it reads between them. -/
def pointerAt (s : State) (addr : ut64) (size : ℤ) (big : Bool) : ut64 × State :=
  if size = 1 ∨ size = 2 ∨ size = 4 ∨ size = 8 then
    let (t, bytes) := radareReadAt s addr (List.replicate size.toNat 0)
    (wordOf (!big) bytes, t)
  else (0, (radareSeek (radareSeek s addr .set).1 s.config.seek .set).1)

/-- `get_pointer`. -/
def getPointer (addr : ut64) (size : ℤ) : Calc := do
  let big ← configGetI env bigendianText
  Prog.invoke (.pointer addr size (big ≠ 0))

/-- A `char` as a `ut64`. -/
def charOff (c : u8) : ut64 := if c < 128 then c.toUInt64 else c.toUInt64 - 256

/-- The loop of `get_offset` behind a dot, with `mask` and `real`. -/
def dotLoop (mask real : ut64) : List u8 → ut64 × ut64
  | [] => (mask, real)
  | c :: rest =>
    if c = 46 then dotLoop mask real rest
    else
      dotLoop (mask <<< 4 ||| 0xf)
        (if real = 0 then (scanBase 16 (c :: rest)).getD real else real) rest

/-- An address whose upper digits are those of the seek. -/
def dotOffset (arg : List u8) : Calc := do
  let (mask, real) := dotLoop 0 0 arg
  return ((← Prog.invoke .seek) &&& (-mask - 1)) + real

/-- What a `$` and the character behind it stand for. -/
def dollarOffset (ret : ut64) (arg : List u8) (i : ℕ) : Calc := do
  let seek ← Prog.invoke .seek
  match arg.getD (i + 1) 0 with
  | 119 => pure env.ioWriteLast
  | 36 => pure (env.aopLength seek)
  | 63 => pure env.lastCmp
  | 101 => pure (env.aopEob seek)
  | 98 => pure env.blockSize
  | 108 => pure env.lastSeek
  | 70 => pure (env.dataPrev seek)
  | 83 => pure (env.dataPrevSize seek)
  | 106 => pure (env.aopJump seek)
  | 115 => pure env.size
  | 102 => pure (env.aopFail seek)
  | 114 => pure (env.aopRef seek)
  | 123 =>
    let name := arg.drop (i + 2)
    if 125 ∈ name then configGetI env (name.takeWhile (· ≠ 125)) else pure ret
  | _ => pure seek

/-- `1<<j`. -/
def shlOne (j : ℕ) : ut64 := if j < 31 then UInt64.ofNat (2 ^ j) else env.shl j

/-- The loop that reads a binary number, from its last digit. -/
def binLoop (j : ℕ) (ret : ut64) : List u8 → ut64
  | [] => ret
  | c :: rest =>
    if c = 49 then binLoop (j + 1) (ret ||| shlOne env j) rest
    else if c = 48 then binLoop (j + 1) ret rest
    else ret

/-- The number that a word is, of a text that has been cut behind it. -/
def numberOffset (ret : ut64) (word arg : List u8) (i : ℕ) : ut64 :=
  if arg.getD i 0 = 120 ∧ arg.getD (i - 1) 0 = 48 then
    if word.take 2 = [48, 120] then (scanBase 16 (word.drop 2)).getD ret else ret
  else
    let ret := (scanDec word).getD ret
    match word.getLast?.getD env.before with
    | 102 => (ret &&& 0xffffffff00000000) ||| (env.floatBits word).toUInt64
    | 111 => (scanBase 8 word).getD ret
    | 98 => binLoop env 0 0 word.dropLast.reverse
    | 75 | 107 => ret * 1024
    | 77 | 109 => ret * (1024 * 1024)
    | 71 | 103 => ret * (1024 * 1024 * 1024)
    | _ => ret

/-- `get_offset`, of a text of at most so many characters. -/
def offsetAux : ℕ → List u8 → Calc
  | 0, _ => pure 0
  | n + 1, orig =>
    if orig = [] then pure 0
    else
      let arg := orig.dropWhile (· = 32)
      let i := (arg.takeWhile (· = 92)).length + 1
      if arg.head? = some 39 ∧ arg[2]? = some 39 then pure (charOff (arg.getD 1 0))
      else if arg.head? = some 46 then dotOffset arg
      else if 91 ∈ arg then do
        let addr ← offsetAux n ((arg.dropWhile (· ≠ 91)).drop 1)
        getPointer env addr 4
      else do
        let ret ← configGetI env arg
        if ret.toUInt32 ≠ 0 then return ret
        else if arg.getD i 0 = 36 then dollarOffset env ret arg i
        else
          let word := arg.takeWhile (· ≠ 32)
          match env.flagGet word with
          | some offset => return offset
          | none => return numberOffset env ret word (arg.set word.length 0) i

/-- `get_offset`. -/
def getOffset (orig : List u8) : Calc := offsetAux env orig.length orig

/-! ## `get_math` -/

/-- The variables of `get_math`. -/
structure MathState where
  /-- The copies of the text, and what is behind them. -/
  txt : List u8
  txt2 : List u8
  ptr : ℕ := 0
  newOff : ut64
  cmpOff : ut64 := 0
  isCmp : ℤ := 0
  op : u8 := 0
  oop : u8 := 0

/-- The string at a place of memory. -/
def cstr (mem : List u8) (i : ℕ) : List u8 := (mem.drop i).takeWhile (· ≠ 0)

/-- What stands in brackets: its value is an address, and the number there
is the value. The next token is looked for as far behind this one as the
bracket is from the start of the text. -/
def mathBracket (m : MathState) (tmp : Option ℕ) :
    Prog Unit Ask ut64 (MathState × Option ℕ) :=
  match (cstr m.txt2 (m.ptr + 1)).idxOf? 93 with
  | none => pure (m, tmp)
  | some k => do
    let end_ := m.ptr + 1 + k
    let size := (cstr m.txt2 m.ptr).takeWhile (· ≠ 58)
    let colon : Bool := 58 ∈ cstr m.txt2 m.ptr
    let txt2 := if colon then m.txt2.set (m.ptr + size.length) 0 else m.txt2
    let p := if colon then m.ptr + size.length + 1 else m.ptr
    let addr ← Prog.invoke (.math (cstr (txt2.set end_ 0) p))
    let newOff ← getPointer env addr (if colon then atoi size else 4)
    return ({ m with newOff := newOff, txt2 := txt2 }, some (m.ptr + end_))

/-- The switch of `get_math`, for a token, and where it left `tmp`. -/
def mathSwitch (m : MathState) (tok : List u8) (tmp : Option ℕ) :
    Prog Unit Ask ut64 (MathState × Option ℕ) := do
  -- the operand of a comparison is all that is behind its operator
  let compare (isCmp : ℤ) : Prog Unit Ask ut64 MathState :=
    if m.isCmp = 0 then do
      let newOff ← if tmp.isSome then getOffset env (cstr m.txt (m.ptr + 1)) else pure m.newOff
      return { m with isCmp := isCmp, cmpOff := m.newOff, newOff := newOff }
    else pure m
  let set (t : ut64) : Prog Unit Ask ut64 (MathState × Option ℕ) :=
    return ({ m with newOff := t }, tmp)
  match m.oop with
  | 33 => return (← compare (-1), tmp)
  | 61 => return (← compare 1, tmp)
  | 91 => mathBracket env m tmp
  | 92 =>
    if tok.head? = some 124 then set (m.newOff ||| (← getOffset env (tok.drop 1)))
    else if tok.head? = some 38 then set (m.newOff &&& (← getOffset env (tok.drop 1)))
    else return (m, tmp)
  | oop => do
    let t ← getOffset env tok
    match oop with
    | 37 => if t = 0 then return (m, tmp) else set (m.newOff % t)
    | 47 => if t = 0 then return (m, tmp) else set (m.newOff / t)
    | 60 => set (m.newOff <<< t)
    | 62 => set (m.newOff >>> t)
    | 45 => set (m.newOff - t)
    | 42 => set (m.newOff * t)
    | _ => set (m.newOff + t)

/-- The loop of `get_math`, in at most so many turns. `mytok` ends the token
at the operator behind it. -/
def mathLoop : ℕ → MathState → Prog Unit Ask ut64 MathState
  | 0, m => pure m
  | n + 1, m =>
    let text := cstr m.txt m.ptr
    if text = [] then pure m
    else
      let tok := text.takeWhile fun c => ¬operators.contains c
      let delim := text[tok.length]?
      let m := match delim with
        | some op => { m with txt := m.txt.set (m.ptr + tok.length) 0, op := op }
        | none => m
      do
        let (m, tmp) ← mathSwitch env m tok (delim.map fun _ => m.ptr)
        match tmp with
        | none => pure m
        | some tmp =>
          mathLoop n { m with ptr := tmp + (cstr m.txt tmp).length + 1, oop := m.op }

/-- `get_math` of a text that is not empty, without the counter. -/
def mathBody (text : List u8) : Calc := do
  let txt := squeeze text
  let signed : Bool := txt.head? = some 43 ∨ txt.head? = some 45
  let newOff ← if signed then Prog.invoke .seek else pure 0
  let m : MathState :=
    { txt := txt ++ 0 :: env.behind
      txt2 := txt ++ 0 :: env.behind2
      newOff := newOff }
  let m ← mathLoop env (m.txt.length + 1) m
  if m.isCmp > 0 then return m.newOff - m.cmpOff
  else if m.isCmp < 0 then return if m.newOff - m.cmpOff = 0 then 1 else 0
  else return m.newOff

/-! ## The counter -/

/-- What all calls of `get_math` share: the counter, and the disk with the
seek. -/
structure Shared where
  level : ℤ
  disk : State

/-- What is asked for, with at most so many calls of `get_math` within each
other, and what is shared behind it. -/
def mathCall : ℕ → Ask → Shared → Option (ut64 × Shared)
  | 0, .math _, _ => none
  | n + 1, .math text, sh =>
    if sh.level > 5 then some (0, { sh with level := sh.level + 1 })
    else if text = [] then some (0, sh)
    else
      ((mathBody env text).inside.run (mathCall n) { sh with level := sh.level + 1 }).map
        fun (v, sh) => (v, { sh with level := sh.level - 1 })
  | _, .pointer addr size big, sh =>
    let (v, disk) := pointerAt sh.disk addr size big
    some (v, { sh with disk := disk })
  | _, .seek, sh => some (sh.disk.config.seek, sh)

/-- `get_math`, which is as many calls deep as the `level` lets it be, and the
other answers. -/
def answer (a : Ask) (sh : Shared) : ut64 × Shared :=
  (mathCall env ((6 - sh.level).toNat + 1) a sh).getD (0, sh)

/-- `get_math` at a `level`: the value, and the `level` behind it. -/
def getMath (text : List u8) (level : ℤ) : ut64 × ℤ :=
  let (v, sh) := answer env (.math text) ⟨level, env.disk⟩
  (v, sh.level)

end Utils

end Radare
