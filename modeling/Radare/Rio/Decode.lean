import Radare.Model.Word
/-!
# The bytes of a write

`radare_write` turns its argument into bytes in place: `escape_buffer`
shortens the string as it goes, and `hexstr2binstr` writes what it has
read into the string it is still reading. The first is a function of the
string. The second runs over memory: a number written as `0x` comes to
four bytes whatever its length, which can run ahead of the reading, and
the character that ends it is stepped over even where it is the last. So
its memory is the string and what lies behind it, and a step out of that
has no result.
-/

namespace Radare

/-- `hex2int`: the value with one digit more. -/
def hex2int (val c : u8) : Option u8 :=
  if 48 ≤ c ∧ c ≤ 57 then some (val * 16 + (c - 48))
  else if 65 ≤ c ∧ c ≤ 70 then some (val * 16 + (c - 65 + 10))
  else if 97 ≤ c ∧ c ≤ 102 then some (val * 16 + (c - 97 + 10))
  else none

/-- `escape_buffer`: the bytes of a string with escapes; `none` where it
complains and returns 0. -/
def escapeBuffer : List u8 → Option (List u8)
  | [] => some []
  | 92 :: 101 :: rest => (escapeBuffer rest).map (0x1b :: ·)
  | 92 :: 114 :: rest => (escapeBuffer rest).map (0x0d :: ·)
  | 92 :: 110 :: rest => (escapeBuffer rest).map (0x0a :: ·)
  | 92 :: 120 :: a :: b :: rest =>
    match hex2int 0 a, hex2int 0 b with
    | some ch, some ch2 => (escapeBuffer rest).map (((ch <<< 4) + ch2) :: ·)
    | _, _ => none
  | 92 :: _ => none
  | c :: rest => (escapeBuffer rest).map (c :: ·)

/-- Behind every escape that is decoded there is less than it is shortened by:
what is behind it is not copied over itself. -/
def escapesApart : List u8 → Bool
  | [] => true
  | 92 :: 101 :: rest => rest = []
  | 92 :: 114 :: rest => rest = []
  | 92 :: 110 :: rest => rest = []
  | 92 :: 120 :: a :: b :: rest =>
    match hex2int 0 a, hex2int 0 b with
    | some _, some _ => rest.length < 3 && escapesApart rest
    | _, _ => true
  | 92 :: _ => true
  | _ :: rest => escapesApart rest

/-! ## `hexstr2binstr` -/

/-- The state of the loop: the memory, the place read, the number of bytes
written, and the byte under way with its digits. -/
structure HexScan where
  mem : List u8
  ptr : ℕ
  len : ℕ
  c : u8
  j : ℕ
deriving DecidableEq

/-- A store, where there is memory. -/
def store (mem : List u8) (i : ℕ) (c : u8) : Option (List u8) :=
  if i < mem.length then some (mem.set i c) else none

/-- The characters passed over between digits. -/
def ignored (c : u8) : Bool := c = 58 ∨ c = 10 ∨ c = 9 ∨ c = 13 ∨ c = 32

/-- The end of a number: the first NUL, blank or tab from `ptr` on. -/
def wordEnd (mem : List u8) (ptr : ℕ) : Option ℕ :=
  ((mem.drop ptr).findIdx? fun c => c = 0 ∨ c = 32 ∨ c = 9).map (ptr + ·)

/-- How a turn of the loop ends. -/
inductive HexTurn where
  | next (st : HexScan)
  | stop (st : HexScan)
  /-- The character is no digit, and the function returns 0. -/
  | invalid (st : HexScan)
deriving DecidableEq

/-- One turn. `getMath` is what `get_math` makes of a number, which depends
on the flags and the seek; `out` is where the output starts. -/
def hexTurn (getMath : List u8 → ut64) (out : ℕ) (st : HexScan) : Option HexTurn := do
  let ch ← st.mem[st.ptr]?
  if ignored ch then return .next { st with ptr := st.ptr + 1 }
  let st ← if st.j = 2 then
      (store st.mem (out + st.len) st.c).map fun mem =>
        { st with mem := mem, len := st.len + 1, c := 0, j := 0 }
    else some st
  -- the byte just stored may be the one being read
  let ch ← st.mem[st.ptr]?
  if ch = 32 then return .next { st with ptr := st.ptr + 1 }
  if ch = 0 then return .stop st
  if ch = 48 ∧ st.mem[st.ptr + 1]? = some 120 then
    -- the test for 64 bits is with the complement of an `unsigned int`, which is 0
    let addr := getMath ((st.mem.drop st.ptr).takeWhile (· ≠ 0))
    let mem ← store st.mem (out + st.len) addr.toUInt8
    let mem ← store mem (out + st.len + 1) (addr >>> 8).toUInt8
    let mem ← store mem (out + st.len + 2) (addr >>> 16).toUInt8
    let mem ← store mem (out + st.len + 3) (addr >>> 24).toUInt8
    let ptr ← wordEnd mem st.ptr
    return .next { st with mem := mem, ptr := ptr + 1, len := st.len + 4, j := 0 }
  match hex2int st.c ch with
  | none => return .invalid st
  | some c =>
    let c := c ||| st.c
    return .next { st with ptr := st.ptr + 1, c := if st.j = 0 then c <<< 4 else c, j := st.j + 1 }

/-- The turns, at most `fuel` of them. -/
def hexLoop (getMath : List u8 → ut64) (out : ℕ) : ℕ → HexScan → Option (ℕ × List u8)
  | 0, _ => none
  | fuel + 1, st => do
    match ← hexTurn getMath out st with
    | .next st => hexLoop getMath out fuel st
    | .stop st => return (st.len, st.mem)
    | .invalid st => return (0, st.mem)

/-- `hexstr2binstr`, from `inp` to `out` in one memory: the value returned
and the memory after. Every turn steps on, so one for each byte of the
memory is enough. -/
def hexstr2binstr (getMath : List u8 → ut64) (mem : List u8) (inp out : ℕ) :
    Option (ℕ × List u8) :=
  hexLoop getMath out (mem.length + 1) ⟨mem, inp, 0, 0, 0⟩

/-- The modes of `radare_write`. -/
inductive WMode where
  | char
  | string
  | hex
  | wstring
deriving DecidableEq

/-- The mode taken: `0x` in front makes every argument a hexadecimal
one. -/
def writeMode (arg : List u8) (mode : WMode) : WMode :=
  if arg.take 2 = [48, 120] then .hex else mode

/-- No escape of the argument is copied over itself. -/
def decodesApart (arg : List u8) (mode : WMode) : Bool :=
  match writeMode arg mode with
  | .string | .wstring => escapesApart arg
  | .char | .hex => true

/-- The bytes `radare_write` makes of its argument, `behind` being the
memory behind its copy. None are made where a decoder complains. -/
def writeBytes (getMath : List u8 → ut64) (behind arg : List u8) (mode : WMode) :
    Option (List u8) :=
  match writeMode arg mode with
  | .char => some []
  | .string => some ((escapeBuffer arg).getD [])
  | .wstring => some (((escapeBuffer arg).getD []).flatMap fun c => [c, 0])
  | .hex => (hexstr2binstr getMath (arg ++ 0 :: behind) 0 0).map fun (len, mem) => mem.take len

end Radare
