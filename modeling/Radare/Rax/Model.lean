import Radare.Utils.Bits
/-!
# The number converter

`rax` prints a number in another base, which it tells from how its argument is
written. It is a program of its own with two switches, for the byte order and for
hexadecimal pairs. This file is the code, but for what it prints of a float and
reads from its standard input.
-/

namespace Radare

/-- The switches of `rax`. -/
structure RaxState where
  endian : Bool := false
  strbin : Bool := false

/-- What `rax` takes from elsewhere. -/
structure RaxEnv where
  /-- The shifts of an `int`, and what `sscanf` makes of a float. -/
  math : Utils.MathEnv := {}
  /-- `%f`. -/
  floatText : UInt32 → List u8 := fun _ => []
  /-- The help. -/
  usage : List u8 := []
  /-- What is written for the standard input. -/
  stdin : Bool → List u8 := fun _ => []
  /-- A variable that is not set. -/
  junk : u8 := 0

/-- Why `rax` does not return. -/
inductive RaxStop
  | exit
  | outside

/-- The bytes of an `unsigned int` the other way around. -/
def swapBytes (a : UInt32) : UInt32 :=
  ((a &&& 0xff) <<< 24) ||| ((a &&& 0xff00) <<< 8) ||| ((a >>> 8) &&& (0xff00 : UInt32)) |||
    (a >>> 24)

/-- `SWAP_ENDIAN`. -/
def RaxState.order (st : RaxState) (a : UInt32) : UInt32 := if st.endian then swapBytes a else a

/-- `%x` and `%o` into a variable that is 0. -/
def scanUnsigned (b : ℕ) (text : List u8) : UInt32 := ((Utils.scanBase b text).getD 0).toUInt32

/-- `%d` into a variable that is 0. -/
def scanSigned (text : List u8) : UInt32 := ((Utils.scanDec text).getD 0).toUInt32

/-- `0x%llx` and a new line. -/
def hexLine (n : ut64) : List u8 := [48, 120] ++ hexText 1 n ++ [10]

/-- `%o`. -/
def octText (a : UInt32) : List u8 := (Common.padded 1 (Common.digits 8 11 a.toNat)).map digitChar

/-- `-a`, for an argument with a sign. -/
def negated (neg : Bool) (a : UInt32) : UInt32 := if neg then -a else a

/-- `%02hhx` into a variable that has a value. -/
def scanPair (a : u8) (text : List u8) : u8 :=
  ((Utils.scanBase 16 ((Utils.skipSpace text).take 2)).map UInt64.toUInt8).getD a

/-- The loop over hexadecimal pairs, with its variable. -/
def raxPairs (a : u8) : List u8 → Option (List u8)
  | [] => some []
  | [_] => none
  | c :: d :: 32 :: rest =>
    let a := scanPair a (c :: d :: 32 :: rest)
    (raxPairs a rest).map (a :: ·)
  | c :: d :: rest =>
    let a := scanPair a (c :: d :: rest)
    (raxPairs a rest).map (a :: ·)

/-- The loop that prints a number in binary, from its last digit, with two buffers
of a size. -/
def bxLoop (size : ℕ) : ℕ → UInt32 → List u8 → Option (List u8)
  | 0, _, _ => none
  | fuel + 1, a, bin2 =>
    if a = 0 then some bin2
    else
      let bin1 := (if a &&& 1 ≠ 0 then 49 else 48) :: bin2
      if bin1.length + 1 ≤ size then bxLoop size fuel (a >>> 1) bin1 else none

/-- The branch for `Bx`. -/
def raxBx (arg : List u8) : Option (List u8) :=
  let size := (arg.length - 2) * 4
  if size = 0 then none
  else
    let a := scanUnsigned 16 (arg.drop 2)
    if a = 0 then some [48, 120, 48, 10] else (bxLoop size 33 a []).map (· ++ [98, 10])

/-- What is printed for an argument behind its sign. -/
def raxNumber (env : RaxEnv) (st : RaxState) (neg : Bool) (arg : List u8) : Option (List u8) :=
  if arg.head? = some 63 ∨ arg.head? = some 104 then some env.usage
  else if arg.take 2 = [66, 120] then raxBx arg
  else if arg.take 2 = [79, 120] then
    some (octText (st.order (negated neg (scanUnsigned 16 (arg.drop 2)))) ++ [111, 10])
  else if arg.take 2 = [70, 120] then
    -- the copy is made before the bytes are swapped
    some (env.floatText (negated neg (scanUnsigned 16 (arg.drop 2))) ++ [102, 10])
  else if arg.take 2 = [48, 120] then
    some (intText (st.order (negated neg (scanUnsigned 16 (arg.drop 2)))) ++ [10])
  else match arg.getLast? with
    | none => none
    | some last =>
      if arg.head? = some 48 ∧ arg[1]? ≠ some 120 ∨ last = 111 then
        some (hexLine (st.order (negated neg (scanUnsigned 8 arg))).toUInt64)
      else if last = 98 then
        some (hexLine (Utils.binLoop env.math 0 0 arg.dropLast.reverse))
      else if last = 102 then
        let f := env.math.floatBits arg
        let f := st.order (if neg then f ^^^ 0x80000000 else f)
        let byte : UInt32 → List u8 := fun k => hexText 2 ((f >>> k) &&& (0xff : UInt32)).toUInt64
        some ([70, 120] ++ byte 0 ++ byte 8 ++ byte 16 ++ byte 24 ++ [10])
      else
        let a := st.order (negated neg (scanSigned arg))
        if arg.head? = some 48 then some ([48, 120] ++ hexText 8 a.toUInt64 ++ [10])
        else some (hexLine a.toUInt64)

/-- `rax`: the switches behind it, and what is written. -/
def rax (env : RaxEnv) (st : RaxState) (orig : List u8) :
    Except RaxStop (RaxState × List u8) :=
  if orig.head? = some 113 then .error .exit
  else if orig = [45, 115] then .ok ({ st with strbin := !st.strbin }, [])
  else if orig = [45, 101] then .ok ({ st with endian := !st.endian }, [])
  else if orig = [45] then .ok (st, env.stdin st.strbin)
  else
    let neg : Bool := orig.head? = some 45
    let arg := if neg then orig.tail else orig
    match if st.strbin then raxPairs env.junk arg else raxNumber env st neg arg with
    | some out => .ok (st, out)
    | none => .error .outside

end Radare
