import Radare.Flags.Model
import Radare.Model.Text
import Radare.Rio.Decode
import Radare.Search.Binparse
/-!
# Keywords

A keyword is a text, of characters and of bytes written `\xHH`, that
`tok_parse` makes tokens of. The command `/x` makes such a text of bytes
given in hexadecimal: a byte that can be printed stands for itself there.
-/

namespace Radare

/-! ## `tok_parse` -/

/-- What `sscanf` leaves of a `%x`: of a text on the stack, and of one in
memory that nothing ends. -/
structure TokEnv where
  tokaux : ℕ → List u8 → u8
  value : ℕ → List u8 → u8
  /-- Two digits behind `0x` are read as the number they are. -/
  hex : ∀ i c d a b, hexDigit c = some a → hexDigit d = some b →
    tokaux i [48, 120, c, d] = UInt8.ofNat (a * 16 + b)

/-- The variables of `tok_parse`. A token is its `mintok` and its `range`. -/
structure TokState where
  estat : ℕ := 0
  /-- `straux[2]`. -/
  straux : u8 := 0
  rangemin : ℕ := 0
  tlist : List (u8 × u8) := []

/-- `get_num`, of the characters at an index. -/
def getNum (env : TokEnv) (i : ℕ) : List u8 → u8
  | [] => 0
  | c :: str => if c = 92 then env.value i (48 :: str) else c

/-- `get_range`: the range, and the base. -/
def getRange (env : TokEnv) (i : ℕ) (str : List u8) : u8 × u8 :=
  let g := (str.takeWhile (· ≠ 45)).length
  let min := getNum env i (str.take g)
  let max := getNum env (i + g + 1) (str.drop (g + 1))
  (max - min, min)

/-- The `switch`. -/
def tokSwitch (i : ℕ) (c : u8) (s : TokState) : TokState :=
  if c = 92 then
    if s.estat ≠ 1 ∧ (s.estat < 10 ∨ s.estat > 22) then { s with estat := 1 }
    else { s with estat := s.estat + 1 }
  else if c = 91 then
    if s.estat ≠ 1 ∧ s.estat ≠ 10 then { s with estat := 10, rangemin := i + 1 }
    else { s with estat := s.estat + 1 }
  else if s.estat ≠ 0 then { s with estat := s.estat + 1 }
  else s

/-- A token behind the others. -/
def TokState.add (s : TokState) (mintok range : u8) : TokState :=
  { s with tlist := s.tlist ++ [(mintok, range)], estat := 0 }

/-- What stands behind the `switch`. -/
def tokEmit (env : TokEnv) (searchNocase : Bool) (str : List u8) (i : ℕ) (c : u8) (s : TokState) :
    TokState :=
  if s.estat = 0 then s.add (if searchNocase then tolower c else c) 0
  else if s.estat = 2 then
    if c = 120 then s else s.add (if searchNocase then tolower c else c) 0
  else if s.estat = 3 then { s with straux := c }
  else if s.estat = 4 then s.add (env.tokaux i [48, 120, s.straux, c]) 0
  else if s.estat ≥ 11 ∧ s.estat ≤ 22 then
    if c = 93 then
      let (irange, cmin) :=
        getRange env s.rangemin ((str.drop s.rangemin).take (i - s.rangemin))
      s.add cmin irange
    else s
  else s

/-- A turn of the loop. -/
def tokTurn (env : TokEnv) (searchNocase : Bool) (str : List u8) (i : ℕ) (c : u8) (s : TokState) :
    TokState :=
  tokEmit env searchNocase str i c (tokSwitch i c s)

/-- The loop of `tok_parse`, from a character on. -/
def tokLoop (env : TokEnv) (searchNocase : Bool) (str : List u8) :
    ℕ → List u8 → TokState → TokState
  | _, [], s => s
  | i, c :: cs, s =>
    tokLoop env searchNocase str (i + 1) cs (tokTurn env searchNocase str i c s)

/-- `tok_parse`. -/
def tokParse (env : TokEnv) (searchNocase : Bool) (str : List u8) : List (u8 × u8) :=
  (tokLoop env searchNocase str 0 str {}).tlist

/-! ## `/x` -/

/-- The loop of `hexpair2bin`. -/
def hexpairLoop : List u8 → u8 → ℕ → Option u8
  | [], c, _ => some c
  | p :: ptr, c, j =>
    if p = 32 ∨ j = 2 then some c
    else do
      let d := c
      let c ← hex2int c p
      let c := c ||| d
      hexpairLoop ptr (if j = 0 then c <<< 4 else c) (j + 1)

/-- `hexpair2bin`, where `none` is -1. -/
def hexpair2bin (arg : List u8) : Option u8 :=
  if arg.length < 2 then none else hexpairLoop arg 0 0

/-- `\x%02x`, or the byte. -/
def keyByte (ch : u8) : List u8 :=
  if isPrintable ch then [ch] else 92 :: 120 :: hexText 2 ch.toUInt64

/-- The loop of `/x`. -/
def keyLoop : ℕ → List u8 → Option (List u8)
  | 0, _ => none
  | fuel + 1, text =>
    if text = [] then some []
    else do
      let ch ← hexpair2bin text
      let j := if 4 < text.length ∧ text[2]? = some 32 then 3 else 2
      let rest ← keyLoop fuel (text.drop j)
      some (keyByte ch ++ rest)

/-- `/x`: the keyword that it puts in `SEARCH[0]`. -/
def radareSearchX (input : List u8) : Option (List u8) :=
  let text := input.drop 2
  if text.length < 2 then none else keyLoop (text.length + 1) text

end Radare
