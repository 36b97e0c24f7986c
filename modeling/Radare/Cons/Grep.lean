import Mathlib.Data.List.Infix
import Radare.Cons.Model
import Radare.Model.Text
/-!
# The two filters of lines

The output of a command is filtered twice over: `cons_grepbuf` deletes
lines in the memory that they are in, and `cons_render` leaves them out
when it prints. Both are here as they are without a column of words and
without a counter.
-/

namespace Radare

/-- What `cons_grep` sets. -/
structure Grep where
  /-- NULL for an empty pattern. -/
  grepstr : Option CText
  grepneg : Bool
  grepline : ℤ

/-- `strstr`, as a condition. -/
def strstr (haystack needle : List u8) : Bool := decide (needle <:+: haystack)

/-- What lets a line through; without a pattern, the other loop of `cons_render`
goes over all lines. -/
def Grep.hit (g : Grep) (line : List u8) : Bool :=
  match g.grepstr with
  | none => true
  | some grepstr =>
    !g.grepneg && strstr line grepstr.val || g.grepneg && !strstr line grepstr.val

/-- `memchr`, of an `int` as the number of bytes. -/
def memchr (mem : List u8) (c : u8) (len : ℤ) : Option ℕ :=
  (mem.take (len % 2 ^ 64).toNat).idxOf? c

/-- `str_cpy` of the text further on in the memory to the front of it. -/
def strCpy (mem : List u8) (org : ℕ) : List u8 :=
  let str := cstr (mem.drop org) ++ [0]
  str ++ mem.drop str.length

/-- The loop of `cons_grepbuf`, with the memory from `obuf` up to `buf` and
that from `buf` on: the memory and the length that come of it. -/
def grepLoop (g : Grep) :
    ℕ → List u8 → List u8 → ℤ → ℤ → Option (List u8 × ℤ)
  | 0, _, _, _, _ => none
  | fuel + 1, obuf, buf, len, lines =>
    if buf.head? = some 0 then some (obuf ++ buf, len)
    else match memchr buf 10 len with
      | none => some (obuf ++ buf, len)
      | some linelen =>
        let hit := g.hit (cstr (buf.set linelen 0))
        if hit then
          if g.grepline ≠ -1 then
            if g.grepline = lines then
              let mem := obuf ++ buf.set linelen 0
              some (mem, strlenInt (cstr mem))
            else grepLoop g fuel obuf (strCpy buf (linelen + 1)) (len - linelen) (lines + 1)
          else if linelen > 0 then
            grepLoop g fuel (obuf ++ buf.take (linelen + 1)) (buf.drop (linelen + 1)) len (lines + 1)
          else some (obuf ++ buf, len)
        else
          grepLoop g fuel obuf (strCpy (buf.set linelen 0) (linelen + 1)) (len - linelen) lines

/-- `cons_grepbuf`: the text that it leaves in the buffer. -/
def consGrepbuf (g : Grep) (buf : List u8) (len : ℤ) : Option (List u8) :=
  if g.grepstr = none then some (cstr buf)
  else (grepLoop g (buf.length + 1) [] buf len 0).map fun (mem, _) => cstr mem

/-- The loops of `cons_render`: what is printed. -/
def renderLoop (g : Grep) : ℕ → List u8 → ℤ → Option (List u8)
  | 0, _, _ => none
  | fuel + 1, one, line =>
    match (cstr one).idxOf? 10 with
    | none => some []
    | some len =>
      let two := one.drop (len + 1)
      if g.hit (cstr (one.set len 0)) then
        let printed := if g.grepline = -1 ∨ g.grepline = line then one.take len ++ [10] else []
        (renderLoop g fuel two (line + 1)).map (printed ++ ·)
      else renderLoop g fuel two line

/-- `cons_render`, with nothing to highlight or to copy to a file. -/
def consRender (g : Grep) (buf : List u8) : Option (List u8) :=
  if buf.head? = some 0 then some []
  else if g.grepstr = none ∧ g.grepline = -1 then some (cstr buf)
  else renderLoop g (buf.length + 1) buf 0

end Radare
