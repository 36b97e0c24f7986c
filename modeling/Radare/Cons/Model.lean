import Mathlib.Data.Int.Notation
import Mathlib.Data.List.Basic
import Mathlib.Tactic.Common
import Radare.Model.Word
/-!
# The buffer of the console

What is printed is kept in a buffer of `cons.c`, with its length and its
capacity beside it. Both are an `int`, and so is what is asked of `palloc`:
an addition that does not fit one has no result here, and no more has a
copy that goes behind the memory it is copied to.
-/

namespace Radare

/-- `CONS_BUFSZ`. -/
def consBufsz : ℕ := 0x4f00

/-- A text without a NUL in it. -/
abbrev CText := { t : List u8 // 0 ∉ t }

/-- The buffer. -/
structure Cons where
  /-- The memory at `cons_buffer`; its length is `cons_buffer_sz`. -/
  buffer : Option (List u8) := none
  len : ℤ := 0

/-- Memory that nothing was written to. -/
structure ConsEnv where
  fresh : ℕ → u8
  stack : ℕ → u8

/-- `+` on an `int`. -/
def addInt (a b : ℤ) : Option ℤ := if -2 ^ 31 ≤ a + b ∧ a + b < 2 ^ 31 then some (a + b) else none

/-- `strlen` as an `int`. -/
def strlenInt (t : List u8) : ℤ := (t.length : ℤ).bmod (2 ^ 32)

/-- `memcpy` of a number of bytes to an offset. -/
def memcpyAt (mem : List u8) (off : ℤ) (src : List u8) (n : ℤ) : Option (List u8) :=
  if 0 ≤ off ∧ 0 ≤ n ∧ off + n ≤ mem.length ∧ n ≤ src.length then
    some (mem.take off.toNat ++ src.take n.toNat ++ mem.drop (off + n).toNat)
  else none

/-- The memory of `malloc` and `realloc`, which keeps the bytes it had. -/
def resized (env : ConsEnv) (mem : List u8) (n : ℕ) : List u8 :=
  mem.take n ++ (List.range (n - mem.length)).map env.fresh

/-- `palloc`. -/
def palloc (env : ConsEnv) (moar : ℤ) (s : Cons) : Option Cons :=
  match s.buffer with
  | none => do
    let sz ← addInt moar 4096
    let mem ← memcpyAt (resized env [] (sz % 2 ^ 32).toNat) 0 [0] 1
    some { s with buffer := some mem }
  | some mem => do
    let sum ← addInt moar s.len
    if (sum % 2 ^ 32).toNat > mem.length then
      let more ← addInt moar 4096
      some { s with buffer := some (resized env mem ((mem.length + more) % 2 ^ 32).toNat) }
    else some s

/-- Some bytes put behind the text. -/
def consAppend (src : List u8) (len : ℤ) (s : Cons) : Option Cons := do
  let mem ← s.buffer
  let mem ← memcpyAt mem s.len src (len + 1)
  let len ← addInt s.len len
  some { buffer := some mem, len := len }

/-- `cons_reset`. -/
def consReset (s : Cons) : Option Cons :=
  match s.buffer with
  | none => some { s with len := 0 }
  | some mem => (memcpyAt mem 0 [0] 1).map fun mem => { buffer := some mem, len := 0 }

/-- `cons_set_buffer`. -/
def consSetBuffer (env : ConsEnv) (buf : CText) (s : Cons) : Option Cons := do
  let s := { s with len := strlenInt buf.val }
  let s ← palloc env s.len s
  let mem ← s.buffer
  let mem ← memcpyAt mem 0 (buf.val ++ [0]) (s.len + 1)
  some { s with buffer := some mem }

/-- `cons_strcat`. -/
def consStrcat (env : ConsEnv) (str : CText) (s : Cons) : Option Cons :=
  let len := strlenInt str.val
  if len > 0 then do
    let moar ← addInt len 1024
    let s ← palloc env moar s
    consAppend (str.val ++ [0]) len s
  else some s

/-- `vsnprintf` to the buffer on the stack: what it returns, and what is in
the buffer and behind it. -/
def vsnprintf (env : ConsEnv) (text : CText) : ℤ × List u8 :=
  let written := text.val.take (consBufsz - 2) ++ [0]
  (if text.val.length < 2 ^ 31 then text.val.length else -1,
    written ++ (List.range (text.val.length + 1 - written.length)).map env.stack)

/-- `cons_printf`, of a format with a `%` in it or not, and the text that
comes of it. -/
def consPrintf (env : ConsEnv) (percent : Bool) (text : CText) (s : Cons) : Option Cons :=
  if percent then
    let (len, buf) := vsnprintf env text
    if len > 0 then do
      let moar ← addInt len 1024
      let s ← palloc env moar s
      consAppend buf len s
    else some s
  else consStrcat env text s

/-- `cons_fprintf`. -/
def consFprintf (env : ConsEnv) (text : CText) (s : Cons) : Option Cons :=
  let (len, buf) := vsnprintf env text
  if len > 0 then do
    let len := strlenInt (buf.takeWhile (· ≠ 0))
    let s ← palloc env len s
    consAppend buf len s
  else some s

/-- The calls. -/
inductive ConsOp where
  | strcat (text : CText)
  | printf (percent : Bool) (text : CText)
  | fprintf (text : CText)
  | reset
  | setBuffer (text : CText)

end Radare
