import Mathlib.Data.List.Basic
import Mathlib.Tactic.Common
import Radare.Common.Loop
import Radare.Model.Word
/-!
# Flags

The flag table of `flags.c`: a list, the oldest flag first, that
`flag_set` appends to or updates, `flag_remove` and `flag_clear_by_addr`
take from, and `flag_get` searches from its end. A name is stored in a
buffer of `FLAG_BSIZE` characters, and compared as it is given.

Every walk of the list stops where the program is interrupted; that it is
not interrupted in the middle of one is assumed. What `get_math` makes of a
name is a parameter: it reads all of the program, the flags among it.
-/

namespace Radare

/-- `flag_t`, without the hash of its name and the data nothing stores. -/
structure FlagT where
  name : List u8
  offset : ut64
  length : ut64
  format : ℕ
  space : ℤ
  cmd : Option (List u8)
deriving DecidableEq

/-- `FLAG_BSIZE`. -/
def flagBsize : ℕ := 40

/-- What `flag_set` reads of the program. -/
structure FlagConfig where
  interrupted : Bool
  /-- `flag_from_i`. -/
  flagFrom : ut64
  /-- `flag_space_idx`. -/
  space : ℤ
  blockSize : ut64
  /-- `last_print_format`. -/
  format : ℕ
deriving DecidableEq

/-! ## Names -/

/-- `is_printable`. -/
def isPrintable (c : u8) : Bool := 32 ≤ c ∧ c ≤ 126

/-- `*/+- \n\t@=><[];!%` and the backquote. -/
def flagBadChars : List u8 := [42, 47, 43, 45, 32, 10, 9, 64, 96, 61, 62, 60, 91, 93, 59, 33, 37]

/-- `flag_is_valid_char`. -/
def flagIsValidChar (ch : u8) : Bool :=
  if ch ∈ flagBadChars then false
  else if 48 ≤ ch ∧ ch ≤ 57 then true
  else isPrintable ch

/-- `flag_is_valid_name`. -/
def flagIsValidName (name : List u8) : Bool := name ≠ [] ∧ name.all flagIsValidChar

/-- A name as the buffer holds it. -/
def storedName (name : List u8) : List u8 := name.take (flagBsize - 1)

/-! ## The table -/

/-- A name that begins as a number does. -/
def startsWithDigit (name : List u8) : Bool := name.head?.any fun c => 48 ≤ c ∧ c ≤ 57

/-- `flag_get`. -/
def flagGet (flags : List FlagT) (name : List u8) : Option FlagT :=
  if startsWithDigit name then none
  else flags.reverse.find? fun f => f.name = name

/-- The walk of `flag_set` without `dup`: the first flag of the name is
moved. -/
def moveFlag (c : FlagConfig) (name : List u8) (addr : ut64) : List FlagT → Option (List FlagT)
  | [] => none
  | f :: flags =>
    if f.name = name then
      some ({ f with offset := addr + c.flagFrom, length := c.blockSize, format := c.format } ::
        flags)
    else (moveFlag c name addr flags).map (f :: ·)

/-- The flag `flag_set` appends. -/
def newFlag (c : FlagConfig) (name : List u8) (addr : ut64) : FlagT where
  name := storedName name
  offset := addr + c.flagFrom
  length := c.blockSize
  format := c.format
  space := c.space
  cmd := none

/-- `flag_set`: the value returned. The name `*` lists the flags. -/
def flagSet (c : FlagConfig) (flags : List FlagT) (name : List u8) (addr : ut64) (dup : Bool) :
    List FlagT × ℕ :=
  if !dup ∧ (name = [42] ∨ !flagIsValidName name ∨ name.tail.any (!isPrintable ·)) then (flags, 2)
  else
    let found := if c.interrupted then none
      else if dup then
        if flags.any fun f => f.name = name ∧ f.offset = addr then some flags else none
      else moveFlag c name addr flags
    match found with
    | some flags => (flags, 1)
    | none => (flags ++ [newFlag c name addr], 0)

/-- The walk of `flag_clear_by_addr`, which begins anew behind every flag
removed. -/
def clearLoop (seek : ut64) : ℕ → List FlagT → List FlagT
  | 0, flags => flags
  | n + 1, flags =>
    if flags.any (·.offset = seek) then clearLoop seek n (flags.eraseP (·.offset = seek))
    else flags

/-- `flag_clear_by_addr`. -/
def flagClearByAddr (interrupted : Bool) (seek : ut64) (flags : List FlagT) : List FlagT :=
  if interrupted then flags else clearLoop seek flags.length flags

/-- `flag_remove`. -/
def flagRemove (getMath : List FlagT → List u8 → ut64) (interrupted : Bool) (name : List u8)
    (flags : List FlagT) : List FlagT :=
  if name = [] then flags
  else if 42 ∈ name then
    let str := name.takeWhile (· ≠ 42)
    let flags := if interrupted then flags else flags.filter fun f => ¬str <+: f.name
    -- the walk with a mask does not say that it found one
    flagClearByAddr interrupted (getMath flags str) flags
  else
    let found : Bool := !interrupted ∧ flags.any (·.name = name)
    let flags := if interrupted then flags else flags.filter (·.name ≠ name)
    if found then flags else flagClearByAddr interrupted (getMath flags name) flags

/-! ## Removal by address -/

variable {flags : List FlagT} {seek : ut64} {interrupted : Bool} {n : ℕ}

theorem clearLoop_eq_eraseLoop :
    clearLoop seek n flags = Common.eraseLoop (·.offset = seek) n flags := by
  induction n generalizing flags with
  | zero => rfl
  | succ n ih =>
    unfold clearLoop Common.eraseLoop
    rw [ih]

/-- With turns enough for every flag, all at the address go. -/
theorem clearLoop_eq (h : flags.length ≤ n) :
    clearLoop seek n flags = flags.filter (·.offset ≠ seek) := by
  rw [clearLoop_eq_eraseLoop, Common.eraseLoop_eq h]
  exact List.filter_congr fun f _ => decide_not.symm

/-- **What `flag_clear_by_addr` removes.** -/
theorem flagClearByAddr_eq :
    flagClearByAddr interrupted seek flags =
      if interrupted then flags else flags.filter (·.offset ≠ seek) := by
  unfold flagClearByAddr
  rw [clearLoop_eq (Nat.le_refl _)]

end Radare
