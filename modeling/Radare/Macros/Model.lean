import Radare.Common.Keyed
import Radare.Model.Words
/-!
# Macros

The table of `macros.c`, the oldest macro first. `radare_macro_add` reads a
definition, `name args, body)`: it looks for a macro called as all that is
before the comma, and then calls the macro what is before the first blank.
`radare_macro_rm` is given a name, and looks for the one it finds in the
memory it has made room for it in.
-/

namespace Radare

open Common

/-- `struct macro_t`, as `radare_macro_add` makes it. -/
structure MacroT where
  name : List u8
  /-- The memory at `code`. -/
  code : List u8
  nargs : ℕ
  plain : 32 ∉ name
deriving DecidableEq

/-- The body of a definition, behind a character: a line for each comma,
and its end at a `)` that is the first character of a line. -/
def macroBody : u8 → List u8 → List u8
  | _, [] => []
  | q, c :: rest =>
    if c = 44 then 10 :: macroBody 10 rest
    else if c = 41 ∧ q = 10 then []
    else c :: macroBody c rest

/-- The macro of a definition, from what is before its comma, and its
code. -/
def macroNew (header code : List u8) : MacroT where
  name := header.takeWhile (· ≠ 32)
  code := code
  nargs := if 32 ∈ header then (set0word (header.dropWhile (· ≠ 32)).tail).1 else 0
  plain := fun h => by simpa using List.mem_takeWhile_imp h

/-- `radare_macro_add`, and the value it returns. The lines of a body that
is not in the definition are typed. -/
def radareMacroAdd (before : u8) (typed : List u8) (macros : List MacroT) (oname : List u8) :
    List MacroT × ℤ :=
  -- the macros are listed
  if oname = [] then (macros, 0)
  else
    let header := oname.takeWhile (· ≠ 44)
    if header.getLast?.getD before = 41 then (macros, -1)
    else
      let code := if 44 ∈ oname then macroBody 0 (oname.dropWhile (· ≠ 44)).tail else typed
      let m := macroNew header code
      if hasKey MacroT.name header macros then (replaceLast MacroT.name header m macros, 0)
      else (macros ++ [m], 0)

/-- `radare_macro_rm`, and the value it returns. The memory is as long as
the name it is given, which is not copied there. -/
def radareMacroRm (memory : List u8) (macros : List MacroT) (_name : List u8) :
    List MacroT × ℤ :=
  let name := memory.takeWhile (· ≠ 41)
  if hasKey MacroT.name name macros then (eraseLast MacroT.name name macros, 1) else (macros, 0)

end Radare
