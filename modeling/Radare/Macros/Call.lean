import Radare.Common.Prog
import Radare.Macros.Model
import Radare.Model.Text
/-!
# Calls of macros

`radare_macro_call` runs the code of a macro in the memory that the table
has it in: it ends the line with a NUL, looks whether it is a label or a
jump, executes it, and puts the newline back. The commands are programs on
the rest of the world that may call macros in their turn, but do not add
or remove any.

A run keeps an account of its turns, each with what it found.
-/

namespace Radare

open Common

/-- `MACRO_LIMIT`. -/
def macroLimit : ℕ := 4096

/-- `MAX_LABELS`. -/
def maxLabels : ℕ := 20

/-- `struct macro_label_t`. An address is a macro and an offset in its code. -/
structure MacroLabel where
  name : List u8
  ptr : ℕ × ℕ

/-- A turn of the loop: where it is, what is there, the labels and
`config.last_cmp`, and whether there was a newline. -/
structure MacroTurn where
  ptr : ℕ × ℕ
  /-- The character in front. -/
  prev : u8
  /-- The code from there on. -/
  mem : List u8
  labels : List MacroLabel
  lastCmp : ℤ
  ended : Bool

/-- The rest of the program, on a world of its own and `macro_break`. -/
structure MacroEnv (W : Type) where
  lastCmp : W → ℤ
  macroCounter : W → UInt32
  radareCmd : List u8 → Prog (W × Bool) (List u8) ℤ Unit
  /-- What is in front of the code of a macro. -/
  front : ℕ → u8
  /-- What was in a label behind the 64th character of its name. -/
  stack : ℕ → List u8

/-- The state. -/
structure MacroWorld (W : Type) where
  macros : List MacroT
  macroLevel : ℕ
  macroBreak : Bool
  world : W
  turns : List MacroTurn

variable {W : Type}

/-- The label of a name. -/
def findLabel (labels : List MacroLabel) (name : List u8) : Option (ℕ × ℕ) :=
  (labels.find? (·.name = name)).map (·.ptr)

/-- `macro_label_process`, where the inner `none` is NULL. There is no
result if the labels are full. -/
def macroLabelProcess (env : MacroEnv W) (t : MacroTurn) :
    Option (Option (ℕ × ℕ) × List MacroLabel) :=
  let line := cstr t.mem
  let blanks := (line.takeWhile (· = 32)).length
  let ptr := (t.ptr.1, t.ptr.2 + blanks)
  let text := line.drop blanks
  let behind := (t.ptr.1, ptr.2 + text.length + 1)
  let char (i : ℕ) : u8 := text.getD i 0
  -- the last character, or the one in front of an empty text
  if text.getLast?.getD (if blanks > 0 then 32 else t.prev) = 58 then
    let label := (text.drop 3).dropWhile fun c => c = 32 ∨ c = 46
    if char 0 = 46 then some (findLabel t.labels text.tail, t.labels)
    else if char 0 = 63 ∧ char 1 = 33 ∧ char 2 ≠ 63 then
      if t.lastCmp ≠ 0 then some (findLabel t.labels label, t.labels) else some (some behind, t.labels)
    else if char 0 = 63 ∧ char 1 = 63 ∧ char 2 ≠ 63 then
      if t.lastCmp = 0 then some (findLabel t.labels label, t.labels) else some (some behind, t.labels)
    else if t.labels = [] ∨ (findLabel t.labels (cstr (t.mem.drop (blanks + 1)))).isSome then
      if t.labels.length < maxLabels then
        let name := text.take 64 ++ (if text.length < 64 then [] else env.stack t.labels.length)
        some (some behind, t.labels ++ [⟨name, behind⟩])
      else none
    else some (some behind, t.labels)
  else some (some ptr, t.labels)

/-- The text of `radare_cmd_args`: a line with the words of `args` for `$0`
to `$9`, and the counter for `$@`. -/
def macroArgs (args : List u8) (macroCounter : UInt32) : List u8 → List u8
  | [] => []
  | [c] => [c]
  | c :: d :: rest =>
    if c = 36 ∧ 48 ≤ d ∧ d ≤ 57 then
      get0word (d - 48).toNat args ++ macroArgs args macroCounter rest
    else if c = 36 ∧ d = 64 then intText macroCounter ++ macroArgs args macroCounter rest
    else c :: macroArgs args macroCounter (d :: rest)

/-- `radare_cmd_args`. -/
def radareCmdArgs (env : MacroEnv W) (line args : List u8) : Prog (W × Bool) (List u8) ℤ Unit := do
  let s ← Prog.read
  let cmd := (macroArgs args (env.macroCounter s.1) line).dropWhile fun c => c = 32 ∨ c = 9
  if cmd.head? = some 41 then pure () else env.radareCmd cmd

/-- The code of a macro. -/
def MacroWorld.code (s : MacroWorld W) (i : ℕ) : List u8 := ((s.macros[i]?).map (·.code)).getD []

/-- A character written into the code of a macro. -/
def MacroWorld.poke (s : MacroWorld W) (i : ℕ) (e : Option ℕ) (c : u8) : MacroWorld W :=
  match e with
  | none => s
  | some e => { s with macros := s.macros.modify i fun m => { m with code := m.code.set e c } }

/-- `strchr` of a newline. -/
def MacroWorld.newline (s : MacroWorld W) (ptr : ℕ × ℕ) : Option ℕ :=
  ((cstr ((s.code ptr.1).drop ptr.2)).idxOf? 10).map (ptr.2 + ·)

/-- What a turn finds. -/
def MacroWorld.turn (env : MacroEnv W) (s : MacroWorld W) (labels : List MacroLabel)
    (ptr : ℕ × ℕ) (ended : Bool) : MacroTurn where
  ptr := ptr
  prev := if ptr.2 = 0 then env.front ptr.1 else (s.code ptr.1).getD (ptr.2 - 1) 0
  mem := (s.code ptr.1).drop ptr.2
  labels := labels
  lastCmp := env.lastCmp s.world
  ended := ended

/-- How the loop ends. -/
inductive LoopEnd where
  | returned
  /-- There is no such label. -/
  | oops (labels : List MacroLabel)
  | broken

/-- The loop of `radare_macro_call`. It has no result if there are more turns
than `fuel`. -/
def macroLoop (env : MacroEnv W) (call : List u8 → MacroWorld W → Option (ℤ × MacroWorld W))
    (args : List u8) :
    ℕ → List MacroLabel → ℕ × ℕ → Option ℕ → MacroWorld W → Option (LoopEnd × MacroWorld W)
  | 0, _, _, _, _ => none
  | fuel + 1, labels, ptr, ended, s => do
    let s := s.poke ptr.1 ended 0
    let turn := s.turn env labels ptr ended.isSome
    let s := { s with turns := s.turns ++ [turn] }
    let (ptr2, labels) ← macroLabelProcess env turn
    match ptr2 with
    | none => some (.oops labels, s)
    | some ptr2 =>
      if ptr ≠ ptr2 ∧ ended.isSome then
        let s := s.poke ptr.1 ended 10
        if s.macroBreak then some (.broken, s)
        else macroLoop env call args fuel labels ptr2 (s.newline ptr2) s
      else
        let cmd := if cstr turn.mem = [] then pure () else radareCmdArgs env (cstr turn.mem) args
        let (_, s) ← (cmd.lift (fun s : MacroWorld W => (s.world, s.macroBreak))
          fun p s => { s with world := p.1, macroBreak := p.2 }).run call s
        match ended with
        | none => some (.returned, s)
        | some e =>
          let s := s.poke ptr.1 ended 10
          let ptr := (ptr.1, e + 1)
          if s.macroBreak then some (.broken, s)
          else macroLoop env call args fuel labels ptr (s.newline ptr) s

/-- The macros of a name, from one on. -/
def macroFind (env : MacroEnv W) (call : List u8 → MacroWorld W → Option (ℤ × MacroWorld W))
    (fuel : ℕ) (str args : List u8) (nargs : ℕ) :
    List ℕ → List MacroLabel → MacroWorld W → Option (ℤ × MacroWorld W)
  | [], _, s => some (0, s)
  | i :: rest, labels, s =>
    match s.macros[i]? with
    | none => none
    | some mac =>
      if mac.name = str then
        if mac.nargs ≠ 0 ∧ nargs ≠ mac.nargs then some (0, s)
        else do
          let ptr := (i, 0)
          let s := { s with macroBreak := false }
          let (stop, s) ← macroLoop env call args fuel labels ptr (s.newline ptr) s
          match stop with
          | .returned => some (1, s)
          | .broken => some (0, s)
          | .oops labels =>
            if s.macroBreak then some (0, s)
            else macroFind env call fuel str args nargs rest labels s
      else macroFind env call fuel str args nargs rest labels s

/-- `radare_macro_call`. It has no result if there are more turns or nested
calls than `fuel`. -/
def radareMacroCall (env : MacroEnv W) : ℕ → List u8 → MacroWorld W → Option (ℤ × MacroWorld W)
  | 0, _, _ => none
  | fuel + 1, name, s =>
    let text := name.takeWhile (· ≠ 41)
    let str := text.takeWhile (· ≠ 32)
    let (nargs, words) := if 32 ∈ text then set0word (text.drop (str.length + 1)) else (0, [])
    let s := { s with macroLevel := s.macroLevel + 1 }
    if s.macroLevel > macroLimit then some (0, { s with macroLevel := s.macroLevel - 1 })
    else
      (macroFind env (radareMacroCall env fuel) fuel str (words ++ [0]) nargs
        (List.range s.macros.length).reverse [] s).map fun (r, s) =>
          (r, { s with macroLevel := s.macroLevel - 1 })

end Radare
