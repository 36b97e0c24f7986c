import Radare.Cons.Model
import Radare.Model.Text
import Radare.Rio.Decode
/-!
# The line editor

`dl_readline` keeps the line in a buffer of its own, with the length and the
index of the cursor beside it, and changes each of the three for itself with
every key. The keys are what a turn of its loop reads: a byte, or an escape
with two more.

The history has been loaded before, and nothing is read from a file
(`dl_disable`). What is shown on the way is left out. Where bytes are stored
behind the buffer, or copied over themselves, there is no result.
-/

namespace Radare

/-- `DL_BUFSIZE`. -/
def dlBufsize : ℕ := 1024

/-- What the editor finds. -/
structure DlEnv where
  /-- `argv`, behind the first. -/
  words : List CText
  /-- `dl_history`, up to the first entry that is not set. -/
  history : List CText
  /-- `dl_histsize`. -/
  histsize : ℕ
  history_le : history.length ≤ histsize
  /-- `dl_callback` is set. -/
  callback : Bool

/-- The variables of the editor, and what it has returned. -/
structure Dl where
  buffer : List u8
  len : ℕ
  idx : ℕ
  clipboard : Option (List u8)
  histidx : ℕ
  opt : ℕ
  ret : Option (Option (List u8))
deriving DecidableEq

/-- The cases of the loop. -/
inductive DlCase where
  /-- Nothing can be read. -/
  | eof
  | ignore
  | home
  | end_
  | cancel
  | eofIfEmpty
  | give
  | left
  | right
  | cut
  | rubout
  | paste
  | up
  | down
  | supr
  | backspace
  | tab
  | enter
  | put (c : u8)
deriving DecidableEq

/-- The switch over a byte. -/
def dlSwitch (c : u8) : DlCase :=
  match c.toNat with
  -- a `char` that is -1
  | 255 => .eof
  -- `^@`, `^K`, `^R`, and an escape that nothing follows
  | 0 | 11 | 18 | 27 => .ignore
  | 1 => .home
  | 5 => .end_
  | 3 => .cancel
  | 4 => .eofIfEmpty
  | 10 => .give
  | 19 => .left
  | 12 => .right
  | 21 => .cut
  | 23 => .rubout
  | 25 => .paste
  | 16 => .up
  | 14 => .down
  | 8 | 127 => .backspace
  | 9 => .tab
  | 13 => .enter
  | _ => .put c

/-- The switch over the bytes behind an escape. -/
def dlEscSwitch (c d : u8) : DlCase :=
  if c = 0x5b then
    match d.toNat with
    | 0x33 => .supr
    | 0x41 => .up
    | 0x42 => .down
    | 0x43 => .right
    | 0x44 => .left
    | _ => .ignore
  else .ignore

/-- What one turn reads. -/
inductive DlKey where
  | eof
  | byte (c : u8)
  | esc (c d : u8)
deriving DecidableEq

def DlKey.case : DlKey → DlCase
  | .eof => .eof
  | .byte c => dlSwitch c
  | .esc c d => dlEscSwitch c d

/-! ## Strings in a buffer -/

/-- `strncpy`, which fills up with zeros and puts none behind. -/
def strncpy (mem src : List u8) (n : ℕ) : List u8 :=
  (src ++ List.replicate (n - src.length) 0).take n ++ mem.drop n

/-- `memcpy` inside one memory. What it does is not defined where the two overlap. -/
def memcpyWithin (mem : List u8) (dst src n : ℕ) : Option (List u8) :=
  if dst + n ≤ src ∨ src + n ≤ dst then memcpyAt mem dst (mem.drop src) n else none

/-- Everything from an index on one place up, so many bytes of it, the last
one first. -/
def shiftLoop (idx : ℕ) : ℕ → List u8 → Option (List u8)
  | 0, mem => some mem
  | n + 1, mem =>
    (store mem (idx + n + 1) (mem.getD (idx + n) 0)).bind (shiftLoop idx n)

/-- Back from an index over some bytes, but no further than the first. -/
def backWhile (p : u8 → Bool) (mem : List u8) : ℕ → ℕ
  | 0 => 0
  | i + 1 => if p (mem.getD (i + 1) 0) then backWhile p mem i else i + 1

/-! ## The cases -/

/-- The buffer with another line in it, and the cursor at its end. -/
def Dl.fill (s : Dl) (buffer : List u8) : Dl :=
  { s with buffer := buffer, len := (cstr buffer).length, idx := (cstr buffer).length }

/-- `dl_hist_up`. -/
def dlHistUp (env : DlEnv) (s : Dl) : Option Dl :=
  if 0 < s.histidx then
    (env.history[s.histidx - 1]?).map fun line =>
      { s.fill (strncpy s.buffer line.val (dlBufsize - 1)) with histidx := s.histidx - 1 }
  else some s

/-- `dl_hist_down`. -/
def dlHistDown (env : DlEnv) (s : Dl) : Dl :=
  let s := { s with idx := 0 }
  if s.histidx < env.histsize then
    match env.history[s.histidx]? with
    | none => { s with buffer := s.buffer.set 0 0, len := 0 }
    | some line =>
      { s.fill (strncpy s.buffer line.val (dlBufsize - 1)) with histidx := s.histidx + 1 }
  else s

/-- `^W`. -/
def dlRubout (s : Dl) : Option Dl :=
  if 0 < s.idx then
    let i := backWhile (fun c => c = 32) s.buffer (s.idx - 1)
    let i := backWhile (fun c => c ≠ 32) s.buffer i
    let i := backWhile (fun c => c = 32) s.buffer i
    let i := if 1 < i ∧ s.buffer.getD (i + 1) 0 = 32 then i + 2 else i
    (strcpyWithin s.buffer i s.idx).map fun buffer =>
      { s with buffer := buffer, len := (cstr buffer).length, idx := i }
  else some s

/-- `^Y`. -/
def dlPaste (s : Dl) : Option Dl :=
  match s.clipboard with
  | none => some s
  | some clip =>
    if s.len + clip.length < dlBufsize then
      (strcpyAt s.buffer (cstr s.buffer).length clip).map fun buffer =>
        { s with buffer := buffer, len := s.len + clip.length, idx := s.len + clip.length }
    else some s

/-- Supr. -/
def dlSupr (s : Dl) : Option Dl :=
  if s.idx < s.len then
    (strcpyWithin s.buffer 0 1).map fun buffer => { s with buffer := buffer }
  else some s

/-- Backspace. Where the length is 0, it and the index are for a moment
-1. -/
def dlBackspace (s : Dl) : Option Dl :=
  if s.idx < s.len then
    if 0 < s.idx then
      let idx := s.idx - 1
      (memcpyWithin s.buffer idx (idx + 1) (cstr (s.buffer.drop idx)).length).map fun buffer =>
        { s with buffer := buffer, idx := idx }
    else some s
  else
    let len := s.len - 1
    (store s.buffer len 0).map fun buffer => { s with buffer := buffer, len := len, idx := len }

/-- Tab. -/
def dlComplete (env : DlEnv) (s : Dl) : Option Dl :=
  if env.callback then some s
  else
    let line := cstr s.buffer
    let opt := if 0 < s.idx then
        env.words.countP fun w => w.val.take s.idx = line.take s.idx
      else s.opt
    let s := { s with opt := opt }
    if 0 < s.len ∧ opt = 1 then
      match env.words.find? fun w => line.take s.len = w.val.take s.len with
      | none => some s
      | some w => (strcpyAt s.buffer 0 w.val).map s.fill
    else some s

/-- Any other character. -/
def dlPut (s : Dl) (c : u8) : Option Dl :=
  if s.idx < s.len then do
    let len := s.len + 1
    let buffer ← shiftLoop s.idx (len - s.idx) s.buffer
    let buffer ← store buffer s.idx c
    some { s with buffer := buffer, len := len, idx := s.idx + 1 }
  else do
    let buffer ← store s.buffer s.len c
    let len := if s.len + 1 > 1000 then s.len else s.len + 1
    let buffer ← store buffer len 0
    some { s with buffer := buffer, len := len, idx := s.idx + 1 }

/-- The line returned at the label `_end`. -/
def dlEnd (line : List u8) : List u8 := if line = [33] then [] else line

/-- What a turn does with the key. -/
def dlCase (env : DlEnv) (s : Dl) : DlCase → Option Dl
  | .eof => some { s with ret := some none }
  | .ignore => some s
  | .home => some { s with idx := 0 }
  | .end_ => some { s with idx := s.len }
  | .cancel =>
    some { s with buffer := s.buffer.set 0 0, len := 0, idx := 0, ret := some (some (dlEnd [])) }
  | .eofIfEmpty => some (if cstr s.buffer = [] then { s with ret := some none } else s)
  | .give => some { s with ret := some (some (cstr s.buffer)) }
  | .left => some { s with idx := s.idx - 1 }
  | .right => some { s with idx := if s.idx < s.len then s.idx + 1 else s.len }
  | .cut =>
    some { s with
      clipboard := some (cstr s.buffer), buffer := s.buffer.set 0 0, len := 0, idx := 0 }
  | .rubout => dlRubout s
  | .paste => dlPaste s
  | .up => dlHistUp env s
  | .down => some (dlHistDown env s)
  | .supr => dlSupr s
  | .backspace => dlBackspace s
  | .tab => dlComplete env s
  | .enter => some { s with ret := some (some (dlEnd (cstr s.buffer))) }
  | .put c => dlPut s c

/-- One turn of the loop. Nothing is read any more where it has returned. -/
def dlTurn (env : DlEnv) (s : Dl) (key : DlKey) : Option Dl :=
  if s.ret.isSome then some s
  else (store s.buffer s.len 0).bind fun buffer => dlCase env { s with buffer := buffer } key.case

end Radare
