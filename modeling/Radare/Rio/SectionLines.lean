import Radare.Model.Words
import Radare.Model.Text
import Radare.Rio.Sections
/-!
# Section lines

The section command, and the lines in which `section_list` prints the table
for it. A line goes through `radare_cmd_raw` first, which moves the seek to
the address behind the `@` while the command runs. What it makes of pipes,
redirections, substitutions and chained commands is not followed here: such
a line (`Special`) is left to `shell`.

The numbers of a line are read by `get_math`. It is followed for one
hexadecimal number; what it makes of all other texts is left to the
program's `Numbers`.
-/

namespace Radare

open Common

/-- What numbers mean to the program. -/
structure Numbers where
  /-- `config_get_i`. -/
  configGetI : List u8 → ut64
  /-- `get_offset`, of texts other than a hexadecimal number. -/
  offset : State → List u8 → ut64
  /-- `get_math`, of texts with an operator. -/
  math : State → List u8 → ut64

/-- The first loop of `get_math`: blanks, and doubled `=`. -/
def squeeze : List u8 → List u8
  | 33 :: 61 :: rest => 33 :: squeeze rest
  | 61 :: 61 :: rest => 32 :: squeeze (61 :: rest)
  -- a blank goes, and the character behind it is passed over
  | 32 :: c :: rest => c :: squeeze rest
  | c :: rest => c :: squeeze rest
  | [] => []

/-- `=!+-<>%*/[\`. -/
def operators : List u8 := [61, 33, 43, 45, 60, 62, 37, 42, 47, 91, 92]

/-- `get_offset`. A hexadecimal number is asked for as a variable first, and
as one that has no flag by its name. -/
def getOffset (nums : Numbers) (s : State) (orig : List u8) : ut64 :=
  let arg := orig.dropWhile (· = 32)
  let word := arg.takeWhile (· ≠ 32)
  if word.take 2 = [48, 120] ∧ 91 ∉ arg then
    match hexValue (word.drop 2) with
    | some n =>
      let ret := nums.configGetI arg
      if ret.toNat % 2 ^ 32 ≠ 0 then ret else n
    | none => nums.offset s orig
  else nums.offset s orig

/-- `get_math`. -/
def getMath (nums : Numbers) (s : State) (text : List u8) : ut64 :=
  if text = [] then 0
  else
    let txt := squeeze text
    if txt.any (operators.contains ·) then nums.math s text else getOffset nums s txt

/-- `atoi`: the digits behind blanks and a sign, clamped to a `long` and
cut to an `int`. -/
def atoi (text : List u8) : ℤ :=
  let text := text.dropWhile fun c => c = 32 ∨ 9 ≤ c ∧ c ≤ 13
  let neg : Bool := text.head? = some 45
  let text := if neg ∨ text.head? = some 43 then text.tail else text
  let ds := (text.takeWhile fun c => 48 ≤ c ∧ c ≤ 57).map fun c => c.toNat - 48
  let n : ℤ := if neg then -value 10 ds else value 10 ds
  (max (-2 ^ 63) (min n (2 ^ 63 - 1))).bmod (2 ^ 32)

/-! ## `cmds.c` -/

/-- The default of `CMD_DECL(sections)` behind a blank: a section at the
seek, with what the words give of its size, its place on disk and its
comment. -/
def addSection (nums : Numbers) (behind : List u8) (s : State) (arg : List u8) : State :=
  let (i, mem) := set0word arg
  let word := fun n => get0word n (mem ++ [0])
  let comment := if i = 3 then some (word 2) else none
  let ondisk := if i = 2 ∨ i = 3 then getMath nums s (word 1) else 0
  let to_ := s.config.seek + if i = 1 ∨ i = 2 ∨ i = 3 then getMath nums s (word 0)
    else UInt64.ofNat s.config.block.length
  { s with sections :=
      sectionAdd behind s.sections s.config.seek to_ s.config.vaddr ondisk 7 comment }

/-- `CMD_DECL(sections)`, for the commands that edit the table. -/
def cmdSections (nums : Numbers) (behind : List u8) (s : State) (input : List u8) : State :=
  let set := sectionSet behind s.sections s.config.seek
  match input with
  | 32 :: arg =>
    if arg.head? = some 45 then { s with sections := sectionRm s.sections (atoi arg) }
    else addSection nums behind s arg
  | 100 :: arg => { s with sections := set (-1) (-1) (getMath nums s arg) (2 ^ 32 - 1) none }
  | 99 :: arg =>
    let comment := if arg.head? = some 32 then arg.tail else arg
    { s with sections := set (-1) (-1) (-1) (2 ^ 32 - 1) (some comment) }
  | 98 :: arg => { s with sections := set (-1) (getMath nums s arg) (-1) (2 ^ 32 - 1) none }
  | 116 :: arg => { s with sections := set (getMath nums s arg) (-1) (-1) (2 ^ 32 - 1) none }
  | 112 :: arg => { s with sections := set (-1) (-1) (-1) (atoi arg % 2 ^ 32).toNat none }
  | _ => s

/-! ## `radare.c` -/

/-- `iswhitechar`. -/
def iswhitechar (c : u8) : Bool := c = 32 ∨ c = 9 ∨ c = 10 ∨ c = 13

/-- `strclean`. -/
def strclean (str : List u8) : List u8 := (str.dropWhile iswhitechar).rdropWhile iswhitechar

/-- The first `|` of a line pipes it, unless a backslash is before it. -/
def pipes (line : List u8) : Bool :=
  let before := line.takeWhile (· ≠ 124)
  124 ∈ line ∧ before ≠ [] ∧ before.getLast? ≠ some 92

/-- A line with a pipe, a redirection, a substitution, or more than one
command. -/
def Special (line : List u8) : Prop :=
  10 ∈ line ∨ 62 ∈ line ∨ 96 ∈ line ∨ [38, 38] <:+: line ∨ pipes line

instance {line : List u8} : Decidable (Special line) := inferInstanceAs (Decidable (_ ∨ _))

/-- What `radare_cmd_raw` runs at an address: the seek is there, the block
is read, and the seek is put back. -/
def atSeek (s : State) (seek : ut64) (run : State → State) : State :=
  let s' := run (radareRead { s with config.seek := seek } false).1
  if s.config.seek ≠ -1 then { s' with config.seek := s.config.seek } else s'

/-- `radare_cmd_raw`, for a line of the section command. -/
def radareCmdRaw (nums : Numbers) (shell : List u8 → State → State) (behind : List u8)
    (line : List u8) (s : State) : State :=
  let input := strclean line
  if input.head? ≠ some 83 ∨ Special input then shell line s
  else
    -- behind a `~` is the grep
    let input := input.takeWhile (· ≠ 126)
    let cmd := input.takeWhile (· ≠ 64)
    match input.dropWhile (· ≠ 64) with
    | [] => cmdSections nums behind s cmd.tail
    | _ :: off =>
      -- `@@` runs it at every flag, and `:` sets the block size
      if off.head? = some 64 ∨ 58 ∈ off.tail then shell line s
      else
        let ptr := off.dropWhile (· = 32)
        let seek := if ptr.head? = some 43 ∨ ptr.head? = some 45 then
            s.config.seek + getMath nums s ptr
          else getMath nums s ptr
        atSeek s seek fun s => cmdSections nums behind s cmd.tail

/-- The commands of a text, one a line. -/
def runLines (nums : Numbers) (shell : List u8 → State → State) (behind : List u8)
    (text : List u8) (s : State) : State :=
  ((text.splitOn 10).filter (· ≠ [])).foldl (fun s line => radareCmdRaw nums shell behind line s) s

/-! ## `section_list` -/

/-- `0x%08llx`. -/
def hexWord (n : ut64) : List u8 := [48, 120] ++ hexText 8 n

/-- The line that makes a section: `S size vaddr comment @ from`. -/
def addLine (sec : SectionT) : List u8 :=
  [83, 32] ++ joined 32 [hexWord (sec.to_ - sec.from_), hexWord sec.vaddr, sec.comment] ++
    [32, 64, 32] ++ hexWord sec.from_

/-- The line that gives it its `paddr`: `Sd paddr @ from`. -/
def ondiskLine (sec : SectionT) : List u8 :=
  [83, 100, 32] ++ hexWord sec.paddr ++ [32, 64, 32] ++ hexWord sec.from_

/-- `section_list` with `rad` 1, the oldest section first. -/
def sectionList (sections : List SectionT) : List u8 :=
  sections.reverse.flatMap fun sec => addLine sec ++ 10 :: (ondiskLine sec ++ [10])

end Radare
