import Radare.Common.Prog
import Radare.Rio.SectionLines
/-!
# Commands

`radare_cmd_raw` reads a text, runs what is between its backquotes, opens
the file behind its `>`, cuts it at `&&` and `~`, seeks to the address
behind its `@`, and leaves the rest to a command, which can come back to
`radare_cmd_raw`. So it is a program that calls itself (`rawBody`), and
`cmd_level` says how deep it is (`radareCmdRaw`). What it keeps of the seek
is in `tmpoff`, of which there is one for all levels.

This file is the code. The commands are a parameter, and so is what is
asked of the console, of the files and of the configuration; how the
descriptors of the files are passed on is left out.
-/

namespace Radare

namespace Cmd

open Common

/-- What commands work on: the program with its file, and the rest. -/
structure Session (W : Type) where
  state : State
  world : W

/-- The session, with what only `radare_cmd_raw` knows of. -/
structure Shell (W : Type) where
  cmdLevel : ℤ := 0
  tmpoff : ut64 := -1
  session : Session W

/-- A program that calls `radare_cmd_raw`. -/
abbrev Command (W α : Type) := Prog (Session W) (List u8) ℤ α

/-- A part of `radare_cmd_raw`. -/
abbrev Raw (W α : Type) := Prog (Shell W) (List u8) ℤ α

/-- The commands, and what they are run with. -/
structure CmdEnv (W : Type) where
  /-- What `malloc` finds. -/
  fresh : ℕ → u8
  /-- What is behind the end of a text, up to the next NUL. -/
  behind : List u8
  getMath : List u8 → Session W → ut64 × Session W
  /-- `config.skip`. -/
  skip : Session W → Bool
  /-- `radare_system`, between `env_prepare` and `env_destroy`. -/
  radareSystem : List u8 → Session W → ℤ × Session W
  /-- `cfg.verbose`, turned. -/
  toggleVerbose : Session W → Session W
  /-- `make_tmp_file`: the name of the file, and that it is open. -/
  makeTmpFile : Session W → (List u8 × Bool) × Session W
  /-- The console as it writes to a file, and as it was. -/
  divert : List u8 → Session W → Session W
  undivert : Session W → Session W → Session W
  /-- The first bytes of a file, if it can be opened. -/
  openRead : List u8 → ℕ → Session W → Option (List u8) × Session W
  /-- A file opened to append to it or to write it anew. -/
  openWrite : Bool → List u8 → Session W → Bool × Session W
  /-- `config_set("file.write", "false")`. -/
  writeOff : Session W → Session W
  /-- `cons_grep`. -/
  consGrep : Option (List u8) → Session W → Session W
  /-- `cons_flush`, which ends the redirections of the outermost call. -/
  consFlush : Bool → Session W → Session W
  /-- `cat` of a file, into a program. -/
  pipeInto : List u8 → List u8 → Session W → ℤ × Session W
  /-- What `.?` prints. -/
  usage : Session W → Session W
  radareNullcmd : Command W Unit
  commandsParse : List u8 → Command W ℤ
  cmdMacro : List u8 → Command W Unit
  /-- `radare_macro_call`, and the value it breaks with in `last_cmp`. -/
  radareMacroCall : List u8 → Command W Unit
  radareCmdForeach : List u8 → List u8 → Command W Unit
  /-- The lines of a file, which are commands. -/
  script : List u8 → Command W Unit
  /-- The lines that a command has printed to a file. -/
  interpret : List u8 → Command W Unit

variable {W α : Type} (env : CmdEnv W)

/-! ## Programs -/

/-- What is done to the session without a call. -/
def act (f : Session W → α × Session W) : Command W α := .get fun s => .set (f s).2 (.ret (f s).1)

def update (f : Session W → Session W) : Command W Unit := act fun s => ((), f s)

/-- A command, in `radare_cmd_raw`. -/
def inShell (p : Command W α) : Raw W α :=
  p.lift Shell.session fun session s => { s with session := session }

def Shell.seek (s : Shell W) : ut64 := s.session.state.config.seek

/-- `tmpoff = config.seek`. -/
def keepSeek : Raw W Unit := .get fun s => .set { s with tmpoff := s.seek } (.ret ())

/-! ## Texts -/

/-- `strchr`: what is before the first of a character, and behind it. -/
def strchr (c : u8) (text : List u8) : Option (List u8 × List u8) :=
  if c ∈ text then some (text.takeWhile (· ≠ c), (text.dropWhile (· ≠ c)).tail) else none

/-- `strstr`, of `&&`. -/
def strstrAnd : List u8 → Option (List u8 × List u8)
  | 38 :: 38 :: rest => some ([], rest)
  | c :: rest => (strstrAnd rest).map fun (before, behind) => (c :: before, behind)
  | [] => none

/-- `iswhitespace`. -/
def iswhitespace (c : u8) : Bool := c = 32 ∨ c = 9

def oneLine (text : List u8) : List u8 := text.map fun c => if c = 10 then 32 else c

/-- What is one character further on, which can be behind the end. -/
def skipOne (text : List u8) : List u8 := if text = [] then env.behind else text.tail

/-! ## The block size -/

/-- What an `int` has of a number. -/
def toInt (n : ut64) : ℤ := Int.bmod n.toNat (2 ^ 32)

/-- The size that `radare_set_block_size_i` comes to. A size and 32 more that do
not go into an `int` are negative, which is not allocated: the default takes the
place of the size. -/
def allocatedSize (sz : ℤ) : ℤ := if max 1 sz + 32 < 2 ^ 31 then max 1 sz else 512

/-- `radare_set_block_size_i`. -/
def radareSetBlockSizeI (s : State) (sz : ℤ) : State :=
  (radareRead { s with config.block := malloc env.fresh (allocatedSize sz).toNat } false).1

/-- `config.block_size`, set without a new block. -/
def assignBlockSize (s : State) (sz : ℤ) : State :=
  { s with config.block := (s.config.block ++ malloc env.fresh sz.toNat).take sz.toNat }

/-- `radare_sync`. -/
def radareSync (s : State) : State :=
  if s.config.debug ∨ s.config.unksize ∨ s.config.limit = -1 then s
  else
    let s := if s.config.seek > 0xfffffffffffffff then { s with config.seek := 0 } else s
    if s.config.size = -1 then s
    else
      let s := if UInt64.ofNat s.config.block.length > s.config.size then
          radareSetBlockSizeI env s (toInt s.config.size)
        else s
      let s := if s.config.seek > s.config.size then
          { s with config.seek := s.config.size, config.limit := s.config.size }
        else s
      if s.config.block = [] then assignBlockSize env s (toInt (min s.config.size 512)) else s

/-! ## `radare_cmd` -/

/-- The loop of `radare_cmd`, which gives the last value returned. -/
def cmdLoop (input : List u8) : ℕ → ℤ → Command W ℤ
  | 0, ret => pure ret
  | repeats + 1, ret => do
    let s ← Prog.read
    if s.state.config.interrupted then pure ret
    else
      let ret ← Prog.invoke input
      cmdLoop input repeats ret

/-- What `radare_cmd` runs, and what is behind the `&&`. -/
def splitNext (input : List u8) : List u8 × Option (List u8) :=
  if input.take 3 = [91, 48, 120] then
    match strchr 62 input with
    | some (_, behind) => (skipOne env behind, none)
    | none => (input, none)
  else if input.head? = some 34 then (input, none)
  else
    match strstrAnd input with
    | some (before, behind) => (before, some behind)
    | none => (input, none)

/-- How often `radare_cmd` runs a text, and what it runs of it. -/
def cmdRepeat (input : List u8) : Command W (Option (ℤ × List u8)) :=
  if input.head? = some 123 then
    match strchr 125 input with
    | some (before, behind) => do
      let times ← act (env.getMath before.tail)
      pure (some (toInt times, behind))
    -- `Unmatching '}' bracket.`
    | none => pure none
  else if input.head?.any fun c => 48 ≤ c ∧ c ≤ 57 then pure (some (atoi input, input))
  else pure (some (1, input))

/-- `radare_cmd`, of a text with so many `&&` at most. -/
def radareCmdN : ℕ → List u8 → Command W ℤ
  | 0, _ => pure 0
  | n + 1, input => do
    if input.head? = some 48 then pure 0
    else if input = [] then do
      env.radareNullcmd
      pure 0
    else
      let (input, next) := splitNext env input
      let s ← Prog.read
      if env.skip s then pure 0
      else
        match ← cmdRepeat env input with
        | none => pure 1
        | some (times, input) =>
          let input := input.dropWhile fun c => 48 ≤ c ∧ c ≤ 57
          if input = [] then pure 0
          else
            -- `radare_controlc`
            update fun s => { s with state.config.interrupted := false }
            let ret ← cmdLoop input (max 1 times).toNat 0
            match next with
            | some next => radareCmdN n (next.dropWhile (· = 32))
            | none => pure ret

/-- `radare_cmd`. -/
def radareCmd (input : List u8) : Command W ℤ := radareCmdN env (input.length + 1) input

/-! ## Reading a text -/

/-- A call, of a text that is not empty. -/
def radareCmdRawNonempty (cmd : List u8) : Raw W ℤ := if cmd = [] then pure 0 else Prog.invoke cmd

/-- `pipe_stdout_to_tmp_file`: a command run with its output in a file of
the name returned. -/
def pipeStdoutToTmpFile (cmd : List u8) : Raw W (List u8) := do
  let tmp ← inShell (act env.makeTmpFile)
  if tmp.2 then do
    let s ← inShell Prog.read
    inShell (update (env.divert tmp.1))
    let _ ← radareCmdRawNonempty cmd
    inShell (update (env.undivert s))
    pure tmp.1
  else pure tmp.1

/-- What a text comes to behind its backquotes. -/
inductive Piped where
  | text (input : List u8)
  /-- There is nothing to put between them. -/
  | nothing
  | missingFinal
  /-- The loop goes on. -/
  | unfinished

/-- The loop over the backquotes, for so many turns. -/
def inlinePipe : ℕ → List u8 → Raw W Piped
  | 0, _ => pure .unfinished
  | n + 1, input =>
    match strchr 96 input with
    | none => pure (.text input)
    | some (before, behind) =>
      match strchr 96 behind with
      | none => pure .missingFinal
      | some (cmd, rest) => do
        let tmp ← pipeStdoutToTmpFile env cmd
        match ← inShell (act (env.openRead tmp 1024)) with
        | none => pure .nothing
        | some filebuf =>
          if filebuf = [] then pure .nothing
          else inlinePipe n (oneLine (before ++ filebuf.takeWhile (· ≠ 0) ++ rest))

/-- The file behind a `>` opened, and the text before it, unless it cannot
be. -/
def redirect (input : List u8) : Raw W (Option (List u8)) :=
  if input = [] ∨ input.head? = some 62 ∨ input.head? = some 47 then pure (some input)
  else
    match strchr 62 input.tail with
    | none => pure (some input)
    | some (before, behind) => do
      let text := input.take 1 ++ before
      let file := behind.dropWhile iswhitespace
      -- `No target file`
      if file = [] then pure (some text)
      else if ← inShell (act (env.openWrite (behind.head? = some 62) file)) then pure (some text)
      else do
        inShell (update env.writeOff)
        keepSeek
        pure none

/-- A text to be run. -/
structure Line where
  quoted : Bool
  input : List u8
  /-- What is behind a `~` is with the console. -/
  grep : Bool
  /-- What is behind the `&&`. -/
  next : Option (List u8)

/-- The text before `&&`, and behind it. What is behind it in quotes is not
run. -/
def cutNext (quoted : Bool) (input : List u8) : List u8 × Option (List u8) :=
  match strstrAnd input with
  | some (before, behind) => (before, if quoted then none else some (behind.dropWhile (· = 32)))
  | none => (input, none)

/-- The text cut at `&&` and `~`, unless it defines a macro. -/
def cutLine (quoted : Bool) (input : List u8) : Raw W Line :=
  if input.head? = some 40 ∧ 44 ∈ input.tail then pure ⟨quoted, input, false, none⟩
  else
    let cut := cutNext quoted input
    match strchr 126 cut.1 with
    | some (before, behind) => do
      inShell (update (env.consGrep (some behind)))
      pure ⟨quoted, before, true, cut.2⟩
    | none => pure ⟨quoted, cut.1, false, cut.2⟩

/-- What the first half of `radare_cmd_raw` comes to. -/
inductive Parsed where
  /-- `goto __end`. -/
  | leave (ret : ℤ)
  /-- `return -1`. -/
  | missingFinal
  /-- `return 1`. -/
  | cannotOpen
  | unfinished
  | line (l : Line)

/-- Whether a text is quoted, and what it is without its quotes. -/
def unquote (input : List u8) : Bool × List u8 :=
  if input.head? = some 34 then
    let input := input.tail
    (true, if input.getLast? = some 34 then input.dropLast else input)
  else (false, input)

/-- The text behind a `:`, which turns `cfg.verbose`. -/
def colon (input : List u8) : Raw W (List u8) :=
  if input.head? = some 58 then do
    inShell (update env.toggleVerbose)
    pure input.tail
  else pure input

/-- The first half of `radare_cmd_raw`. -/
def parse (fuel : ℕ) (tmp : List u8) : Raw W Parsed := do
  -- `Multiline command not yet supported`
  if (tmp.dropWhile (· ≠ 10)).tail ≠ [] then pure (.leave 0)
  else
    let text := unquote (strclean tmp)
    if text.2.take 2 = [33, 33] then do
      let ret ← inShell (act (env.radareSystem (text.2.drop 2)))
      pure (.leave ret)
    else do
      let input ← colon env text.2
      if text.1 then do
        let l ← cutLine env true input
        pure (.line l)
      else
        match ← inlinePipe env fuel input with
        | .nothing => pure (.leave 0)
        | .missingFinal => pure .missingFinal
        | .unfinished => pure .unfinished
        | .text input =>
          match ← redirect env input with
          | none => pure .cannotOpen
          | some input =>
            let l ← cutLine env false input
            pure (.line l)

/-! ## Running it -/

/-- The text is for a process to interpret, or a file or a macro. -/
def Line.dot (l : Line) : Bool := l.input.head? = some 46

/-- What a text does. -/
inductive Kind where
  /-- It defines a macro. -/
  | defines
  /-- It goes into a program. -/
  | pipes
  | plain
  /-- It is run at every address of a list, or at one. -/
  | each (cmd each : List u8)
  | at_ (cmd ptr : List u8)

def Line.kind (l : Line) : Kind :=
  if l.input.head? = some 40 ∧ l.input.tail.head? ≠ some 41 then .defines
  else if !l.dot ∧ !l.quoted ∧ pipes l.input then .pipes
  else if l.quoted ∨ l.input.head?.any [101, 37, 95, 59].contains then .plain
  else
    match strchr 64 l.input with
    | none => .plain
    | some (cmd, 64 :: each) => .each cmd each
    | some (cmd, ptr) => .at_ cmd ptr

/-- The block size set, for a while. -/
def tempBlockSize (dot : Bool) (sz : ℤ) : Command W Unit :=
  if dot then update fun s => { s with state := assignBlockSize env s.state sz }
  else update fun s => { s with state := radareSync env (radareSetBlockSizeI env s.state sz) }

/-- The block size behind the `:`, set: what is before it, and the size
that was. -/
def tempSize (dot : Bool) (ptr : List u8) : Raw W (List u8 × Option ℕ) :=
  match strchr 58 (skipOne env ptr) with
  | none => pure (ptr, none)
  | some (before, size) => do
    let s ← inShell Prog.read
    let sz ← inShell (act (env.getMath size))
    inShell (tempBlockSize env dot (toInt sz))
    pure (ptr.take (before.length + 1), some s.state.config.block.length)

/-- The same behind `@@`, where a text to be interpreted has no size. -/
def eachSize (dot : Bool) (ptr : List u8) : Raw W (List u8 × Option ℕ) :=
  if dot then pure (ptr, none) else tempSize env dot ptr

/-- `@@`. -/
def tempEach (dot : Bool) (cmd each : List u8) : Raw W (Option ℕ) := do
  let size ← eachSize env dot (64 :: each)
  keepSeek
  inShell (env.radareCmdForeach cmd size.1.tail)
  let s ← Prog.read
  inShell (update fun t => { t with state := (radareSeek t.state s.tmpoff .set).1 })
  pure size.2

/-- The address behind an `@`, and the seek there. -/
def seekTo (ptr : List u8) : Raw W ut64 := do
  keepSeek
  let ptr := ptr.dropWhile (· = 32)
  let s ← inShell Prog.read
  let n ← inShell (act (env.getMath ptr))
  let addr := if ptr.head? = some 43 ∨ ptr.head? = some 45 then s.state.config.seek + n else n
  inShell (update fun s =>
    { s with state := (radareRead { s.state with config.seek := addr } false).1 })
  pure addr

/-- What is interpreted. -/
def dotCommand (input : List u8) : Raw W ℤ :=
  match input.tail with
  | 40 :: rest => do
    inShell (env.radareMacroCall rest)
    pure 0
  | 63 :: _ => do
    inShell (update env.usage)
    pure 0
  | 32 :: file => do
    inShell (env.script file)
    pure 0
  | rest => do
    let file ← pipeStdoutToTmpFile env rest
    inShell (env.interpret file)
    pure 0

/-- The command of a text. -/
def command (input : List u8) : Raw W ℤ :=
  if input.head? = some 46 then dotCommand env input
  else inShell (env.commandsParse (oneLine input))

/-- The second half of `radare_cmd_raw`: what is to be returned, and the
block size to be set again. -/
def runLine (l : Line) : Raw W (ℤ × Option ℕ) :=
  match l.kind with
  | .defines => do
    inShell (env.cmdMacro l.input.tail)
    pure (0, none)
  | .pipes => do
    let tmp ← pipeStdoutToTmpFile env (l.input.takeWhile (· ≠ 124))
    let ret ← inShell (act (env.pipeInto tmp (l.input.dropWhile (· ≠ 124)).tail))
    pure (ret, none)
  | .plain => do
    let ret ← command env l.input
    pure (ret, none)
  | .each cmd each => do
    let tmpbsz ← tempEach env l.dot cmd each
    pure (0, tmpbsz)
  | .at_ cmd ptr => do
    let size ← tempSize env l.dot ptr
    let _ ← seekTo env size.1
    let ret ← command env cmd
    pure (ret, size.2)

/-- What is put back at `__end`. -/
def restoreSeek : Raw W Unit := .get fun s =>
  if s.tmpoff = -1 then .ret ()
  else .set { s with tmpoff := -1, session.state.config.seek := s.tmpoff } (.ret ())

def restoreBlockSize : Option ℕ → Command W Unit
  | some sz => update fun s => { s with state := radareSetBlockSizeI env s.state sz }
  | none => pure ()

def grepEnd (grep : Bool) : Command W Unit :=
  if grep then update (env.consGrep none) else pure ()

/-- The command behind the `&&`. -/
def radareCmdNext : Option (List u8) → Command W ℤ
  | some next => radareCmd env next
  | none => pure 0

/-- The rest behind `__end`. -/
def afterEnd (grep : Bool) (next : Option (List u8)) (tmpbsz : Option ℕ) : Raw W Unit := do
  inShell (restoreBlockSize env tmpbsz)
  let s ← Prog.read
  inShell (update (env.consFlush (s.cmdLevel = 1)))
  inShell (grepEnd env grep)
  let _ ← inShell (radareCmdNext env next)

/-- How `radare_cmd_raw` returns. -/
inductive Exit where
  /-- At its end. -/
  | done (ret : ℤ)
  /-- `Missing final`. -/
  | missingFinal
  /-- `Cannot open '%s' for writing`. -/
  | cannotOpen
  | unfinished
deriving DecidableEq

/-- What the first half comes to, returned or run. -/
def runParsed : Parsed → Raw W Exit
  | .missingFinal => pure .missingFinal
  | .cannotOpen => pure .cannotOpen
  | .unfinished => pure .unfinished
  | .leave ret => do
    restoreSeek
    afterEnd env false none none
    pure (.done ret)
  | .line l => do
    let ran ← runLine env l
    restoreSeek
    afterEnd env l.grep l.next ran.2
    pure (.done ran.1)

/-- `radare_cmd_raw`, between the two changes of `cmd_level`. -/
def rawBody (fuel : ℕ) (tmp : List u8) : Raw W Exit := do
  let parsed ← parse env fuel tmp
  runParsed env parsed

/-- `cmd_level++`. -/
def Shell.entered (s : Shell W) : Shell W := { s with cmdLevel := s.cmdLevel + 1 }

/-- The value returned, and `cmd_level--` where the code comes to it. -/
def Exit.leave : Exit → Shell W → Option (ℤ × Shell W)
  | .done ret, s => some (ret, { s with cmdLevel := s.cmdLevel - 1 })
  | .missingFinal, s => some (-1, s)
  | .cannotOpen, s => some (1, s)
  | .unfinished, _ => none

/-- `radare_cmd_raw`, with so many calls in one another and so many turns
of the loop over the backquotes. -/
def radareCmdRaw : ℕ → List u8 → Shell W → Option (ℤ × Shell W)
  | 0, _, _ => none
  | n + 1, tmp, s =>
    if tmp = [] then some (0, s)
    else
      ((rawBody env n tmp).run (radareCmdRaw n) s.entered).bind fun (exit, s) => exit.leave s

end Cmd

end Radare
