import Radare.Cmd.PlainLine
import Radare.Data.Model
import Radare.Data.Reading
/-!
# Lines of the tables

`data_xrefs_list` and `data_list` print a table as commands, each with the
address it is for behind an `@` and a label behind that. `radare_cmd_raw`
runs such a line, and `CMD_DECL(code)` puts an entry into a table.

The commands that add an entry are followed here. All others, the console
and the files are left to the `CmdEnv` of the program; what is flushed is
printed, and changes nothing else.
-/

namespace Radare

open Common

/-- The tables of `data.c`. -/
structure Tables where
  data : List DataT
  xrefs : List XrefT

/-- What the lines are printed and run with. -/
structure DataEnv where
  base : Cmd.CmdEnv Tables
  nums : Numbers
  cursorMode : Bool
  cursor : ℤ
  ocursor : ℤ
  /-- `string_flag_offset`, of the flags, which no line of a table changes. -/
  label : ut64 → Label

/-- The program and its tables. -/
abbrev Program := Cmd.Session Tables

variable (env : DataEnv)

/-! ## `cmds.c` -/

/-- What `data_add` reads. -/
def DataEnv.config (s : State) : DataConfig where
  blockSize := s.config.block.length
  cursorMode := env.cursorMode
  cursor := env.cursor
  ocursor := env.ocursor
  seek := s.config.seek

/-- An item of a length, for which the block size is set and put back. -/
def addItem (len : ut64) (type : DataType) (arg : List u8) (s : Program) : Program :=
  let tmp := s.state.config.block.length
  let state := Cmd.radareSetBlockSizeI env.base s.state (Cmd.toInt len)
  let off := state.config.seek + if env.cursorMode then UInt64.ofInt env.cursor else 0
  let data := dataAddArg (env.config state) s.world.data off type (some arg)
  { state := Cmd.radareSetBlockSizeI env.base state tmp, world := { s.world with data := data } }

/-- The types of `Cm`, `Cc`, `Cd`, `Cs`, `Cf` and `Cu`. -/
def codeType : u8 → Option DataType
  | 109 => some .struct_
  | 99 => some .code
  | 100 => some .hex
  | 115 => some .str
  | 102 => some .foldC
  | 117 => some .foldO
  | _ => none

/-- `CMD_DECL(code)`, of the commands that add an entry. -/
def radareCode (s : Program) : List u8 → Option Program
  | 120 :: arg =>
    if arg = [] ∨ arg.head? = some 45 then none
    else
      let from_ := getMathText env.nums s.state arg
      let vaddr := s.state.config.vaddr
      let from_ := if from_ ≥ vaddr * 2 then from_ - vaddr else from_
      let xrefs := dataXrefsAdd s.world.xrefs from_ (s.state.config.seek + vaddr) 0
      some { s with world.xrefs := xrefs }
  | 88 :: arg =>
    if arg = [] ∨ arg.head? = some 45 then none
    else
      let vaddr := s.state.config.vaddr
      let from_ := getMathText env.nums s.state arg - vaddr
      let xrefs := dataXrefsAdd s.world.xrefs from_ (s.state.config.seek + vaddr) 1
      some { s with world.xrefs := xrefs }
  | 70 :: 32 :: arg =>
    -- `Oops. missing argument?`
    if arg = [] then some s else some (addItem env (getMathText env.nums s.state arg) .fun_ arg s)
  | c :: arg =>
    match codeType c with
    | none => none
    | some type =>
      let arg := arg.dropWhile (· = 32)
      if arg = [] ∨ arg.head? = some 42 then none
      -- the argument is kept without its first character
      else some (addItem env (getMathText env.nums s.state arg) type arg.tail s)
  | [] => none

/-- `commands_parse`. -/
def commandsParse (cmdline : List u8) : Cmd.Command Tables ℤ :=
  match cmdline.dropWhile fun c => c = 27 ∨ c = 32 with
  | 67 :: input => do
    let s ← Prog.read
    match radareCode env s input with
    | some s' => do
      Prog.write s'
      pure 0
    | none => env.base.commandsParse (67 :: input)
  | cmdline => env.base.commandsParse cmdline

/-- The program of the commands. -/
def DataEnv.cmdEnv : Cmd.CmdEnv Tables :=
  { env.base with
    getMath := fun text s => (getMathText env.nums s.state text, s)
    consFlush := fun _ s => s
    commandsParse := commandsParse env }

/-! ## `data.c` -/

/-- A reference: `C%c 0x%08llx @ 0x%08llx ; %s`. -/
def xrefLine (x : XrefT) : List u8 :=
  [67, if x.type ≠ 0 then 100 else 120, 32] ++ hexWord x.from_ ++ [32, 64, 32] ++
    hexWord x.addr ++ [32, 59, 32] ++ (env.label x.from_).text

/-- The letter of a type. -/
def DataType.letter : DataType → u8
  | .foldO => 117
  | .foldC => 102
  | .fun_ => 70
  | .hex => 100
  | .str => 115
  | .struct_ => 109
  | _ => 99

/-- An item: `%s %lld %s@ 0x%08llx ; %s`. -/
def itemLine (d : DataT) : List u8 :=
  [67, d.type.letter, 32] ++ longText (d.to_ - d.from_) ++ [32] ++
    (if d.type = .struct_ then d.arg else []) ++ [64, 32] ++ hexWord d.from_ ++ [32, 59, 32] ++
    (env.label d.from_).text

/-- A text of lines. -/
def dumpText (lines : List (List u8)) : List u8 := lines.flatMap fun line => line ++ [10]

/-- `data_xrefs_list`. -/
def dataXrefsList (xrefs : List XrefT) : List u8 := dumpText (xrefs.map (xrefLine env))

/-- `data_list`. -/
def dataList (data : List DataT) : List u8 := dumpText (data.map (itemLine env))

/-- The lines of a text run as commands. -/
def runDump (n : ℕ) (text : List u8) (s : Cmd.Shell Tables) : Option (Cmd.Shell Tables) :=
  ((text.splitOn 10).filter (· ≠ [])).foldlM
    (fun s line => (Cmd.radareCmdRaw env.cmdEnv n line s).map (·.2)) s

/-! ## A line at its address -/

variable {env} {lines : List (List u8)} {line cmd : List u8} {n : ℕ} {x : ut64} {l : Label}

theorem runDump_dumpText (h : ∀ line ∈ lines, 10 ∉ line ∧ line ≠ []) (s : Cmd.Shell Tables) :
    runDump env n (dumpText lines) s =
      lines.foldlM (fun s line => (Cmd.radareCmdRaw env.cmdEnv n line s).map (·.2)) s := by
  rw [runDump, dumpText, splitOn_lines h]

/-- A line of a table: a command, an address and a label. -/
def dumpLine (cmd : List u8) (x : ut64) (l : Label) : List u8 :=
  67 :: cmd ++ [64, 32] ++ hexWord x ++ [32, 59, 32] ++ l.text

/-- The characters of a label. -/
theorem Label.Plain.text (hl : l.Plain) {c : u8} (hc : c ∈ l.text) :
    c ∉ [10, 38, 58, 62, 64, 96, 124, 126] ∧ ¬iswhitechar c := by
  rcases Label.mem_text hc with hc | rfl | hdigit
  · obtain ⟨hflag, hbad, -⟩ := hl.name hc
    have hchars : ∀ c ∈ ([10, 38, 58, 62, 64, 96, 124, 126] : List u8),
        c ∈ flagBadChars ∨ c ∈ ([38, 58, 92, 124, 126] : List u8) := by decide +kernel
    refine ⟨fun hmem => (hchars c hmem).elim hflag hbad, fun hwhite => ?_⟩
    rcases of_decide_eq_true hwhite with rfl | rfl | rfl | rfl
    · exact hflag (by decide)
    · exact hflag (by decide)
    · exact hflag (by decide)
    · exact absurd (hl.name hc).2.2 (by decide)
  · decide
  · have hchars : ∀ c ∈ ([10, 38, 58, 62, 64, 96, 124, 126] : List u8),
        ¬(48 ≤ c ∧ c ≤ 57 ∨ 97 ≤ c ∧ c ≤ 122) := by decide +kernel
    refine ⟨fun hmem => hchars c hmem hdigit, fun hwhite => ?_⟩
    rcases of_decide_eq_true hwhite with rfl | rfl | rfl | rfl <;> exact absurd hdigit (by decide)

/-- Blanks behind a text are cleaned off it. -/
theorem strclean_blank {t : List u8} {a z : u8} (ha : ¬iswhitechar a) (hz : ¬iswhitechar z) (b : ℕ) :
    strclean (a :: t ++ [z] ++ List.replicate b 32) = a :: t ++ [z] := by
  have hfront : (a :: t ++ [z] ++ List.replicate b 32).dropWhile iswhitechar =
      a :: t ++ [z] ++ List.replicate b 32 := List.dropWhile_cons_of_neg ha
  unfold strclean
  rw [hfront]
  induction b with
  | zero => rw [List.replicate_zero, List.append_nil, List.rdropWhile_concat_neg _ _ _ hz]
  | succ b ih =>
    rw [List.replicate_succ', ← List.append_assoc, List.rdropWhile_concat_pos _ _ _ (by decide)]
    exact ih (List.dropWhile_cons_of_neg ha)

/-- What a line is once it is cleaned. -/
theorem strclean_dumpLine (hl : l.Plain) :
    strclean (dumpLine cmd x l) = 67 :: cmd ++ 64 :: 32 :: addressText x l := by
  unfold dumpLine addressText
  by_cases hnil : l.text = []
  · have h := strclean_blank (a := 67) (t := cmd ++ [64, 32] ++ hexWord x ++ [32]) (z := 59)
      (by decide) (by decide) 1
    rw [hnil, if_pos rfl]
    simpa using h
  · have hlast : ¬iswhitechar (l.text.getLast hnil) := (hl.text (List.getLast_mem hnil)).2
    have h := strclean_blank (a := 67)
      (t := cmd ++ [64, 32] ++ hexWord x ++ [32, 59, 32] ++ l.text.dropLast) (by decide) hlast 0
    have htext : l.text.dropLast ++ [l.text.getLast hnil] = l.text :=
      List.dropLast_append_getLast hnil
    rw [if_neg hnil]
    simpa [htext] using h

/-- Blanks, signs, digits and letters. -/
theorem plainChar_of_printed {c : u8} (hc : c = 32 ∨ c = 45 ∨ 48 ≤ c ∧ c ≤ 57 ∨ 97 ≤ c ∧ c ≤ 122) :
    Cmd.PlainChar c ∧ c ≠ 64 := by
  have hnot : ∀ c ∈ ([10, 38, 62, 96, 124, 126] : List u8),
      ¬(c = 32 ∨ c = 45 ∨ 48 ≤ c ∧ c ≤ 57 ∨ 97 ≤ c ∧ c ≤ 122) := by decide +kernel
  refine ⟨fun hmem => hnot c hmem hc, ?_⟩
  rintro rfl
  exact absurd hc (by decide)

/-- **Such a line is plain**, if its command is. -/
theorem plainLine_dumpLine (hl : l.Plain) (hcmd : ∀ c ∈ cmd, Cmd.PlainChar c) (hat : 64 ∉ cmd) :
    Cmd.PlainLine (dumpLine cmd x l) (67 :: cmd) (32 :: addressText x l) where
  plain c hc := by
    have hnumber : c ∈ hexWord x → Cmd.PlainChar c := fun hx =>
      (plainChar_of_printed (Or.inr (Or.inr (of_mem_hexWord hx)))).1
    have hlabel : c ∈ l.text → Cmd.PlainChar c := by
      have hchars : ∀ c ∈ ([10, 38, 62, 96, 124, 126] : List u8),
          c ∈ ([10, 38, 58, 62, 64, 96, 124, 126] : List u8) := by decide +kernel
      exact fun hx hmem => (hl.text hx).1 (hchars c hmem)
    have hbetween : ∀ c ∈ ([67, 64, 32, 59] : List u8), Cmd.PlainChar c := by decide +kernel
    unfold dumpLine at hc
    simp only [List.mem_append, List.mem_cons, List.not_mem_nil, or_false] at hc
    rcases hc with ((((rfl | hc) | rfl | rfl) | hc) | rfl | rfl | rfl) | hc
    · exact hbetween _ (by decide)
    · exact hcmd c hc
    · exact hbetween _ (by decide)
    · exact hbetween _ (by decide)
    · exact hnumber hc
    · exact hbetween _ (by decide)
    · exact hbetween _ (by decide)
    · exact hbetween _ (by decide)
    · exact hlabel hc
  letter := rfl
  single h := hat ((List.mem_cons.mp h).resolve_left (by decide))
  one := by
    refine ⟨List.cons_ne_nil _ _, fun h => absurd (Option.some.inj h) (by decide), fun h => ?_⟩
    unfold addressText at h
    simp only [List.mem_append, List.mem_cons, List.not_mem_nil, or_false] at h
    rcases h with h | (h | h | h) | h
    · cases h
    · exact not_mem_hexWord (by decide) h
    · cases h
    · cases h
    · split_ifs at h with hnil
      · cases h
      · exact (hl.text ((List.mem_cons.mp h).resolve_left (by decide))).1 (by decide)
  clean := strclean_dumpLine hl

/-- The program at an address, with the block read. -/
def goTo (addr : ut64) (s : Program) : Program :=
  { s with state := (radareRead { s.state with config.seek := addr } false).1 }

theorem seek_goTo (addr : ut64) (s : Program) :
    (goTo addr s).state.config.seek = seekAt s.state.config.vaddr addr :=
  seek_radareRead

theorem vaddr_radareRead (s : State) : (radareRead s false).1.config.vaddr = s.config.vaddr :=
  congrArg Core.vaddr (core_radareRead false)

theorem vaddr_goTo (addr : ut64) (s : Program) :
    (goTo addr s).state.config.vaddr = s.state.config.vaddr :=
  vaddr_radareRead _

/-- What `radare_cmd_raw` does at an address: the seek is there, the block is
read, and the seek is put back. -/
def atAddress (addr : ut64) (run : Program → Option Program) (s : Program) : Option Program :=
  (run (goTo addr s)).map fun t =>
    if s.state.config.seek = -1 then t else { t with state.config.seek := s.state.config.seek }

/-- Only the seek is put back. -/
theorem atAddress_of {addr : ut64} (run : Program → Option Program) {s t : Program}
    (h : run (goTo addr s) = some t) :
    ∃ t', atAddress addr run s = some t' ∧ t'.world = t.world ∧
      t'.state.config.vaddr = t.state.config.vaddr := by
  unfold atAddress
  rw [h]
  refine ⟨_, rfl, ?_, ?_⟩ <;> split_ifs <;> rfl

/-- A command that adds an entry, in `radare_cmd_raw`. -/
theorem run_command {f : List u8 → Cmd.Shell Tables → Option (ℤ × Cmd.Shell Tables)}
    {u : Cmd.Shell Tables} {t : Program} (hcmd : 10 ∉ cmd)
    (h : radareCode env u.session cmd = some t) :
    (Cmd.command env.cmdEnv (67 :: cmd)).run f u = some (0, { u with session := t }) := by
  have hone : Cmd.oneLine (67 :: cmd) = 67 :: cmd := by
    refine (List.map_congr_left fun c hc => if_neg ?_).trans (List.map_id _)
    rintro rfl
    exact hcmd ((List.mem_cons.mp hc).resolve_left (by decide))
  have hparse : commandsParse env (67 :: cmd) = Prog.get fun s =>
      match radareCode env s cmd with
      | some s' => .set s' (.ret 0)
      | none => env.base.commandsParse (67 :: cmd) := rfl
  have hcommand : Cmd.command env.cmdEnv (67 :: cmd) = Cmd.inShell (commandsParse env (67 :: cmd)) := by
    unfold Cmd.command
    rw [if_neg (fun h => by cases h), hone]
    rfl
  rw [hcommand, hparse]
  show ((match radareCode env u.session cmd with
    | some s' => Prog.set s' (.ret 0)
    | none => env.base.commandsParse (67 :: cmd)).lift Cmd.Shell.session
      fun session s => { s with session := session }).run f u = _
  rw [h]
  rfl

/-- The end of a call: the seek that was kept is put back, unless it is the
mark for none. -/
theorem left_eq {s u : Cmd.Shell Tables} (hs : s.tmpoff = -1) (hlevel : u.cmdLevel = s.cmdLevel + 1)
    (htmp : u.tmpoff = s.session.state.config.seek) :
    u.left env.cmdEnv = { s with session :=
      if s.session.state.config.seek = -1 then u.session
      else { u.session with state.config.seek := s.session.state.config.seek } } := by
  obtain ⟨ulevel, utmp, usession⟩ := u
  obtain ⟨slevel, stmp, ssession⟩ := s
  subst hs hlevel htmp
  have hback : slevel + 1 - 1 = slevel := by omega
  unfold Cmd.Shell.left Cmd.Shell.restored
  by_cases hseek : ssession.state.config.seek = -1
  · simp [hseek, hback, DataEnv.cmdEnv]
  · simp [hseek, hback, DataEnv.cmdEnv]

/-- **A line of a table is run at its address.** -/
theorem run_dumpLine (hline : Cmd.PlainLine line (67 :: cmd) (32 :: addressText x l))
    (hl : l.Plain) {s : Cmd.Shell Tables} {t : Program} (hs : s.tmpoff = -1)
    (hrun : atAddress (env.nums.address x l) (fun s => radareCode env s cmd) s.session = some t) :
    (Cmd.radareCmdRaw env.cmdEnv (n + 2) line s).map (·.2) = some { s with session := t } := by
  obtain ⟨t₀, ht₀, rfl⟩ := Option.map_eq_some_iff.mp hrun
  have haddr : getMathText env.nums s.session.state (addressText x l) = env.nums.address x l :=
    getMathText_address hl
  have hseek : (Cmd.seekTo env.cmdEnv (32 :: addressText x l)).run
      (Cmd.radareCmdRaw env.cmdEnv (n + 1)) s.entered = some (env.nums.address x l,
        { s.entered with
          tmpoff := s.seek
          session := goTo (env.nums.address x l) s.session }) := by
    rw [← haddr]
    rfl
  have hnewline : 10 ∉ cmd := fun hmem =>
    hline.not_mem (by decide) (List.mem_append_left _ (List.mem_cons_of_mem _ hmem))
  rw [Cmd.run_plainLine hline hseek (run_command hnewline ht₀), Option.map_some]
  refine congrArg some ?_
  exact left_eq hs rfl rfl

/-! ## A whole table -/

variable {α : Type} {lineOf : α → List u8} {R : Program → α → Program → Prop}
  {P : List α → Program → Program → Prop} {entries : List α}

/-- The line of an entry takes the program where a step does. -/
def LineStep (env : DataEnv) (lineOf : α → List u8) (R : Program → α → Program → Prop) (e : α) :
    Prop :=
  ∃ cmd x l, Cmd.PlainLine (lineOf e) (67 :: cmd) (32 :: addressText x l) ∧ l.Plain ∧
    ∀ s, ∃ t, atAddress (env.nums.address x l) (fun s => radareCode env s cmd) s = some t ∧ R s e t

/-- **The lines of a table are run one after the other**: what the steps come
to, the run does. -/
theorem runDump_spec (hnil : ∀ s, P [] s s)
    (hcons : ∀ {e es s t u}, R s e t → P es t u → P (e :: es) s u)
    (h : ∀ e ∈ entries, LineStep env lineOf R e) {s : Cmd.Shell Tables} (hs : s.tmpoff = -1) :
    ∃ t, runDump env (n + 2) (dumpText (entries.map lineOf)) s = some { s with session := t } ∧
      P entries s.session t := by
  have hlines : ∀ line ∈ entries.map lineOf, 10 ∉ line ∧ line ≠ [] := by
    intro line hline
    obtain ⟨e, he, rfl⟩ := List.mem_map.mp hline
    obtain ⟨cmd, x, l, hplain, -⟩ := h e he
    refine ⟨fun hmem => absurd (hplain.plain 10 hmem) (by decide), fun hnil => ?_⟩
    have hclean := hplain.clean
    rw [hnil] at hclean
    cases hclean
  rw [runDump_dumpText hlines, List.foldlM_map]
  clear hlines
  induction entries generalizing s with
  | nil => exact ⟨s.session, rfl, hnil _⟩
  | cons e entries ih =>
    obtain ⟨cmd, x, l, hplain, hl, hrun⟩ := h e List.mem_cons_self
    obtain ⟨t, ht, hstep⟩ := hrun s.session
    obtain ⟨u, hu, hrest⟩ := ih (fun e' he' => h e' (List.mem_cons_of_mem _ he'))
      (s := { s with session := t }) hs
    refine ⟨u, ?_, hcons hstep hrest⟩
    rw [List.foldlM_cons, run_dumpLine hplain hl hs ht]
    exact hu

/-! ## An example -/

/-- A program without flags and variables, and with no command but those of
the tables. -/
def bareEnv : DataEnv where
  base :=
    { fresh := fun _ => 0
      behind := []
      getMath := fun _ s => (0, s)
      skip := fun _ => false
      radareSystem := fun _ s => (0, s)
      toggleVerbose := id
      makeTmpFile := fun s => (([], false), s)
      divert := fun _ s => s
      undivert := fun _ s => s
      openRead := fun _ _ s => (none, s)
      openWrite := fun _ _ s => (false, s)
      writeOff := id
      consGrep := fun _ s => s
      consFlush := fun _ s => s
      pipeInto := fun _ _ s => (0, s)
      usage := id
      radareNullcmd := pure ()
      commandsParse := fun _ => pure 0
      cmdMacro := fun _ => pure ()
      radareMacroCall := fun _ => pure ()
      radareCmdForeach := fun _ _ => pure ()
      script := fun _ => pure ()
      interpret := fun _ => pure () }
  nums := ⟨fun _ => 0, fun _ _ => 0, fun _ _ => 0⟩
  cursorMode := false
  cursor := 0
  ocursor := -1
  label _ := ⟨[], none⟩

end Radare
