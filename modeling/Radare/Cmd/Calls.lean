import Radare.Cmd.Raw
/-!
# The calls of a run

A call of `radare_cmd_raw` runs others, and these run others again
(`EveryCall`). What the commands work on, the session, they can change as
they like; what is outside of it (`Outside`) only a few steps of
`radare_cmd_raw` write. All the rest keep it.
-/

namespace Radare

namespace Cmd

open Common Prog

variable {W M α : Type} {env : CmdEnv W} {f : List u8 → Shell W → Option (ℤ × Shell W)}
  {input : List u8} {n : ℕ} {μ : Shell W → M}

/-- Every call in a run of `radare_cmd_raw` has a property, itself and those
in its commands, but for those of an empty text. -/
def EveryCall (env : CmdEnv W) (Q : ℕ → List u8 → Shell W → Prop) : ℕ → List u8 → Shell W → Prop
  | 0, _, _ => True
  | n + 1, tmp, s => tmp = [] ∨ Q n tmp s ∧
    (rawBody env n tmp).All (radareCmdRaw env n) (EveryCall env Q n) s.entered

/-- A part of the shell outside of the session. -/
def Outside (μ : Shell W → M) : Prop :=
  ∀ (session : Session W) (s : Shell W), μ { s with session := session } = μ s

theorem outside_cmdLevel : Outside (Shell.cmdLevel (W := W)) := fun _ _ => rfl

theorem outside_tmpoff : Outside (Shell.tmpoff (W := W)) := fun _ _ => rfl

/-! ## What keeps it -/

theorem Outside.inShell (hμ : Outside μ) (q : Command W α) :
    Calm f μ (Cmd.inShell q) := by
  intro s
  unfold Cmd.inShell
  exact quiet_lift Shell.session hμ q

theorem calm_radareCmdRawNonempty (cmd : List u8) : Calm f μ (radareCmdRawNonempty cmd) := by
  unfold radareCmdRawNonempty
  split_ifs
  · exact calm_pure _
  · exact calm_invoke _

theorem Outside.pipe (hμ : Outside μ) (cmd : List u8) : Calm f μ (pipeStdoutToTmpFile env cmd) := by
  unfold pipeStdoutToTmpFile
  refine (hμ.inShell _).bind fun tmp => ?_
  split_ifs
  · refine (hμ.inShell _).bind fun s => (hμ.inShell _).bind fun _ => ?_
    exact (calm_radareCmdRawNonempty _).bind fun _ => (hμ.inShell _).bind fun _ => calm_pure _
  · exact calm_pure _

theorem Outside.inlinePipe (hμ : Outside μ) : Calm f μ (Cmd.inlinePipe env n input) := by
  induction n generalizing input with
  | zero => exact calm_pure _
  | succ n ih =>
    unfold Cmd.inlinePipe
    split
    · exact calm_pure _
    split
    · exact calm_pure _
    refine (hμ.pipe _).bind fun _ => (hμ.inShell _).bind fun data => ?_
    split
    · exact calm_pure _
    split_ifs
    · exact calm_pure _
    · exact ih

theorem Outside.cutLine (hμ : Outside μ) (quoted : Bool) :
    Calm f μ (Cmd.cutLine env quoted input) := by
  unfold Cmd.cutLine
  split_ifs
  · exact calm_pure _
  dsimp only
  split
  · exact (hμ.inShell _).bind fun _ => calm_pure _
  · exact calm_pure _

theorem Outside.colon (hμ : Outside μ) : Calm f μ (Cmd.colon env input) := by
  unfold Cmd.colon
  split_ifs
  · exact (hμ.inShell _).bind fun _ => calm_pure _
  · exact calm_pure _

theorem Outside.tempSize (hμ : Outside μ) (dot : Bool) : Calm f μ (Cmd.tempSize env dot input) := by
  unfold Cmd.tempSize
  split
  · exact calm_pure _
  refine (hμ.inShell _).bind fun _ => (hμ.inShell _).bind fun _ => ?_
  exact (hμ.inShell _).bind fun _ => calm_pure _

theorem Outside.eachSize (hμ : Outside μ) (dot : Bool) : Calm f μ (Cmd.eachSize env dot input) := by
  unfold Cmd.eachSize
  split_ifs
  · exact calm_pure _
  · exact hμ.tempSize _

theorem Outside.command (hμ : Outside μ) : Calm f μ (Cmd.command env input) := by
  unfold Cmd.command
  split_ifs
  · unfold dotCommand
    split
    · exact (hμ.inShell _).bind fun _ => calm_pure _
    · exact (hμ.inShell _).bind fun _ => calm_pure _
    · exact (hμ.inShell _).bind fun _ => calm_pure _
    · exact (hμ.pipe _).bind fun _ => (hμ.inShell _).bind fun _ => calm_pure _
  · exact hμ.inShell _

theorem Outside.afterEnd (hμ : Outside μ) (grep : Bool) (next : Option (List u8))
    (tmpbsz : Option ℕ) : Calm f μ (Cmd.afterEnd env grep next tmpbsz) := by
  unfold Cmd.afterEnd
  refine (hμ.inShell _).bind fun _ => calm_read.bind fun _ => (hμ.inShell _).bind fun _ => ?_
  exact (hμ.inShell _).bind fun _ => (hμ.inShell _).bind fun _ => calm_pure _

/-! ## An example -/

/-- Commands that print. The files that are read have `0x20` in them. -/
def printing : CmdEnv Unit where
  fresh _ := 0
  behind := []
  getMath text s :=
    ((hexValue ((text.filter (· ≠ 32)).drop 2)).getD 0, s)
  skip _ := false
  radareSystem _ s := (0, s)
  toggleVerbose s := s
  makeTmpFile s := (([116], true), s)
  divert _ s := s
  undivert _ s := s
  openRead _ _ s := (some [48, 120, 50, 48], s)
  openWrite _ _ s := (true, s)
  writeOff s := s
  consGrep _ s := s
  consFlush _ s := s
  pipeInto _ _ s := (0, s)
  usage s := s
  radareNullcmd := pure ()
  commandsParse _ := pure 0
  cmdMacro _ := pure ()
  radareMacroCall _ := pure ()
  radareCmdForeach _ _ := pure ()
  script _ := pure ()
  interpret _ := pure ()

/-- A shell that has just started. -/
def started : Shell Unit := { session := ⟨openFile [] 1 1, ()⟩ }

end Cmd

end Radare
