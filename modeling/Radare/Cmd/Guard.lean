import Radare.Cmd.Calls
/-!
# The recursion guard

`cmd_level` is raised when `radare_cmd_raw` reads a text, and lowered at its
end. Nothing else writes it, so that a call keeps it exactly if all calls in
its run come to their ends (`cmdLevel_kept_iff`): the two that return at an
unpaired backquote, or at a file that cannot be opened, leave it raised.
-/

namespace Radare

namespace Cmd

open Common Prog

variable {W : Type} {env : CmdEnv W} {f : List u8 → Shell W → Option (ℤ × Shell W)}
  {tmp input : List u8} {n : ℕ} {s s' : Shell W} {r : ℤ} {e : Exit}

/-- The first half of a call does not return. -/
def ReachesEnd (env : CmdEnv W) (n : ℕ) (tmp : List u8) (s : Shell W) : Prop :=
  ∀ p t, (parse env n tmp).run (radareCmdRaw env n) s.entered = some (p, t) →
    p ≠ .missingFinal ∧ p ≠ .cannotOpen

/-! ## What writes the level -/

theorem calm_keepSeek : Calm f (Shell.cmdLevel (W := W)) keepSeek := fun _ => ⟨rfl, trivial⟩

theorem calm_restoreSeek : Calm f (Shell.cmdLevel (W := W)) restoreSeek := by
  intro s
  unfold restoreSeek
  rw [Prog.Quiet]
  split_ifs
  · trivial
  · exact ⟨rfl, trivial⟩

theorem calm_redirect : Calm f Shell.cmdLevel (redirect env input) := by
  unfold redirect
  split_ifs
  · exact calm_pure _
  split
  · exact calm_pure _
  dsimp only
  split_ifs
  · exact calm_pure _
  refine (outside_cmdLevel.inShell _).bind fun opened => ?_
  split_ifs
  · exact calm_pure _
  · exact (outside_cmdLevel.inShell _).bind fun _ => calm_keepSeek.bind fun _ => calm_pure _

theorem calm_parse : Calm f Shell.cmdLevel (parse env n tmp) := by
  unfold parse
  split
  · exact calm_pure _
  dsimp only
  split
  · exact (outside_cmdLevel.inShell _).bind fun _ => calm_pure _
  refine outside_cmdLevel.colon.bind fun input => ?_
  split
  · exact (outside_cmdLevel.cutLine _).bind fun _ => calm_pure _
  refine outside_cmdLevel.inlinePipe.bind fun piped => ?_
  cases piped with
  | nothing => exact calm_pure _
  | missingFinal => exact calm_pure _
  | unfinished => exact calm_pure _
  | text input =>
    refine calm_redirect.bind fun opened => ?_
    cases opened with
    | none => exact calm_pure _
    | some input => exact (outside_cmdLevel.cutLine _).bind fun _ => calm_pure _

theorem calm_tempEach (dot : Bool) (cmd each : List u8) :
    Calm f Shell.cmdLevel (tempEach env dot cmd each) := by
  unfold tempEach
  refine (outside_cmdLevel.eachSize _).bind fun _ => calm_keepSeek.bind fun _ => ?_
  refine (outside_cmdLevel.inShell _).bind fun _ => calm_read.bind fun _ => ?_
  exact (outside_cmdLevel.inShell _).bind fun _ => calm_pure _

theorem calm_seekTo : Calm f Shell.cmdLevel (seekTo env input) := by
  unfold seekTo
  refine calm_keepSeek.bind fun _ => ?_
  refine (outside_cmdLevel.inShell _).bind fun _ => (outside_cmdLevel.inShell _).bind fun _ => ?_
  exact (outside_cmdLevel.inShell _).bind fun _ => calm_pure _

theorem calm_runLine (l : Line) : Calm f Shell.cmdLevel (runLine env l) := by
  unfold runLine
  cases l.kind with
  | defines => exact (outside_cmdLevel.inShell _).bind fun _ => calm_pure _
  | pipes =>
    refine (outside_cmdLevel.pipe _).bind fun _ => ?_
    exact (outside_cmdLevel.inShell _).bind fun _ => calm_pure _
  | plain => exact outside_cmdLevel.command.bind fun _ => calm_pure _
  | each cmd each => exact (calm_tempEach _ _ _).bind fun _ => calm_pure _
  | at_ cmd ptr =>
    refine (outside_cmdLevel.tempSize _).bind fun _ => calm_seekTo.bind fun _ => ?_
    exact outside_cmdLevel.command.bind fun _ => calm_pure _

/-- **Between its two changes of the level a call does not write it.** -/
theorem calm_rawBody : Calm f Shell.cmdLevel (rawBody env n tmp) := by
  unfold rawBody
  refine calm_parse.bind fun parsed => ?_
  unfold runParsed
  cases parsed with
  | missingFinal => exact calm_pure _
  | cannotOpen => exact calm_pure _
  | unfinished => exact calm_pure _
  | leave ret =>
    exact calm_restoreSeek.bind fun _ => (outside_cmdLevel.afterEnd _ _ _).bind fun _ => calm_pure _
  | line l =>
    refine (calm_runLine _).bind fun _ => calm_restoreSeek.bind fun _ => ?_
    exact (outside_cmdLevel.afterEnd _ _ _).bind fun _ => calm_pure _

/-! ## What a call comes to -/

/-- A call returns before its end where its first half does. -/
theorem exit_runParsed {p : Parsed} (h : (runParsed env p).run f s = some (e, s')) :
    (e = .missingFinal ↔ p = .missingFinal) ∧ (e = .cannotOpen ↔ p = .cannotOpen) := by
  unfold runParsed at h
  cases p with
  | missingFinal =>
    cases h
    simp
  | cannotOpen =>
    cases h
    simp
  | unfinished =>
    cases h
    simp
  | leave ret =>
    simp only [run_bind, Option.bind_eq_some_iff] at h
    obtain ⟨⟨_, u⟩, -, ⟨_, v⟩, -, h⟩ := h
    cases h
    simp
  | line l =>
    simp only [run_bind, Option.bind_eq_some_iff] at h
    obtain ⟨⟨ran, u⟩, -, ⟨_, v⟩, -, ⟨_, w⟩, -, h⟩ := h
    cases h
    simp

theorem reachesEnd_iff
    (h : (rawBody env n tmp).run (radareCmdRaw env n) s.entered = some (e, s')) :
    ReachesEnd env n tmp s ↔ e ≠ .missingFinal ∧ e ≠ .cannotOpen := by
  unfold rawBody at h
  rw [run_bind] at h
  obtain ⟨⟨p, t⟩, hparse, h⟩ := Option.bind_eq_some_iff.mp h
  obtain ⟨hmissing, hopen⟩ := exit_runParsed h
  constructor
  · intro hend
    obtain ⟨hm, ho⟩ := hend p t hparse
    exact ⟨fun he => hm (hmissing.mp he), fun he => ho (hopen.mp he)⟩
  · rintro ⟨hm, ho⟩ p' t' hp'
    obtain ⟨rfl, -⟩ := Prod.mk.inj (Option.some.inj (hparse.symm.trans hp'))
    exact ⟨fun hp => hm (hmissing.mpr hp), fun hp => ho (hopen.mpr hp)⟩

/-- The level a call leaves is not below the one it found, and it is that
one exactly if every call in its run reaches its end. -/
theorem cmdLevel_radareCmdRaw (h : radareCmdRaw env n tmp s = some (r, s')) :
    s.cmdLevel ≤ s'.cmdLevel ∧
      (s'.cmdLevel = s.cmdLevel ↔ EveryCall env (ReachesEnd env) n tmp s) := by
  induction n generalizing tmp s r s' with
  | zero => cases h
  | succ n ih =>
    rw [radareCmdRaw] at h
    rw [EveryCall]
    by_cases htmp : tmp = []
    · rw [if_pos htmp] at h
      cases h
      exact ⟨le_rfl, iff_of_true rfl (Or.inl htmp)⟩
    rw [if_neg htmp] at h
    obtain ⟨⟨e, t⟩, hrun, hleave⟩ := Option.bind_eq_some_iff.mp h
    have hcounts : Prog.Counts (radareCmdRaw env n) Shell.cmdLevel
        (EveryCall env (ReachesEnd env) n) := ⟨fun h => (ih h).1, fun h => (ih h).2⟩
    obtain ⟨hle, hiff⟩ := (calm_rawBody s.entered).run hcounts hrun
    have hentered : s.entered.cmdLevel = s.cmdLevel + 1 := rfl
    rw [hentered] at hle hiff
    rw [or_iff_right htmp, reachesEnd_iff hrun]
    cases e with
    | done ret =>
      cases hleave
      dsimp only
      refine ⟨by omega, ?_⟩
      rw [and_iff_right ⟨Exit.noConfusion, Exit.noConfusion⟩, ← hiff]
      omega
    | missingFinal =>
      cases hleave
      exact ⟨by omega, iff_of_false (by omega) fun hall => hall.1.1 rfl⟩
    | cannotOpen =>
      cases hleave
      exact ⟨by omega, iff_of_false (by omega) fun hall => hall.1.2 rfl⟩
    | unfinished => cases hleave

end Cmd

end Radare
