import Radare.Cmd.TempSeek
import Radare.Common.Lines
/-!
# Plain lines

Most lines that the program writes for itself are a command and an address:
`cmd @ address`, with nothing in them that pipes, redirects, substitutes,
greps or chains. `radare_cmd_raw` takes such a line apart at the `@` without
a call (`PlainLine.run_parse`), and runs the command at the address
(`run_plainLine`). So what such a line does to the sections here is what was
read off for them alone (`run_sectionLine`).
-/

namespace Radare

namespace Cmd

open Common Prog

variable {W : Type} {env : CmdEnv W} {f : List u8 → Shell W → Option (ℤ × Shell W)}
  {cmd ptr line : List u8} {n : ℕ} {s s' u u' : Shell W} {r : ℤ} {addr : ut64} {c d : u8}

/-- A character that means nothing in a line but itself. -/
def PlainChar (c : u8) : Prop := c ∉ [10, 38, 62, 96, 124, 126]

instance : DecidablePred PlainChar := fun _ => inferInstanceAs (Decidable (¬_))

/-- A line with the command `cmd`, which starts with a letter, at what is
behind the `@`. -/
structure PlainLine (line cmd ptr : List u8) : Prop where
  plain : ∀ c ∈ line, PlainChar c
  letter : cmd.head?.any fun c => (65 ≤ c ∧ c ≤ 90) ∨ (97 ≤ c ∧ c < 101)
  single : 64 ∉ cmd
  /-- There is no second `@`, and no block size behind a `:`. -/
  one : ptr ≠ [] ∧ ptr.head? ≠ some 64 ∧ 58 ∉ ptr
  clean : strclean line = cmd ++ 64 :: ptr

theorem mem_of_mem_strclean (h : c ∈ strclean line) : c ∈ line :=
  (List.dropWhile_suffix _).subset ((List.rdropWhile_prefix _ _).subset h)

theorem strchr_eq_none (h : c ∉ line) : strchr c line = none := if_neg h

theorem strchr_append (h : c ∉ cmd) : strchr c (cmd ++ c :: ptr) = some (cmd, ptr) := by
  unfold strchr
  rw [if_pos (List.mem_append_right _ List.mem_cons_self), takeWhile_ne_cons h, dropWhile_ne_cons h,
    List.tail_cons]

theorem strstrAnd_eq_none (h : 38 ∉ line) : strstrAnd line = none := by
  induction line with
  | nil => rfl
  | cons c line ih =>
    have hc : c ≠ 38 := fun heq => h (heq ▸ List.mem_cons_self)
    unfold strstrAnd
    split
    · rename_i heq
      exact absurd (List.cons.inj heq).1 hc
    · rename_i heq
      obtain ⟨rfl, rfl⟩ := List.cons.inj heq
      rw [ih fun hmem => h (List.mem_cons_of_mem _ hmem)]
      rfl
    · rfl

namespace PlainLine

variable (h : PlainLine line cmd ptr)
include h

theorem not_mem (hc : ¬PlainChar c) : c ∉ cmd ++ 64 :: ptr := by
  intro hmem
  rw [← h.clean] at hmem
  exact hc (h.plain c (mem_of_mem_strclean hmem))

/-- Its first character. -/
theorem head : ∃ c rest, cmd = c :: rest ∧ ((65 ≤ c ∧ c ≤ 90) ∨ (97 ≤ c ∧ c < 101)) := by
  have hletter := h.letter
  cases cmd with
  | nil => cases hletter
  | cons c rest => exact ⟨c, rest, rfl, of_decide_eq_true hletter⟩

theorem head?_ne (hd : ¬((65 ≤ d ∧ d ≤ 90) ∨ (97 ≤ d ∧ d < 101))) :
    (cmd ++ 64 :: ptr).head? ≠ some d := by
  obtain ⟨c, rest, rfl, hc⟩ := h.head
  intro heq
  rw [← Option.some.inj heq] at hd
  exact hd hc

/-- **What the first half comes to.** -/
theorem run_parse : (parse env (n + 1) line).run f s =
    some (.line ⟨false, cmd ++ 64 :: ptr, false, none⟩, s) := by
  have hnewline : line.dropWhile (· ≠ 10) = [] := by
    rw [List.dropWhile_eq_nil_iff]
    intro c hc
    rw [decide_eq_true_iff]
    rintro rfl
    exact absurd (h.plain 10 hc) (by decide)
  have hunquote : unquote (strclean line) = (false, cmd ++ 64 :: ptr) := by
    rw [h.clean, unquote, if_neg (h.head?_ne (by decide))]
  have hbang : ¬(cmd ++ 64 :: ptr).take 2 = [33, 33] := by
    intro heq
    refine h.head?_ne (d := 33) (by decide) ?_
    rw [← List.take_append_drop 2 (cmd ++ 64 :: ptr), heq]
    rfl
  have hcolon : colon env (cmd ++ 64 :: ptr) = pure (cmd ++ 64 :: ptr) :=
    if_neg (h.head?_ne (by decide))
  have hpipe : inlinePipe env (n + 1) (cmd ++ 64 :: ptr) = pure (.text (cmd ++ 64 :: ptr)) := by
    rw [inlinePipe, strchr_eq_none (h.not_mem (by decide))]
  have hredirect : redirect env (cmd ++ 64 :: ptr) = pure (some (cmd ++ 64 :: ptr)) := by
    have htail : 62 ∉ (cmd ++ 64 :: ptr).tail := fun hmem =>
      h.not_mem (by decide) (List.mem_of_mem_tail hmem)
    unfold redirect
    split_ifs
    · rfl
    · rw [strchr_eq_none htail]
  have hcut : cutLine env false (cmd ++ 64 :: ptr) =
      pure ⟨false, cmd ++ 64 :: ptr, false, none⟩ := by
    have hnext : cutNext false (cmd ++ 64 :: ptr) = (cmd ++ 64 :: ptr, none) := by
      rw [cutNext, strstrAnd_eq_none (h.not_mem (by decide))]
    unfold cutLine
    rw [if_neg fun hmacro => h.head?_ne (by decide) hmacro.1, hnext]
    dsimp only
    rw [strchr_eq_none (h.not_mem (by decide))]
  unfold parse
  rw [hnewline, if_neg (by simp)]
  dsimp only
  rw [hunquote]
  dsimp only
  rw [if_neg hbang, hcolon, pure_bind, if_neg Bool.false_ne_true, hpipe, pure_bind]
  dsimp only
  rw [hredirect, pure_bind]
  dsimp only
  rw [hcut, pure_bind]
  rfl

/-- The line has an address. -/
theorem kind_eq (quoted grep : Bool) (next : Option (List u8)) (hq : quoted = false) :
    Line.kind ⟨quoted, cmd ++ 64 :: ptr, grep, next⟩ = .at_ cmd ptr := by
  have hdot : ¬((cmd ++ 64 :: ptr).head? = some 40 ∧ (cmd ++ 64 :: ptr).tail.head? ≠ some 41) :=
    fun hmacro => h.head?_ne (by decide) hmacro.1
  have hpipes : pipes (cmd ++ 64 :: ptr) = false := by
    refine decide_eq_false fun hp => ?_
    exact h.not_mem (by decide) hp.1
  have hspecial :
      ¬(quoted = true ∨ (cmd ++ 64 :: ptr).head?.any [101, 37, 95, 59].contains = true) := by
    obtain ⟨c, rest, rfl, hc⟩ := h.head
    rintro (hq' | hc')
    · exact absurd (hq ▸ hq') Bool.false_ne_true
    · have hmem : c ∈ ([101, 37, 95, 59] : List u8) := List.contains_iff_mem.mp hc'
      simp only [List.mem_cons, List.not_mem_nil, or_false] at hmem
      rcases hmem with rfl | rfl | rfl | rfl <;> exact absurd hc (by decide)
  unfold Line.kind
  dsimp only
  rw [if_neg hdot, hpipes, if_neg (by simp), if_neg hspecial, strchr_append h.single]
  split
  · rename_i heq
    cases heq
  · rename_i heq
    obtain ⟨rfl, hptr⟩ := Prod.mk.inj (Option.some.inj heq)
    exact absurd (congrArg List.head? hptr) h.one.2.1
  · rename_i heq
    obtain ⟨rfl, rfl⟩ := Prod.mk.inj (Option.some.inj heq)
    rfl

theorem tempSize_eq (dot : Bool) : tempSize env dot ptr = pure (ptr, none) := by
  have htail : 58 ∉ skipOne env ptr := by
    rw [skipOne, if_neg h.one.1]
    exact fun hmem => h.one.2.2 (List.mem_of_mem_tail hmem)
  rw [tempSize, strchr_eq_none htail]

end PlainLine

/-- The session at the end of a call, and the seek. -/
def Shell.left (env : CmdEnv W) (s : Shell W) : Shell W :=
  { s.restored with
    session := env.consFlush (s.restored.cmdLevel = 1) s.restored.session
    cmdLevel := s.restored.cmdLevel - 1 }

/-- **A plain line runs its command at its address.** -/
theorem run_plainLine (h : PlainLine line cmd ptr)
    (hseek : (seekTo env ptr).run (radareCmdRaw env (n + 1)) s.entered = some (addr, u))
    (hcmd : (command env cmd).run (radareCmdRaw env (n + 1)) u = some (r, u')) :
    radareCmdRaw env (n + 2) line s = some (r, u'.left env) := by
  have hne : line ≠ [] := by
    rintro rfl
    exact List.append_ne_nil_of_right_ne_nil _ (List.cons_ne_nil _ _) h.clean.symm
  have hafter : (afterEnd env false none none).run (radareCmdRaw env (n + 1)) u'.restored =
      some ((), { u'.restored with
        session := env.consFlush (u'.restored.cmdLevel = 1) u'.restored.session }) := rfl
  have hbody : (rawBody env (n + 1) line).run (radareCmdRaw env (n + 1)) s.entered =
      some (.done r, { u'.restored with
        session := env.consFlush (u'.restored.cmdLevel = 1) u'.restored.session }) := by
    unfold rawBody
    rw [run_bind_of h.run_parse, runParsed_at (h.kind_eq false false none rfl), h.tempSize_eq,
      pure_bind, run_bind_of hseek]
    unfold atAddress
    rw [run_bind_of hcmd, run_bind_of run_restoreSeek, run_bind_of hafter]
    rfl
  rw [radareCmdRaw, if_neg hne, hbody]
  rfl

/-! ## Section lines -/

variable {nums : Numbers} {behind : List u8} {shell : List u8 → State → State}

/-- The commands work on sections as `CMD_DECL(sections)` does, and the console leaves
the file alone. -/
structure CmdEnv.Sections (env : CmdEnv W) (nums : Numbers) (behind : List u8) : Prop where
  getMath : env.getMath = fun text t => (Radare.getMath nums t.state text, t)
  consFlush : ∀ last t, (env.consFlush last t).state = t.state
  commandsParse : ∀ cmd, env.commandsParse (83 :: cmd) =
    act fun t => (0, { t with state := cmdSections nums behind t.state cmd })

/-- A section line that is plain is run at its address in the section table's own
`radare_cmd_raw`. -/
theorem PlainLine.atSeek (h : PlainLine line (83 :: cmd) ptr) (t : State) :
    Radare.radareCmdRaw nums shell behind line t =
      Radare.atSeek t
        (if (ptr.dropWhile (· = 32)).head? = some 43 ∨ (ptr.dropWhile (· = 32)).head? = some 45 then
          t.config.seek + Radare.getMath nums t (ptr.dropWhile (· = 32))
        else Radare.getMath nums t (ptr.dropWhile (· = 32)))
        fun t => cmdSections nums behind t cmd := by
  have hspecial : ¬((83 :: cmd ++ 64 :: ptr).head? ≠ some 83 ∨ Special (83 :: cmd ++ 64 :: ptr)) := by
    rintro (hhead | hten | hgreater | hquote | hand | hpipe)
    · exact hhead rfl
    · exact h.not_mem (by decide) hten
    · exact h.not_mem (by decide) hgreater
    · exact h.not_mem (by decide) hquote
    · exact h.not_mem (c := 38) (by decide) (hand.subset List.mem_cons_self)
    · exact h.not_mem (by decide) (of_decide_eq_true hpipe).1
  have hgrep : (83 :: cmd ++ 64 :: ptr).takeWhile (· ≠ 126) = 83 :: cmd ++ 64 :: ptr := by
    rw [List.takeWhile_eq_self_iff]
    intro c hc
    rw [decide_eq_true_iff]
    rintro rfl
    exact h.not_mem (by decide) hc
  have hcmd : (83 :: cmd ++ 64 :: ptr).takeWhile (· ≠ 64) = 83 :: cmd := takeWhile_ne_cons h.single
  have hptr : (83 :: cmd ++ 64 :: ptr).dropWhile (· ≠ 64) = 64 :: ptr := dropWhile_ne_cons h.single
  have hone : ¬(ptr.head? = some 64 ∨ 58 ∈ ptr.tail) := by
    rintro (hat | hsize)
    · exact h.one.2.1 hat
    · exact h.one.2.2 (List.mem_of_mem_tail hsize)
  unfold Radare.radareCmdRaw
  dsimp only
  rw [h.clean, if_neg hspecial, hgrep, hcmd, hptr]
  dsimp only
  rw [if_neg hone]
  rfl

/-- **A section line** in `radare_cmd_raw` does what it does to the table. -/
theorem run_sectionLine (h : PlainLine line (83 :: cmd) ptr) (henv : env.Sections nums behind) :
    ∃ t, radareCmdRaw env (n + 2) line s = some (0, t) ∧ t.cmdLevel = s.cmdLevel ∧
      t.session.state = Radare.radareCmdRaw nums shell behind line s.session.state := by
  set addr := if (ptr.dropWhile (· = 32)).head? = some 43 ∨
      (ptr.dropWhile (· = 32)).head? = some 45 then
    s.session.state.config.seek + Radare.getMath nums s.session.state (ptr.dropWhile (· = 32))
    else Radare.getMath nums s.session.state (ptr.dropWhile (· = 32)) with haddr
  set t := (radareRead { s.session.state with config.seek := addr } false).1 with ht
  have hseek : (seekTo env ptr).run (radareCmdRaw env (n + 1)) s.entered =
      some (addr, { s.entered with
        tmpoff := s.seek
        session := { s.session with state := t } }) := by
    unfold seekTo
    rw [henv.getMath]
    rfl
  have hcmd : (command env (83 :: cmd)).run (radareCmdRaw env (n + 1))
      { s.entered with tmpoff := s.seek, session := { s.session with state := t } } =
        some (0, { s.entered with
          tmpoff := s.seek
          session := { s.session with state := cmdSections nums behind t cmd } }) := by
    have hline : oneLine (83 :: cmd) = 83 :: cmd := by
      refine (List.map_congr_left fun c hc => if_neg ?_).trans (List.map_id _)
      rintro rfl
      exact h.not_mem (by decide) (List.mem_append_left _ hc)
    unfold command
    rw [if_neg (fun hdot => by cases hdot), hline, henv.commandsParse]
    rfl
  refine ⟨_, run_plainLine h hseek hcmd, ?_, ?_⟩
  · have hback : s.cmdLevel + 1 - 1 = s.cmdLevel := by omega
    unfold Shell.left Shell.restored
    split_ifs
    all_goals exact hback
  · have hkept : s.session.state.config.seek = s.seek := rfl
    rw [h.atSeek, Radare.atSeek, ← haddr, ← ht, hkept]
    unfold Shell.left Shell.restored
    dsimp only
    rw [henv.consFlush]
    by_cases hnone : s.seek = -1
    · rw [if_pos hnone, if_neg (not_not.mpr hnone)]
    · rw [if_neg hnone, if_pos hnone]

end Cmd

end Radare
