import Radare.Cmd.Guard
import Radare.Rio.CommandLine
/-!
# Temporary seeks

A call with an address behind its `@` keeps the seek in `tmpoff`, goes to
the address, runs its command there, and at its end goes back (`Scoped`).
There is one `tmpoff` for the calls of all levels, and every call that comes
to its end takes what is in it. So a call of the command, if it comes to its
end, takes the seek of the call it is in, which is then left where it is.

Where that does not happen (`Undisturbed`), and nothing but the command
moves the seek, the seeks of a run are scoped (`tempSeeks_scoped`).
-/

namespace Radare

namespace Cmd

open Common Prog

variable {W M : Type} {μ : Shell W → M} {env : CmdEnv W}
  {f : List u8 → Shell W → Option (ℤ × Shell W)}
  {tmp input : List u8} {n : ℕ} {s s' t u : Shell W} {r : ℤ} {e : Exit}
  {Q : List u8 → Shell W → Prop}

/-! ## A call with an address -/

/-- A call that has read an `@`. -/
structure Approach where
  line : Line
  cmd : List u8
  ptr : List u8
  tmpbsz : Option ℕ

variable {a : Approach}

/-- What a call does before it keeps the seek, if it comes to an address. -/
def approach (env : CmdEnv W) (n : ℕ) (tmp : List u8) : Raw W (Option Approach) := do
  match ← parse env n tmp with
  | .line l =>
    match l.kind with
    | .at_ cmd ptr => do
      let size ← tempSize env l.dot ptr
      pure (some ⟨l, cmd, size.1, size.2⟩)
    | _ => pure none
  | _ => pure none

/-- What it does with its command. -/
def atAddress (env : CmdEnv W) (a : Approach) : Raw W Exit := do
  let ret ← command env a.cmd
  restoreSeek
  afterEnd env a.line.grep a.line.next a.tmpbsz
  pure (.done ret)

/-- A command that starts at its address. -/
structure Start (W : Type) where
  call : Approach
  /-- What is behind the `@` means. -/
  addr : ut64
  shell : Shell W

/-- How the command of a call starts, if the call has an address. -/
def start (env : CmdEnv W) (n : ℕ) (tmp : List u8) (s : Shell W) : Option (Start W) :=
  ((approach env n tmp).run (radareCmdRaw env n) s.entered).bind fun (a, t) =>
    a.bind fun a =>
      ((seekTo env a.ptr).run (radareCmdRaw env n) t).map fun (addr, u) => ⟨a, addr, u⟩

/-- The call has an address. -/
def HasAddress (env : CmdEnv W) : ℕ → List u8 → Shell W → Prop
  | 0, _, _ => False
  | n + 1, tmp, s => tmp ≠ [] ∧ (start env n tmp s).isSome

/-- **A temporary seek**: the command starts at its address, and when the
call returns the seek is what it was. -/
def Scoped (env : CmdEnv W) (n : ℕ) (tmp : List u8) (s : Shell W) : Prop :=
  ∀ st, start env n tmp s = some st → st.shell.seek = st.addr ∧
    ∀ r s', radareCmdRaw env (n + 1) tmp s = some (r, s') → s'.seek = s.seek

/-! ## When it is one -/

/-- A program, and the calls in its run that have no address of their own,
leave the seek where it is. -/
def Still {α : Type} (env : CmdEnv W) (n : ℕ) (p : Raw W α) (s : Shell W) : Prop :=
  p.Quiet (radareCmdRaw env n) Shell.seek s ∧
    p.All (radareCmdRaw env n) (fun tmp s => HasAddress env n tmp s ∨
      ∀ r s', radareCmdRaw env n tmp s = some (r, s') → s'.seek = s.seek) s

/-- The same, or the seek is back there in the end. -/
def Back {α : Type} (env : CmdEnv W) (n : ℕ) (p : Raw W α) (s : Shell W) : Prop :=
  Still env n p s ∨ ∀ x s', p.run (radareCmdRaw env n) s = some (x, s') → s'.seek = s.seek

/-- A call stops at an unpaired backquote. -/
def Stops (env : CmdEnv W) (n : ℕ) (tmp : List u8) (s : Shell W) : Prop :=
  ∀ p t, (parse env n tmp).run (radareCmdRaw env n) s.entered = some (p, t) → p = .missingFinal

/-- The seek at the end, for a call that has kept one. -/
def Shell.restored (s : Shell W) : Shell W :=
  if s.tmpoff = -1 then s else { s with tmpoff := -1, session.state.config.seek := s.tmpoff }

/-- What keeps others from the seek that a call has kept, and the seek where
it is but for its command. -/
structure Undisturbed (env : CmdEnv W) (n : ℕ) (tmp : List u8) (s : Shell W) (st : Start W) :
    Prop where
  /-- The seek can be told from none. -/
  seek_ne : s.seek ≠ -1
  before : Back env n (approach env n tmp) s.entered
  /-- The seek to the address leads to it. -/
  addr_ne : st.addr ≠ -1
  below : st.shell.session.state.config.vaddr = 0 ∨
    st.addr < st.shell.session.state.config.vaddr
  /-- No call of the command comes to its end. -/
  alone : (command env st.call.cmd).All (radareCmdRaw env n) (EveryCall env (Stops env) n) st.shell
  after : ∀ ret t, (command env st.call.cmd).run (radareCmdRaw env n) st.shell = some (ret, t) →
    Back env n (afterEnd env st.call.line.grep st.call.line.next st.call.tmpbsz) t.restored

/-- A call without an address, or an undisturbed one. -/
def Meets (env : CmdEnv W) (n : ℕ) (tmp : List u8) (s : Shell W) : Prop :=
  ∀ st, start env n tmp s = some st → Undisturbed env n tmp s st

/-! ## The steps of a call with an address -/

theorem runParsed_at {l : Line} {cmd ptr : List u8} (h : l.kind = .at_ cmd ptr) :
    runParsed env (.line l) = (do
      let size ← tempSize env l.dot ptr
      let _ ← seekTo env size.1
      atAddress env ⟨l, cmd, size.1, size.2⟩) := by
  unfold runParsed runLine atAddress
  dsimp only
  rw [h]
  simp only [bind_assoc, pure_bind]

theorem approach_at (h : (approach env n tmp).run f s = some (some a, t)) :
    ∃ l cmd ptr v, (parse env n tmp).run f s = some (.line l, v) ∧ l.kind = .at_ cmd ptr ∧
      ∃ size, (tempSize env l.dot ptr).run f v = some (size, t) ∧ a = ⟨l, cmd, size.1, size.2⟩ := by
  unfold approach at h
  rw [run_bind] at h
  obtain ⟨⟨p, v⟩, hparse, h⟩ := Option.bind_eq_some_iff.mp h
  cases p with
  | missingFinal => cases h
  | cannotOpen => cases h
  | unfinished => cases h
  | leave ret => cases h
  | line l =>
    dsimp only at h
    split at h
    · rename_i cmd ptr hkind
      rw [run_bind] at h
      obtain ⟨⟨size, w⟩, hsize, h⟩ := Option.bind_eq_some_iff.mp h
      cases h
      exact ⟨l, cmd, ptr, v, hparse, hkind, size, hsize, rfl⟩
    · cases h

/-- **The run of a call with an address.** -/
theorem run_rawBody (h : (approach env n tmp).run f s = some (some a, t)) :
    (rawBody env n tmp).run f s =
      (seekTo env a.ptr >>= fun _ => atAddress env a).run f t := by
  obtain ⟨l, cmd, ptr, v, hparse, hkind, size, hsize, rfl⟩ := approach_at h
  unfold rawBody
  rw [run_bind_of hparse, runParsed_at hkind, run_bind_of hsize]

/-- Its calls are those on the way to the address and those from there. -/
theorem all_rawBody (h : (rawBody env n tmp).All f Q s) :
    (approach env n tmp).All f Q s ∧ ∀ a t, (approach env n tmp).run f s = some (some a, t) →
      (seekTo env a.ptr >>= fun _ => atAddress env a).All f Q t := by
  unfold rawBody at h
  obtain ⟨hparse, hrest⟩ := all_bind.mp h
  constructor
  · unfold approach
    refine all_bind.mpr ⟨hparse, fun p t hp => ?_⟩
    cases p with
    | missingFinal => trivial
    | cannotOpen => trivial
    | unfinished => trivial
    | leave ret => trivial
    | line l =>
      dsimp only
      split
      · rename_i cmd ptr hkind
        have hline := hrest _ t hp
        rw [runParsed_at hkind] at hline
        exact all_bind.mpr ⟨(all_bind.mp hline).1, fun _ _ _ => trivial⟩
      · trivial
  · intro a t ha
    obtain ⟨l, cmd, ptr, v, hp, hkind, size, hsize, rfl⟩ := approach_at ha
    have hline := hrest _ v hp
    rw [runParsed_at hkind] at hline
    exact (all_bind.mp hline).2 size t hsize

/-- The seek to an address: what it keeps, and where it leads. -/
theorem run_seekTo (env : CmdEnv W) (f : List u8 → Shell W → Option (ℤ × Shell W)) (s : Shell W)
    (ptr : List u8) : ∃ (addr : ut64) (v : Session W) (w : State),
    (seekTo env ptr).run f s = some (addr, { s with tmpoff := s.seek, session := v }) ∧
      v.state = (radareRead { w with config.seek := addr } false).1 :=
  ⟨_, _, _, rfl, rfl⟩

/-- How a command comes to its start. -/
theorem start_eq_some {st : Start W} (h : start env n tmp s = some st) :
    ∃ t, (approach env n tmp).run (radareCmdRaw env n) s.entered = some (some st.call, t) ∧
      (seekTo env st.call.ptr).run (radareCmdRaw env n) t = some (st.addr, st.shell) := by
  unfold start at h
  obtain ⟨⟨a, t⟩, happroach, h⟩ := Option.bind_eq_some_iff.mp h
  cases a with
  | none => cases h
  | some a =>
    dsimp only [Option.bind_some] at h
    obtain ⟨⟨addr, u⟩, hseek, h⟩ := Option.map_eq_some_iff.mp h
    cases h
    exact ⟨t, happroach, hseek⟩

/-- What a return leaves. -/
theorem leave_spec (h : e.leave s = some (r, s')) : s'.seek = s.seek ∧ s'.tmpoff = s.tmpoff := by
  cases e <;> cases h <;> exact ⟨rfl, rfl⟩

theorem run_restoreSeek : (restoreSeek (W := W)).run f s = some ((), s.restored) := by
  unfold restoreSeek Shell.restored
  rw [Prog.run]
  split_ifs <;> rfl

/-! ## The seek kept -/

/-- A first half that stops at a backquote writes nothing outside. -/
theorem Outside.quiet_parse (hμ : Outside μ)
    (h : (parse env n tmp).run f s = some (.missingFinal, t)) : (parse env n tmp).Quiet f μ s := by
  unfold parse at h ⊢
  by_cases hline : (tmp.dropWhile (· ≠ 10)).tail ≠ []
  · rw [if_pos hline]
    trivial
  rw [if_neg hline] at h ⊢
  dsimp only at h ⊢
  by_cases hbang : (unquote (strclean tmp)).2.take 2 = [33, 33]
  · rw [if_pos hbang]
    exact ((hμ.inShell _).bind fun _ => calm_pure _) s
  rw [if_neg hbang] at h ⊢
  refine quiet_bind (hμ.colon s) fun input v hcolon => ?_
  rw [run_bind_of hcolon] at h
  by_cases hquoted : (unquote (strclean tmp)).1 = true
  · rw [if_pos hquoted]
    exact ((hμ.cutLine _).bind fun _ => calm_pure _) v
  rw [if_neg hquoted] at h ⊢
  refine quiet_bind (hμ.inlinePipe v) fun piped w hpiped => ?_
  rw [run_bind_of hpiped] at h
  cases piped with
  | nothing => trivial
  | missingFinal => trivial
  | unfinished => trivial
  | text input =>
    dsimp only at h
    rw [run_bind] at h
    obtain ⟨⟨opened, x⟩, -, h⟩ := Option.bind_eq_some_iff.mp h
    cases opened with
    | none => cases h
    | some input =>
      dsimp only at h
      rw [run_bind] at h
      obtain ⟨⟨l, y⟩, -, h⟩ := Option.bind_eq_some_iff.mp h
      cases h

/-- **Calls that stop leave what is kept**, those in their runs included. -/
theorem tmpoff_of_stops (h : EveryCall env (Stops env) n tmp s)
    (hrun : radareCmdRaw env n tmp s = some (r, s')) : s'.tmpoff = s.tmpoff := by
  induction n generalizing tmp s r s' with
  | zero => cases hrun
  | succ n ih =>
    rw [radareCmdRaw] at hrun
    by_cases htmp : tmp = []
    · rw [if_pos htmp] at hrun
      cases hrun
      rfl
    rw [if_neg htmp] at hrun
    obtain ⟨hstops, hall⟩ := h.resolve_left htmp
    obtain ⟨⟨e, t⟩, hbody, hleave⟩ := Option.bind_eq_some_iff.mp hrun
    unfold rawBody at hbody hall
    rw [run_bind] at hbody
    obtain ⟨⟨p, v⟩, hparse, hbody⟩ := Option.bind_eq_some_iff.mp hbody
    obtain rfl := hstops p v hparse
    cases hbody
    cases hleave
    have hcalls := (all_bind.mp hall).1
    exact (outside_tmpoff.quiet_parse hparse).keep
      (hcalls.imp fun tmp s h r s' hr => ih h hr) hparse

theorem tmpoff_restored : s.restored.tmpoff = -1 := by
  unfold Shell.restored
  split_ifs with h
  · exact h
  · rfl

/-- A call keeps it that nothing is kept. -/
def Clears (f : List u8 → Shell W → Option (ℤ × Shell W)) (tmp : List u8) (s : Shell W) : Prop :=
  s.tmpoff = -1 → ∀ r s', f tmp s = some (r, s') → s'.tmpoff = -1

/-- Behind `__end` nothing is kept. -/
theorem tmpoff_end {grep : Bool} {next : Option (List u8)} {tmpbsz : Option ℕ} {ret : ℤ}
    (hall : (restoreSeek >>= fun _ => afterEnd env grep next tmpbsz >>= fun _ =>
      pure (Exit.done ret)).All f (Clears f) s)
    (hrun : (restoreSeek >>= fun _ => afterEnd env grep next tmpbsz >>= fun _ =>
      pure (Exit.done ret)).run f s = some (e, s')) : s'.tmpoff = -1 := by
  have houtside : Outside fun s : Shell W => s.tmpoff = -1 := fun _ _ => rfl
  have hcalls := (all_bind.mp ((all_bind.mp hall).2 () s.restored run_restoreSeek)).1
  rw [run_bind_of run_restoreSeek, run_bind] at hrun
  obtain ⟨⟨_, t⟩, hafter, hrun⟩ := Option.bind_eq_some_iff.mp hrun
  cases hrun
  exact (houtside.afterEnd grep next tmpbsz s.restored).invariant tmpoff_restored hcalls hafter

/-- **A call that comes to its end leaves nothing kept**, if those in its run
do: it takes what the call it is in has kept. -/
theorem tmpoff_of_reachesEnd (h : EveryCall env (ReachesEnd env) n tmp s) (htmp : tmp ≠ [])
    (hrun : radareCmdRaw env n tmp s = some (r, s')) : s'.tmpoff = -1 := by
  induction n generalizing tmp s r s' with
  | zero => cases hrun
  | succ n ih =>
    have hclears : ∀ tmp s, EveryCall env (ReachesEnd env) n tmp s →
        Clears (radareCmdRaw env n) tmp s := by
      intro tmp s h hs r s' hr
      by_cases htmp : tmp = []
      · cases n with
        | zero => cases hr
        | succ n =>
          rw [radareCmdRaw, if_pos htmp] at hr
          cases hr
          exact hs
      · exact ih h htmp hr
    rw [radareCmdRaw, if_neg htmp] at hrun
    obtain ⟨hend, hall⟩ := h.resolve_left htmp
    obtain ⟨⟨e, t⟩, hbody, hleave⟩ := Option.bind_eq_some_iff.mp hrun
    unfold rawBody at hbody hall
    rw [run_bind] at hbody
    obtain ⟨⟨p, v⟩, hparse, hbody⟩ := Option.bind_eq_some_iff.mp hbody
    have hcalls := ((all_bind.mp hall).2 p v hparse).imp hclears
    obtain ⟨hmissing, hopen⟩ := hend p v hparse
    have ht : t.tmpoff = -1 := by
      unfold runParsed at hbody hcalls
      cases p with
      | missingFinal => exact absurd rfl hmissing
      | cannotOpen => exact absurd rfl hopen
      | unfinished =>
        cases hbody
        cases hleave
      | leave ret => exact tmpoff_end hcalls hbody
      | line l =>
        dsimp only at hbody
        rw [run_bind] at hbody
        obtain ⟨⟨ran, w⟩, hran, hbody⟩ := Option.bind_eq_some_iff.mp hbody
        exact tmpoff_end ((all_bind.mp hcalls).2 ran w hran) hbody
    exact (leave_spec hleave).2.trans ht

/-- **What is still keeps the seek**, if the calls in its run are scoped. -/
theorem Still.keep {α : Type} {p : Raw W α} {x : α} (h : Still env n p s)
    (hscoped : p.All (radareCmdRaw env n) (EveryCall env (Scoped env) n) s)
    (hrun : p.run (radareCmdRaw env n) s = some (x, s')) : s'.seek = s.seek := by
  refine h.1.keep ((h.2.and hscoped).imp ?_) hrun
  rintro tmp t ⟨haddr | hkeep, hall⟩ r t' hr
  · cases n with
    | zero => cases haddr
    | succ n =>
      obtain ⟨htmp, hstart⟩ := haddr
      obtain ⟨st, hst⟩ := Option.isSome_iff_exists.mp hstart
      exact ((hall.resolve_left htmp).1 st hst).2 r t' hr
  · exact hkeep r t' hr

theorem Back.keep {α : Type} {p : Raw W α} {x : α} (h : Back env n p s)
    (hscoped : p.All (radareCmdRaw env n) (EveryCall env (Scoped env) n) s)
    (hrun : p.run (radareCmdRaw env n) s = some (x, s')) : s'.seek = s.seek := by
  rcases h with hstill | hback
  · exact hstill.keep hscoped hrun
  · exact hback x s' hrun

/-! ## Every level -/

/-- Where a command starts: at the address that is read, with the seek kept. -/
theorem start_spec {st : Start W} (h : Undisturbed env n tmp s st)
    (hseekTo : (seekTo env st.call.ptr).run (radareCmdRaw env n) t = some (st.addr, st.shell)) :
    st.shell.seek = st.addr ∧ st.shell.tmpoff = t.seek := by
  obtain ⟨addr, v, w, hrun, hv⟩ := run_seekTo env (radareCmdRaw env n) t st.call.ptr
  obtain ⟨haddr, hshell⟩ := Prod.mk.inj (Option.some.inj (hseekTo.symm.trans hrun))
  rw [← haddr] at hv
  have hvaddr : st.shell.session.state.config.vaddr = w.config.vaddr := by
    rw [hshell, hv]
    exact congrArg Radare.Core.vaddr (core_radareRead false)
  have hseek : st.shell.seek = seekAt w.config.vaddr st.addr := by
    rw [hshell, Shell.seek, hv]
    exact seek_radareRead
  rw [hseek, hshell]
  refine ⟨?_, rfl⟩
  have hbelow := h.below
  rw [hvaddr] at hbelow
  rw [seekAt, if_neg h.addr_ne]
  exact rebase_eq_self_iff.mpr hbelow

/-- What the end of a call with an address puts back. -/
theorem seek_atAddress {st : Start W} (h : Undisturbed env n tmp s st)
    (hkept : st.shell.tmpoff = s.seek)
    (hall : (atAddress env st.call).All (radareCmdRaw env n) (EveryCall env (Scoped env) n)
      st.shell)
    (hrun : (atAddress env st.call).run (radareCmdRaw env n) st.shell = some (e, s')) :
    s'.seek = s.seek := by
  unfold atAddress at hrun hall
  rw [run_bind] at hrun
  obtain ⟨⟨ret, x⟩, hcommand, hrun⟩ := Option.bind_eq_some_iff.mp hrun
  -- no call of the command has taken the seek
  have htmpoff : x.tmpoff = s.seek := by
    have hcalls : (command env st.call.cmd).All (radareCmdRaw env n) (fun tmp s => ∀ r s',
        radareCmdRaw env n tmp s = some (r, s') → s'.tmpoff = s.tmpoff) st.shell :=
      h.alone.imp fun tmp s h r s' hr => tmpoff_of_stops h hr
    exact ((outside_tmpoff.command st.shell).keep hcalls hcommand).trans hkept
  have hrestored : x.restored.seek = s.seek := by
    rw [Shell.restored, if_neg (htmpoff ▸ h.seek_ne)]
    exact htmpoff
  have hrest := (all_bind.mp ((all_bind.mp hall).2 ret x hcommand)).2 () x.restored run_restoreSeek
  dsimp only at hrun
  rw [run_bind_of run_restoreSeek, run_bind] at hrun
  obtain ⟨⟨_, y⟩, hafter, hrun⟩ := Option.bind_eq_some_iff.mp hrun
  cases hrun
  exact ((h.after ret x hcommand).keep (all_bind.mp hrest).1 hafter).trans hrestored

/-- **A call whose calls are scoped is.** -/
theorem Undisturbed.scoped {st : Start W} (h : Undisturbed env n tmp s st)
    (hst : start env n tmp s = some st) (htmp : tmp ≠ [])
    (hall : (rawBody env n tmp).All (radareCmdRaw env n) (EveryCall env (Scoped env) n) s.entered) :
    st.shell.seek = st.addr ∧
      ∀ r s', radareCmdRaw env (n + 1) tmp s = some (r, s') → s'.seek = s.seek := by
  obtain ⟨t, happroach, hseekTo⟩ := start_eq_some hst
  obtain ⟨hbefore, hrest⟩ := all_rawBody hall
  obtain ⟨hstarts, htmpoff⟩ := start_spec h hseekTo
  have hkept : t.seek = s.seek := h.before.keep hbefore happroach
  refine ⟨hstarts, fun r s' hrun => ?_⟩
  rw [radareCmdRaw, if_neg htmp, run_rawBody happroach, run_bind_of hseekTo] at hrun
  obtain ⟨⟨e, x⟩, hat, hleave⟩ := Option.bind_eq_some_iff.mp hrun
  have hcalls := (all_bind.mp (hrest st.call t happroach)).2 _ _ hseekTo
  have hx : x.seek = s.seek := seek_atAddress h (htmpoff.trans hkept) hcalls hat
  exact (leave_spec hleave).1.trans hx

/-- So are the calls in a run, if each is undisturbed or has no address. -/
theorem scoped_of_meets (h : EveryCall env (Meets env) n tmp s) :
    EveryCall env (Scoped env) n tmp s := by
  induction n generalizing tmp s with
  | zero => trivial
  | succ n ih =>
    refine or_iff_not_imp_left.mpr fun htmp => ?_
    obtain ⟨hmeets, hall⟩ := h.resolve_left htmp
    have hscoped := hall.imp fun tmp s h => ih h
    exact ⟨fun st hst => (hmeets st hst).scoped hst htmp hscoped, hscoped⟩

/-- A command with an address, which another prints with an address of its
own: `x @` and, between backquotes, `v @ 0x30`. -/
def substitution : List u8 := [120, 32, 64, 32, 96, 118, 32, 64, 32, 48, 120, 51, 48, 96]

theorem meets_substitution : EveryCall printing (Meets printing) 3 substitution started := by
  have hinner : EveryCall printing (Meets printing) 2 [118, 32, 64, 32, 48, 120, 51, 48]
      started.entered := by
    refine Or.inr ⟨fun st hst => ?_, trivial⟩
    obtain rfl := Option.some.inj (hst.symm.trans (rfl : _ = some _))
    refine ⟨by decide, Or.inl ⟨trivial, trivial⟩, by decide, Or.inl rfl, trivial, ?_⟩
    exact fun _ _ _ => Or.inl ⟨⟨rfl, trivial⟩, trivial⟩
  have haddr : HasAddress printing 2 [118, 32, 64, 32, 48, 120, 51, 48] started.entered :=
    ⟨List.cons_ne_nil _ _, rfl⟩
  refine Or.inr ⟨fun st hst => ?_, hinner, of_returns rfl trivial⟩
  obtain rfl := Option.some.inj (hst.symm.trans (rfl : _ = some _))
  have hquiet : (approach printing 2 substitution).Quiet (radareCmdRaw printing 2) Shell.seek
      started.entered := ⟨rfl, rfl, of_returns rfl ⟨rfl, rfl, trivial⟩⟩
  refine ⟨by decide, Or.inl ⟨hquiet, Or.inl haddr, of_returns rfl trivial⟩, by decide, Or.inl rfl,
    trivial, ?_⟩
  exact fun _ _ _ => Or.inl ⟨⟨rfl, trivial⟩, trivial⟩

/-- A macro of one line, `x @ 0x20`. -/
def nested : CmdEnv Unit :=
  { printing with
    radareMacroCall := fun _ => do
      let _ ← radareCmd printing [120, 32, 64, 32, 48, 120, 50, 48]
      pure () }

/-- `.(m) @ 0x10`. -/
def callMacro : List u8 := [46, 40, 109, 41, 32, 64, 32, 48, 120, 49, 48]

end Cmd

end Radare
