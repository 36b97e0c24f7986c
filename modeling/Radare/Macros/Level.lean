import Radare.Common.Traced
import Radare.Macros.Frame
/-!
# The level of macro calls

`macro_level` goes up at the start of `radare_macro_call`, and down at each of its five
returns. Here the calls are as in the source, with an account of the values it takes. It is
the same after a call as before (`sat_levelCall`), so a call in another is one level up, and
none is further in than the limit.
-/

namespace Radare

open Common

variable {W : Type} {env : MacroEnv W} {call : List u8 → MacroWorld W → Traced ℕ (ℤ × MacroWorld W)}
  {args str : List u8} {fuel nargs : ℕ} {labels : List MacroLabel} {ptr : ℕ × ℕ} {ended : Option ℕ}
  {s s' : MacroWorld W}

/-! ## Calls with an account of the level -/

/-- The loop of `radare_macro_call`, with the account of the calls in it. -/
def levelLoop (env : MacroEnv W) (call : List u8 → MacroWorld W → Traced ℕ (ℤ × MacroWorld W))
    (args : List u8) :
    ℕ → List MacroLabel → ℕ × ℕ → Option ℕ → MacroWorld W → Traced ℕ (LoopEnd × MacroWorld W)
  | 0, _, _, _, _ => Traced.lift none
  | fuel + 1, labels, ptr, ended, s => do
    let s := s.poke ptr.1 ended 0
    let turn := s.turn env labels ptr ended.isSome
    let s := { s with turns := s.turns ++ [turn] }
    let (ptr2, labels) ← Traced.lift (macroLabelProcess env turn)
    match ptr2 with
    | none => pure (.oops labels, s)
    | some ptr2 =>
      if ptr ≠ ptr2 ∧ ended.isSome then
        let s := s.poke ptr.1 ended 10
        if s.macroBreak then pure (.broken, s)
        else levelLoop env call args fuel labels ptr2 (s.newline ptr2) s
      else
        let cmd := if cstr turn.mem = [] then pure () else radareCmdArgs env (cstr turn.mem) args
        let (_, s) ← (cmd.lift (fun s : MacroWorld W => (s.world, s.macroBreak))
          fun p s => { s with world := p.1, macroBreak := p.2 }).trace call s
        match ended with
        | none => pure (.returned, s)
        | some e =>
          let s := s.poke ptr.1 ended 10
          let ptr := (ptr.1, e + 1)
          if s.macroBreak then pure (.broken, s)
          else levelLoop env call args fuel labels ptr (s.newline ptr) s

/-- `macro_level --`, and `return`. -/
def levelReturn (r : ℤ) (s : MacroWorld W) : Traced ℕ (ℤ × MacroWorld W) := do
  Traced.tell (s.macroLevel - 1)
  pure (r, { s with macroLevel := s.macroLevel - 1 })

/-- The macros of a name, from one on, to the return. -/
def levelFind (env : MacroEnv W) (call : List u8 → MacroWorld W → Traced ℕ (ℤ × MacroWorld W))
    (fuel : ℕ) (str args : List u8) (nargs : ℕ) :
    List ℕ → List MacroLabel → MacroWorld W → Traced ℕ (ℤ × MacroWorld W)
  | [], _, s => levelReturn 0 s
  | i :: rest, labels, s =>
    match s.macros[i]? with
    | none => Traced.lift none
    | some mac =>
      if mac.name = str then
        if mac.nargs ≠ 0 ∧ nargs ≠ mac.nargs then levelReturn 0 s
        else do
          let ptr := (i, 0)
          let s := { s with macroBreak := false }
          let (stop, s) ← levelLoop env call args fuel labels ptr (s.newline ptr) s
          match stop with
          | .returned => levelReturn 1 s
          | .broken => levelReturn 0 s
          | .oops labels =>
            if s.macroBreak then levelReturn 0 s
            else levelFind env call fuel str args nargs rest labels s
      else levelFind env call fuel str args nargs rest labels s

/-- `radare_macro_call`, with the values that `macro_level` takes. The account is also there
where the call does not return in `fuel` turns and calls. -/
def levelCall (env : MacroEnv W) : ℕ → List u8 → MacroWorld W → Traced ℕ (ℤ × MacroWorld W)
  | 0, _, _ => Traced.lift none
  | fuel + 1, name, s => do
    let text := name.takeWhile (· ≠ 41)
    let str := text.takeWhile (· ≠ 32)
    let (nargs, words) := if 32 ∈ text then set0word (text.drop (str.length + 1)) else (0, [])
    let s := { s with macroLevel := s.macroLevel + 1 }
    Traced.tell s.macroLevel
    if s.macroLevel > macroLimit then levelReturn 0 s
    else
      levelFind env (levelCall env fuel) fuel str (words ++ [0]) nargs
        (List.range s.macros.length).reverse [] s

/-! ## The calls are the same -/

theorem result_levelLoop :
    (levelLoop env call args fuel labels ptr ended s).result =
      macroLoop env (fun a s => (call a s).result) args fuel labels ptr ended s := by
  induction fuel generalizing labels ptr ended s with
  | zero => rfl
  | succ fuel ih =>
    rw [levelLoop, macroLoop]
    dsimp only
    rw [Traced.result_bind]
    refine Option.bind_congr fun p _ => ?_
    obtain ⟨ptr2, labels'⟩ := p
    cases ptr2 with
    | none => rfl
    | some ptr2 =>
      dsimp only
      split_ifs with hjump hbreak
      · rfl
      · exact ih
      all_goals
        rw [Traced.result_bind, Prog.result_trace]
        refine Option.bind_congr fun p _ => ?_
        cases ended with
        | none => rfl
        | some e =>
          dsimp only
          split_ifs with hbreak
          · rfl
          · exact ih

theorem result_levelFind (is : List ℕ) :
    (levelFind env call fuel str args nargs is labels s).result =
      (macroFind env (fun a s => (call a s).result) fuel str args nargs is labels s).map
        fun p => (p.1, { p.2 with macroLevel := p.2.macroLevel - 1 }) := by
  induction is generalizing labels s with
  | nil => rfl
  | cons i is ih =>
    rw [levelFind, macroFind]
    cases s.macros[i]? with
    | none => rfl
    | some mac =>
      dsimp only
      split_ifs with hname hnargs
      · rfl
      · rw [Traced.result_bind, result_levelLoop, Option.bind_eq_bind, Option.map_bind]
        refine Option.bind_congr fun p _ => ?_
        obtain ⟨stop, s₁⟩ := p
        cases stop with
        | returned => rfl
        | broken => rfl
        | oops labels' =>
          dsimp only [Function.comp_apply]
          split_ifs with hbreak
          · rfl
          · exact ih
      · exact ih

/-- **The call is `radare_macro_call` as it was run before.** -/
theorem result_levelCall (fuel : ℕ) (name : List u8) (s : MacroWorld W) :
    (levelCall env fuel name s).result = radareMacroCall env fuel name s := by
  induction fuel generalizing name s with
  | zero => rfl
  | succ fuel ih =>
    have hcall : (fun a s => (levelCall env fuel a s).result) = radareMacroCall env fuel :=
      funext fun a => funext fun s => ih a s
    rw [levelCall, radareMacroCall]
    dsimp only
    rw [Traced.result_bind]
    change Traced.result _ = _
    by_cases hlimit : s.macroLevel + 1 > macroLimit
    · rw [if_pos hlimit, if_pos hlimit]
      rfl
    · rw [if_neg hlimit, if_neg hlimit, result_levelFind, hcall]

/-! ## The level -/

variable {K : ℕ → Prop} {c : ℕ}

theorem macroLevel_poke (i : ℕ) (o : Option ℕ) (ch : u8) :
    (s.poke i o ch).macroLevel = s.macroLevel := by
  cases o <;> rfl

/-- The loop keeps the level, if the calls in it do. -/
theorem sat_levelLoop
    (hcall : ∀ a s, s.macroLevel = c → (call a s).Sat K fun p => p.2.macroLevel = c)
    (hs : s.macroLevel = c) :
    (levelLoop env call args fuel labels ptr ended s).Sat K fun p => p.2.macroLevel = c := by
  induction fuel generalizing labels ptr ended s with
  | zero => exact .lift fun _ h => absurd h.symm (Option.some_ne_none _)
  | succ fuel ih =>
    have hpoke : ∀ {s : MacroWorld W} {o ch}, s.macroLevel = c →
        (s.poke ptr.1 o ch).macroLevel = c := fun h => (macroLevel_poke ..).trans h
    rw [levelLoop]
    dsimp only
    refine .bind (C := fun _ => True) (.lift fun _ _ => trivial) fun p _ => ?_
    obtain ⟨ptr2, labels'⟩ := p
    cases ptr2 with
    | none => exact .pure (hpoke hs)
    | some ptr2 =>
      dsimp only
      split
      · split
        · exact .pure (hpoke (hpoke hs))
        · exact ih (hpoke (hpoke hs))
      · refine .bind (C := fun p => p.2.macroLevel = c) (Prog.sat_lift (μ := MacroWorld.macroLevel)
          _ ?_ hcall _ ?_) fun p hp => ?_
        · exact fun _ _ => rfl
        · exact hpoke hs
        cases ended with
        | none => exact .pure hp
        | some e =>
          dsimp only
          split
          · exact .pure (hpoke hp)
          · exact ih (hpoke hp)

/-- A return takes the level down. -/
theorem sat_levelReturn {r : ℤ} (hs : s.macroLevel = c + 1) (hc : K c) :
    (levelReturn r s).Sat K fun p => p.2.macroLevel = c := by
  have hlevel : s.macroLevel - 1 = c := by omega
  exact .bind (C := fun _ => True) (.tell (hlevel ▸ hc) trivial) fun _ _ => .pure hlevel

/-- So do all that the macros of a name come to. -/
theorem sat_levelFind
    (hcall : ∀ a s, s.macroLevel = c + 1 → (call a s).Sat K fun p => p.2.macroLevel = c + 1)
    (hc : K c) {is : List ℕ} (hs : s.macroLevel = c + 1) :
    (levelFind env call fuel str args nargs is labels s).Sat K fun p => p.2.macroLevel = c := by
  induction is generalizing labels s with
  | nil => exact sat_levelReturn hs hc
  | cons i is ih =>
    rw [levelFind]
    cases s.macros[i]? with
    | none => exact .lift fun _ h => absurd h.symm (Option.some_ne_none _)
    | some mac =>
      dsimp only
      split
      · split
        · exact sat_levelReturn hs hc
        · refine (sat_levelLoop hcall (s := { s with macroBreak := false }) hs).bind fun p hp => ?_
          obtain ⟨stop, s₁⟩ := p
          cases stop with
          | returned => exact sat_levelReturn hp hc
          | broken => exact sat_levelReturn hp hc
          | oops labels' =>
            dsimp only
            split
            · exact sat_levelReturn hp hc
            · exact ih hp
      · exact ih hs

/-- **A call leaves the level as it was**, and in between it is one higher, or no higher than
one over the limit. -/
theorem sat_levelCall (fuel : ℕ) (name : List u8) (s : MacroWorld W) :
    (levelCall env fuel name s).Sat (· ≤ max s.macroLevel macroLimit + 1)
      fun p => p.2.macroLevel = s.macroLevel := by
  induction fuel generalizing name s with
  | zero => exact .lift fun _ h => absurd h.symm (Option.some_ne_none _)
  | succ fuel ih =>
    rw [levelCall]
    have henter : s.macroLevel + 1 ≤ max s.macroLevel macroLimit + 1 := by omega
    refine .bind (C := fun _ => True) (.tell henter trivial) fun _ _ => ?_
    split
    · exact sat_levelReturn rfl (by omega)
    · rename_i hlimit
      refine sat_levelFind (fun a t ht => (ih a t).mono (fun n hn => ?_) fun p hp => ?_) (by omega)
        rfl
      · -- the calls in this one are made within the limit
        have hlimit' : s.macroLevel + 1 ≤ macroLimit := Nat.le_of_not_gt hlimit
        omega
      · exact hp.trans ht

/-! ## Every call -/

/-- What the program comes to with macros: `macro_level` is 0 to start with, and nothing but
the calls has it. -/
inductive MacroSession (env : MacroEnv W) : MacroWorld W → Prop
  | start (s : MacroWorld W) (hs : s.macroLevel = 0) : MacroSession env s
  | other {s : MacroWorld W} (hs : MacroSession env s) (s' : MacroWorld W)
      (hlevel : s'.macroLevel = s.macroLevel) : MacroSession env s'
  | call {s s' : MacroWorld W} {r : ℤ} (hs : MacroSession env s) (fuel : ℕ) (name : List u8)
      (hcall : (levelCall env fuel name s).result = some (r, s')) : MacroSession env s'

theorem MacroSession.level (hs : MacroSession env s) : s.macroLevel = 0 := by
  induction hs with
  | start s hs => exact hs
  | other _ s' hlevel ih => exact hlevel.trans ih
  | @call s s' r _ fuel name hcall ih =>
    exact ((sat_levelCall fuel name s).result (r, s') hcall).trans ih

/-- **The recursion guard.** Every call leaves `macro_level` as it was, at whatever level it is
made, and in those that the program makes, with all the calls in them, it is never over
`MACRO_LIMIT + 1`. -/
theorem macro_level_guard (env : MacroEnv W) :
    (∀ fuel name s r s', (levelCall env fuel name s).result = some (r, s') →
      s'.macroLevel = s.macroLevel) ∧
    ∀ s, MacroSession env s → ∀ fuel name, ∀ n ∈ (levelCall env fuel name s).log,
      n ≤ macroLimit + 1 := by
  refine ⟨fun fuel name s r s' h => (sat_levelCall fuel name s).result (r, s') h,
    fun s hs fuel name n hn => ?_⟩
  have hle := (sat_levelCall fuel name s).log n hn
  rw [hs.level] at hle
  omega

/-- A call of a macro with one line. -/
theorem macro_level_guard_line :
    let run := levelCall idleEnv 4 [102, 41] (oneMacro [97, 10])
    run.log = [1, 0] ∧ (∀ n ∈ run.log, n ≤ macroLimit + 1) ∧
      ∃ s', run.result = some (1, s') ∧ s'.macroLevel = (oneMacro [97, 10]).macroLevel :=
  ⟨rfl, (macro_level_guard idleEnv).2 _ (.start _ rfl) 4 _,
    _, rfl, (macro_level_guard idleEnv).1 4 [102, 41] _ 1 _ rfl⟩

end Radare
