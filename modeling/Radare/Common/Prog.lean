import Mathlib.Data.Int.Notation
import Mathlib.Tactic.Common
/-!
# Programs that call each other

A program reads and writes a state and calls a function, again and again,
until it returns (`Prog`). What it does is known once the function is
(`Prog.run`), so that a recursive function is one program run with itself
in fewer levels of calls.

What a program does not write (`Prog.Quiet`) it keeps, if its calls do
(`Prog.Quiet.keep`). A counter that no call lowers it does not lower, and
keeps exactly if every call in the run keeps it (`Prog.Quiet.run`).
-/

namespace Radare

namespace Common

/-- A program on a state, with calls of a function. -/
inductive Prog (S A R α : Type) : Type where
  | ret (x : α)
  | get (k : S → Prog S A R α)
  | set (s : S) (p : Prog S A R α)
  | call (a : A) (k : R → Prog S A R α)

namespace Prog

variable {S P A R M α β : Type}

/-- One program behind another. -/
def bind : Prog S A R α → (α → Prog S A R β) → Prog S A R β
  | ret x, f => f x
  | get k, f => get fun s => (k s).bind f
  | set s p, f => set s (p.bind f)
  | call a k, f => call a fun r => (k r).bind f

instance : Monad (Prog S A R) where
  pure := ret
  bind := bind

private theorem bind_ret (p : Prog S A R α) : p.bind ret = p := by
  induction p with
  | ret x => rfl
  | get k ih => exact congrArg get (funext ih)
  | set s p ih => exact congrArg (set s) ih
  | call a k ih => exact congrArg (call a) (funext ih)

private theorem bind_bind {γ : Type} (p : Prog S A R α) (k : α → Prog S A R β)
    (l : β → Prog S A R γ) : (p.bind k).bind l = p.bind fun x => (k x).bind l := by
  induction p with
  | ret x => rfl
  | get k' ih => exact congrArg get (funext ih)
  | set s p ih => exact congrArg (set s) ih
  | call a k' ih => exact congrArg (call a) (funext ih)

instance : LawfulMonad (Prog S A R) :=
  LawfulMonad.mk' _ bind_ret (fun _ _ => rfl) bind_bind

/-- The state. -/
def read : Prog S A R S := get ret

/-- Another state. -/
def write (s : S) : Prog S A R Unit := set s (ret ())

/-- A call. -/
def invoke (a : A) : Prog S A R R := call a ret

/-- A program on a part of the state. -/
def lift (view : S → P) (put : P → S → S) : Prog P A R α → Prog S A R α
  | ret x => ret x
  | get k => get fun s => (k (view s)).lift view put
  | set p q => get fun s => set (put p s) (q.lift view put)
  | call a k => call a fun r => (k r).lift view put

/-! ## Runs -/

/-- The run of a program, if every call in it returns. -/
def run (f : A → S → Option (R × S)) : Prog S A R α → S → Option (α × S)
  | ret x, s => some (x, s)
  | get k, s => (k s).run f s
  | set s p, _ => p.run f s
  | call a k, s => (f a s).bind fun (r, s') => (k r).run f s'

/-- Every call in the run has a property, where it is made. -/
def All (f : A → S → Option (R × S)) (Q : A → S → Prop) : Prog S A R α → S → Prop
  | ret _, _ => True
  | get k, s => (k s).All f Q s
  | set s p, _ => p.All f Q s
  | call a k, s => Q a s ∧ ∀ r s', f a s = some (r, s') → (k r).All f Q s'

variable {f : A → S → Option (R × S)} {Q Q' : A → S → Prop} {p : Prog S A R α}
variable {k : α → Prog S A R β} {s s' : S} {x : α}

theorem run_bind : (p >>= k).run f s = (p.run f s).bind fun (x, s') => (k x).run f s' := by
  change (p.bind k).run f s = _
  induction p generalizing s with
  | ret x => rfl
  | get k ih => exact ih s
  | set s p ih => exact ih
  | call a k ih =>
    simp only [bind, run, Option.bind_assoc]
    exact congrArg _ (funext fun r => ih r.1)

theorem run_bind_of (h : p.run f s = some (x, s')) : (p >>= k).run f s = (k x).run f s' := by
  rw [run_bind, h]
  rfl

/-- A call returns once. -/
theorem of_returns {a : A} {r : R} {C : R → S → Prop} (h : f a s = some (r, s')) (hc : C r s') :
    ∀ r' t, f a s = some (r', t) → C r' t := by
  intro r' t ht
  obtain ⟨rfl, rfl⟩ := Prod.mk.inj (Option.some.inj (h.symm.trans ht))
  exact hc

/-- The calls of a program that starts with one that returns. -/
theorem all_call {a : A} {k : R → Prog S A R α} {r : R} (h : f a s = some (r, s')) :
    (call a k).All f Q s ↔ Q a s ∧ (k r).All f Q s' :=
  and_congr_right fun _ =>
    ⟨fun hk => hk r s' h, of_returns (C := fun r t => (k r).All f Q t) h⟩

theorem all_bind :
    (p >>= k).All f Q s ↔ p.All f Q s ∧ ∀ x s', p.run f s = some (x, s') → (k x).All f Q s' := by
  change (p.bind k).All f Q s ↔ _
  induction p generalizing s with
  | ret x =>
    refine ⟨fun h => ⟨trivial, fun y s' hy => ?_⟩, fun h => h.2 x s rfl⟩
    obtain ⟨rfl, rfl⟩ := Prod.mk.inj (Option.some.inj hy)
    exact h
  | get k ih => exact ih s
  | set s p ih => exact ih
  | call a k ih =>
    simp only [bind, All, run, ih]
    constructor
    · rintro ⟨hq, h⟩
      refine ⟨⟨hq, fun r s' hr => (h r s' hr).1⟩, fun x s' hx => ?_⟩
      obtain ⟨⟨r, t⟩, hr, hx⟩ := Option.bind_eq_some_iff.mp hx
      exact (h r t hr).2 x s' hx
    · rintro ⟨⟨hq, h⟩, hk⟩
      refine ⟨hq, fun r s' hr => ⟨h r s' hr, fun x t hx => hk x t ?_⟩⟩
      rw [hr]
      exact hx

theorem All.imp (himp : ∀ a s, Q a s → Q' a s) (h : p.All f Q s) : p.All f Q' s := by
  induction p generalizing s with
  | ret x => trivial
  | get k ih => exact ih s h
  | set s p ih => exact ih h
  | call a k ih => exact ⟨himp a s h.1, fun r s' hr => ih r (h.2 r s' hr)⟩

theorem All.and (h : p.All f Q s) (h' : p.All f Q' s) :
    p.All f (fun a s => Q a s ∧ Q' a s) s := by
  induction p generalizing s with
  | ret x => trivial
  | get k ih => exact ih s h h'
  | set s p ih => exact ih h h'
  | call a k ih => exact ⟨⟨h.1, h'.1⟩, fun r s' hr => ih r (h.2 r s' hr) (h'.2 r s' hr)⟩

/-- A run is the same with a function that has more results. -/
theorem run_mono {f' : A → S → Option (R × S)}
    (hf : ∀ {a s r}, f a s = some r → f' a s = some r) (h : p.run f s = some (x, s')) :
    p.run f' s = some (x, s') := by
  induction p generalizing s with
  | ret y => exact h
  | get k ih => exact ih s h
  | set t p ih => exact ih h
  | call a k ih =>
    obtain ⟨⟨r, t⟩, hr, hx⟩ := Option.bind_eq_some_iff.mp h
    rw [run, hf hr]
    exact ih r hx

/-! ## What a program keeps -/

/-- What the program writes leaves a part of the state as it is. -/
def Quiet (f : A → S → Option (R × S)) (μ : S → M) : Prog S A R α → S → Prop
  | ret _, _ => True
  | get k, s => (k s).Quiet f μ s
  | set s' p, s => μ s' = μ s ∧ p.Quiet f μ s'
  | call a k, s => ∀ r s', f a s = some (r, s') → (k r).Quiet f μ s'

variable {μ : S → M}

theorem quiet_bind (hp : p.Quiet f μ s)
    (hk : ∀ x s', p.run f s = some (x, s') → (k x).Quiet f μ s') : (p >>= k).Quiet f μ s := by
  change (p.bind k).Quiet f μ s
  induction p generalizing s with
  | ret x => exact hk x s rfl
  | get k ih => exact ih s hp hk
  | set s p ih => exact ⟨hp.1, ih hp.2 hk⟩
  | call a k ih =>
    intro r s' hr
    refine ih r (hp r s' hr) fun x t hx => hk x t ?_
    rw [run, hr]
    exact hx

theorem quiet_lift (view : S → P) {put : P → S → S} (hput : ∀ p s, μ (put p s) = μ s)
    (q : Prog P A R α) : (q.lift view put).Quiet f μ s := by
  induction q generalizing s with
  | ret x => trivial
  | get k ih => exact ih (view s)
  | set p q ih => exact ⟨hput p s, ih⟩
  | call a k ih => exact fun r s' _ => ih r

/-- A program that is quiet wherever it is run. -/
def Calm (f : A → S → Option (R × S)) (μ : S → M) (p : Prog S A R α) : Prop :=
  ∀ s, p.Quiet f μ s

theorem calm_pure (x : α) : Calm f μ (pure x : Prog S A R α) := fun _ => trivial

theorem calm_read : Calm f μ (read : Prog S A R S) := fun _ => trivial

theorem calm_invoke (a : A) : Calm f μ (invoke a) := fun _ _ _ _ => trivial

theorem Calm.bind (hp : Calm f μ p) (hk : ∀ x, Calm f μ (k x)) : Calm f μ (p >>= k) :=
  fun s => quiet_bind (hp s) fun x s' _ => hk x s'

/-- **A run keeps what all its calls keep.** -/
theorem Quiet.keep (hp : p.Quiet f μ s)
    (hcalls : p.All f (fun a s => ∀ r s', f a s = some (r, s') → μ s' = μ s) s)
    (h : p.run f s = some (x, s')) : μ s' = μ s := by
  induction p generalizing s with
  | ret y =>
    obtain ⟨-, rfl⟩ := Prod.mk.inj (Option.some.inj h)
    rfl
  | get k ih => exact ih s hp hcalls h
  | set t p ih => exact (ih hp.2 hcalls h).trans hp.1
  | call a k ih =>
    obtain ⟨⟨r, t⟩, hr, hx⟩ := Option.bind_eq_some_iff.mp h
    exact (ih r (hp r t hr) (hcalls.2 r t hr) hx).trans (hcalls.1 r t hr)

/-- A run keeps an invariant that all its calls keep. -/
theorem Quiet.invariant {I : S → Prop} (hp : p.Quiet f I s) (hs : I s)
    (hcalls : p.All f (fun a s => I s → ∀ r s', f a s = some (r, s') → I s') s)
    (h : p.run f s = some (x, s')) : I s' := by
  induction p generalizing s with
  | ret y =>
    obtain ⟨-, rfl⟩ := Prod.mk.inj (Option.some.inj h)
    exact hs
  | get k ih => exact ih s hp hs hcalls h
  | set t p ih => exact ih hp.2 (hp.1 ▸ hs) hcalls h
  | call a k ih =>
    obtain ⟨⟨r, t⟩, hr, hx⟩ := Option.bind_eq_some_iff.mp h
    exact ih r (hp r t hr) (hcalls.1 hs r t hr) (hcalls.2 r t hr) hx

/-! ## Counters -/

variable {μ : S → ℤ}

/-- The calls do not lower the counter, and keep it exactly if they are of
a kind. -/
structure Counts (f : A → S → Option (R × S)) (μ : S → ℤ) (Q : A → S → Prop) : Prop where
  le : ∀ {a s r s'}, f a s = some (r, s') → μ s ≤ μ s'
  eq_iff : ∀ {a s r s'}, f a s = some (r, s') → (μ s' = μ s ↔ Q a s)

/-- Calls that do not lower it, by whether they keep it. -/
theorem counts_of_le (hle : ∀ {a s r s'}, f a s = some (r, s') → μ s ≤ μ s') :
    Counts f μ fun a s => ∃ r s', f a s = some (r, s') ∧ μ s' = μ s where
  le := hle
  eq_iff {a s r s'} h := by
    refine ⟨fun heq => ⟨r, s', h, heq⟩, ?_⟩
    rintro ⟨r', t, ht, heq⟩
    obtain ⟨-, rfl⟩ := Prod.mk.inj (Option.some.inj (ht.symm.trans h))
    exact heq

/-- **A run keeps the counter exactly if all its calls do.** -/
theorem Quiet.run (hp : p.Quiet f μ s) (hf : Counts f μ Q) (h : p.run f s = some (x, s')) :
    μ s ≤ μ s' ∧ (μ s' = μ s ↔ p.All f Q s) := by
  induction p generalizing s with
  | ret y =>
    obtain ⟨-, rfl⟩ := Prod.mk.inj (Option.some.inj h)
    exact ⟨Int.le_refl _, iff_of_true rfl trivial⟩
  | get k ih => exact ih s hp h
  | set t p ih =>
    obtain ⟨hle, hiff⟩ := ih hp.2 h
    rw [hp.1] at hle hiff
    exact ⟨hle, hiff⟩
  | call a k ih =>
    obtain ⟨⟨r, t⟩, hr, hx⟩ := Option.bind_eq_some_iff.mp h
    obtain ⟨hle, hiff⟩ := ih r (hp r t hr) hx
    have hle' := hf.le hr
    refine ⟨Int.le_trans hle' hle, ?_⟩
    rw [all_call hr, ← hf.eq_iff hr, ← hiff]
    -- both parts of the run raise it, or neither does
    omega

/-! ## Parts of the state -/

variable {I : S → Prop}

theorem lift_bind (view : S → P) (put : P → S → S) (q : Prog P A R α) (k : α → Prog P A R β) :
    (q >>= k).lift view put = q.lift view put >>= fun x => (k x).lift view put := by
  change (q.bind k).lift view put = (q.lift view put).bind _
  induction q with
  | ret x => rfl
  | get k ih => exact congrArg get (funext fun s => ih (view s))
  | set p q ih => exact congrArg get (funext fun s => congrArg (set (put p s)) ih)
  | call a k ih => exact congrArg (call a) (funext ih)

/-- A program whose calls return from the states of a kind, and lead to
such states, returns. -/
theorem lift_returns (view : S → P) (put : P → S → S) (hput : ∀ p s, I s → I (put p s))
    (hf : ∀ a s, I s → ∃ r s', f a s = some (r, s') ∧ I s') (q : Prog P A R α) (hs : I s) :
    ∃ x s', (q.lift view put).run f s = some (x, s') ∧ I s' := by
  induction q generalizing s with
  | ret x => exact ⟨x, s, rfl, hs⟩
  | get k ih => exact ih (view s) hs
  | set p q ih => exact ih (hput p s hs)
  | call a k ih =>
    obtain ⟨r, s', hr, hs'⟩ := hf a s hs
    obtain ⟨x, s'', hx, hs''⟩ := ih r hs'
    refine ⟨x, s'', ?_, hs''⟩
    rw [lift, run, hr]
    exact hx

/-- **A run with other calls** that do the same from the states of a kind, and
lead to such states. -/
theorem lift_run_congr {f' : A → S → Option (R × S)} (view : S → P) (put : P → S → S)
    (hput : ∀ p s, I s → I (put p s)) (hf : ∀ a s, I s → f a s = f' a s)
    (hkeep : ∀ a s r s', I s → f a s = some (r, s') → I s') (q : Prog P A R α) (hs : I s) :
    (q.lift view put).run f s = (q.lift view put).run f' s := by
  induction q generalizing s with
  | ret x => rfl
  | get k ih => exact ih (view s) hs
  | set p q ih => exact ih (hput p s hs)
  | call a k ih =>
    rw [lift, run, run, ← hf a s hs]
    cases hr : f a s with
    | none => rfl
    | some r => exact ih r.1 (hkeep a s r.1 r.2 hs hr)

/-! ## Programs without a state -/

variable {T : Type} {e : A → T → Option (R × T)} {g : A → S → Option (R × S)}
variable {L : S → T → Prop} {q : Prog Unit A R α} {t t' : T} {u u' : Unit} {y : α}

/-- A program without a state of its own, where there is one. -/
abbrev inside (q : Prog Unit A R α) : Prog S A R α := q.lift (fun _ => ()) fun _ s => s

theorem inside_bind (q : Prog Unit A R α) (k : α → Prog Unit A R β) :
    (inside (q >>= k) : Prog S A R β) = q.inside >>= fun x => (k x).inside :=
  lift_bind _ _ q k

/-- A program that makes no calls returns the same everywhere. -/
theorem inside_of_silent (h : q.run (fun _ _ => none) u = some (x, u')) :
    q.inside.run f s = some (x, s) := by
  induction q with
  | ret y =>
    obtain ⟨rfl, -⟩ := Prod.mk.inj (Option.some.inj h)
    rfl
  | get k ih => exact ih () h
  | set p q ih => exact ih h
  | call a k ih => cases h

/-- **A run goes as its calls go**, if going on is. -/
theorem inside_goes {Goes : S → S → Prop} (hrefl : ∀ s, Goes s s)
    (htrans : ∀ {s t u}, Goes s t → Goes t u → Goes s u)
    (hcalls : ∀ {a s r s'}, f a s = some (r, s') → Goes s s')
    (h : q.inside.run f s = some (x, s')) : Goes s s' := by
  induction q generalizing s with
  | ret y =>
    obtain ⟨-, rfl⟩ := Prod.mk.inj (Option.some.inj h)
    exact hrefl s
  | get k ih => exact ih () h
  | set p q ih => exact ih h
  | call a k ih =>
    obtain ⟨⟨r, t⟩, hr, hx⟩ := Option.bind_eq_some_iff.mp h
    exact htrans (hcalls hr) (ih r hx)

/-- **A run next to another**: if the calls return the same from states that
belong together, and lead to such states, so does the program. -/
theorem inside_run (hcalls : ∀ {a s t r s'}, L s t → g a s = some (r, s') →
      ∃ t', e a t = some (r, t') ∧ L s' t')
    (hst : L s t) (h : q.inside.run g s = some (x, s')) :
    ∃ t', q.inside.run e t = some (x, t') ∧ L s' t' := by
  induction q generalizing s t with
  | ret y =>
    obtain ⟨rfl, rfl⟩ := Prod.mk.inj (Option.some.inj h)
    exact ⟨t, rfl, hst⟩
  | get k ih => exact ih () hst h
  | set p q ih => exact ih hst h
  | call a k ih =>
    obtain ⟨⟨r, s₁⟩, hr, hx⟩ := Option.bind_eq_some_iff.mp h
    obtain ⟨t₁, ht, hst₁⟩ := hcalls hst hr
    obtain ⟨t', hrun, hst'⟩ := ih r hst₁ hx
    refine ⟨t', ?_, hst'⟩
    rw [inside, lift, run, ht]
    exact hrun

/-- And all calls of the second are of a kind exactly if the first returns, if
the calls of the first return exactly where those of the second are of it. -/
theorem inside_all_iff {Q : A → T → Prop} (hcalls : ∀ {a s t r s'}, L s t → g a s = some (r, s') →
      ∃ t', e a t = some (r, t') ∧ L s' t')
    (hQ : ∀ {a s t}, L s t → (Q a t ↔ (g a s).isSome)) (hst : L s t) :
    q.inside.All e Q t ↔ (q.inside.run g s).isSome := by
  induction q generalizing s t with
  | ret y => exact iff_of_true trivial rfl
  | get k ih => exact ih () hst
  | set p q ih => exact ih hst
  | call a k ih =>
    rw [inside, inside, lift, lift, run]
    cases hr : g a s with
    | none =>
      have hnot : ¬Q a t := by
        rw [hQ hst, hr]
        exact Bool.false_ne_true
      exact iff_of_false (fun h => hnot h.1) Bool.false_ne_true
    | some r =>
      have hcall : Q a t := by
        rw [hQ hst, hr]
        rfl
      obtain ⟨t₁, ht, hst₁⟩ := hcalls hst hr
      rw [all_call ht, and_iff_right hcall]
      exact ih r.1 hst₁

/-- **Two runs that return**, return the same if their calls do. -/
theorem inside_agree (hcalls : ∀ {a s t r s' r' t'}, L s t → g a s = some (r, s') →
      e a t = some (r', t') → r = r' ∧ L s' t')
    (hst : L s t) (h : q.inside.run g s = some (x, s')) (h' : q.inside.run e t = some (y, t')) :
    x = y ∧ L s' t' := by
  induction q generalizing s t with
  | ret z =>
    obtain ⟨rfl, rfl⟩ := Prod.mk.inj (Option.some.inj h)
    obtain ⟨rfl, rfl⟩ := Prod.mk.inj (Option.some.inj h')
    exact ⟨rfl, hst⟩
  | get k ih => exact ih () hst h h'
  | set p q ih => exact ih hst h h'
  | call a k ih =>
    obtain ⟨⟨r, s₁⟩, hr, hx⟩ := Option.bind_eq_some_iff.mp h
    obtain ⟨⟨r', t₁⟩, hr', hy⟩ := Option.bind_eq_some_iff.mp h'
    obtain ⟨rfl, hst₁⟩ := hcalls hst hr hr'
    exact ih r hst₁ hx hy

end Prog

end Common

end Radare
