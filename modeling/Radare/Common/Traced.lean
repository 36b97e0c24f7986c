import Radare.Common.Prog
/-!
# Runs with an account

A run that may be cut short gives an account of what it has done, and its result if it
gets there (`Traced`). Of a run is said that all in its account is of a kind, and its
result is such (`Traced.Sat`), and this is put together as the run is.

A program whose calls are runs of this sort is one (`Prog.trace`).
-/

namespace Radare

namespace Common

/-- An account, and the result of a run that is not cut short. -/
structure Traced (T α : Type) where
  log : List T
  result : Option α

namespace Traced

variable {T α β : Type} {P P' : T → Prop} {C D : α → Prop} {E : β → Prop}

/-- One run behind another, if that gets there. -/
def bind (x : Traced T α) (f : α → Traced T β) : Traced T β :=
  match x.result with
  | none => ⟨x.log, none⟩
  | some a => ⟨x.log ++ (f a).log, (f a).result⟩

instance : Monad (Traced T) where
  pure a := ⟨[], some a⟩
  bind := bind

/-- An entry of the account. -/
def tell (t : T) : Traced T Unit := ⟨[t], some ()⟩

/-- A step without an entry. -/
def lift (o : Option α) : Traced T α := ⟨[], o⟩

@[simp] theorem result_pure (a : α) : (pure a : Traced T α).result = some a := rfl

@[simp] theorem result_lift (o : Option α) : (lift o : Traced T α).result = o := rfl

theorem result_bind (x : Traced T α) (f : α → Traced T β) :
    (x >>= f).result = x.result.bind fun a => (f a).result := by
  change (x.bind f).result = _
  rw [bind]
  cases x.result <;> rfl

/-- All in the account of a run is of a kind, and so is its result. -/
structure Sat (P : T → Prop) (C : α → Prop) (x : Traced T α) : Prop where
  log : ∀ t ∈ x.log, P t
  result : ∀ a, x.result = some a → C a

namespace Sat

variable {x : Traced T α} {f : α → Traced T β} {t : T}

theorem pure {a : α} (h : C a) : Sat P C (pure a : Traced T α) :=
  ⟨fun _ ht => absurd ht List.not_mem_nil, fun _ heq => Option.some.inj heq ▸ h⟩

theorem tell {C : Unit → Prop} (ht : P t) (h : C ()) : Sat P C (tell t) :=
  ⟨fun _ hmem => List.mem_singleton.mp hmem ▸ ht, fun _ _ => h⟩

theorem lift {o : Option α} (h : ∀ a, o = some a → C a) : Sat P C (lift o : Traced T α) :=
  ⟨fun _ ht => absurd ht List.not_mem_nil, h⟩

theorem bind (hx : Sat P C x) (hf : ∀ a, C a → Sat P E (f a)) : Sat P E (x >>= f) := by
  change Sat P E (x.bind f)
  rw [Traced.bind]
  cases hres : x.result with
  | none => exact ⟨hx.log, fun _ h => absurd h.symm (Option.some_ne_none _)⟩
  | some a =>
    have hfa := hf a (hx.result a hres)
    exact ⟨fun t ht => (List.mem_append.mp ht).elim (hx.log t) (hfa.log t), hfa.result⟩

theorem mono (hx : Sat P C x) (hP : ∀ t, P t → P' t) (hC : ∀ a, C a → D a) : Sat P' D x :=
  ⟨fun t ht => hP t (hx.log t ht), fun a ha => hC a (hx.result a ha)⟩

end Sat

end Traced

namespace Prog

variable {S P A R T M α : Type} {f : A → S → Traced T (R × S)} {s : S} {μ : S → M}
  {K : T → Prop}

/-- The run of a program, with the account of its calls. -/
def trace (f : A → S → Traced T (R × S)) : Prog S A R α → S → Traced T (α × S)
  | ret x, s => pure (x, s)
  | get k, s => (k s).trace f s
  | set s p, _ => p.trace f s
  | call a k, s => do
    let (r, s) ← f a s
    (k r).trace f s

/-- Its result is that of the run. -/
theorem result_trace (p : Prog S A R α) (s : S) :
    (p.trace f s).result = p.run (fun a s => (f a s).result) s := by
  induction p generalizing s with
  | ret x => rfl
  | get k ih => exact ih s s
  | set t p ih => exact ih t
  | call a k ih =>
    rw [trace, Traced.result_bind, run]
    exact Option.bind_congr fun r _ => ih r.1 r.2

/-- **A program on another part of the state keeps what all its calls keep**, and its account
is theirs. -/
theorem sat_lift {c : M} (view : S → P) {put : P → S → S} (hput : ∀ p s, μ (put p s) = μ s)
    (hf : ∀ a s, μ s = c → (f a s).Sat K fun r => μ r.2 = c) (q : Prog P A R α) (hs : μ s = c) :
    ((q.lift view put).trace f s).Sat K fun r => μ r.2 = c := by
  induction q generalizing s with
  | ret x => exact Traced.Sat.pure hs
  | get k ih => exact ih (view s) hs
  | set p q ih => exact ih ((hput p s).trans hs)
  | call a k ih => exact (hf a s hs).bind fun r hr => ih r.1 hr

end Prog

end Common

end Radare
