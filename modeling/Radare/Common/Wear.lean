import Mathlib.Order.BoundedOrder.Basic
import Radare.Common.Prog
/-!
# Memory that wears

A memory wears if what is in its cells only gets less. A cell is borrowed by
clearing it, and given back by putting in it what was there
(`giveBack_le`); the memory is then what it was before exactly if it did not
wear while the cell was out (`giveBack_eq_iff`).

A run that keeps a log wears a memory if some entries of the log are faults,
and the memory is the same exactly if there are none (`Wear`). This goes
through one run after another (`Wear.trans`), through a run inside one that
has borrowed a cell (`Wear.borrow`), and through programs whose calls are
such (`Wear.lift_run`).
-/

namespace Radare

namespace Common

section Cells

variable {A V : Type} [DecidableEq A] [PartialOrder V] [OrderBot V] {m m' : A → V} {a : A}

theorem giveBack_le (h : m' ≤ Function.update m a ⊥) : Function.update m' a (m a) ≤ m := by
  rw [update_le_iff]
  refine ⟨le_refl _, fun b hb => ?_⟩
  have hle := h b
  rwa [Function.update_of_ne hb] at hle

/-- **A cell given back makes up for the loan**, if nothing else was lost
meanwhile. -/
theorem giveBack_eq_iff (h : m' ≤ Function.update m a ⊥) :
    Function.update m' a (m a) = m ↔ m' = Function.update m a ⊥ := by
  constructor
  · intro heq
    refine Function.eq_update_iff.mpr ⟨?_, fun b hb => ?_⟩
    · have hle := h a
      rw [Function.update_self] at hle
      exact le_bot_iff.mp hle
    · rw [← Function.update_of_ne hb (m a) m', heq]
  · rintro rfl
    rw [Function.update_idem, Function.update_eq_self]

theorem clear_ne (h : m a ≠ ⊥) : Function.update m a ⊥ ≠ m := by
  intro heq
  have ha := congrFun heq a
  rw [Function.update_self] at ha
  exact h ha.symm

end Cells

variable {S M O T : Type} [PartialOrder O]

/-- From one state to the other the log has grown, the shape is the same, and
the memory is worn exactly if an entry is a fault. -/
structure Wear (shape : S → M) (mem : S → O) (log : S → List T) (Fault : T → Prop)
    (s s' : S) : Prop where
  shape_eq : shape s' = shape s
  mem_le : mem s' ≤ mem s
  log_eq : ∃ ts, log s' = log s ++ ts ∧ (mem s' = mem s ↔ ∀ t ∈ ts, ¬Fault t)

namespace Wear

variable {shape : S → M} {mem : S → O} {log : S → List T} {Fault : T → Prop} {s s' s'' : S}

/-- A step with no entry. -/
theorem of_eq (hshape : shape s' = shape s) (hmem : mem s' = mem s) (hlog : log s' = log s) :
    Wear shape mem log Fault s s' where
  shape_eq := hshape
  mem_le := hmem.le
  log_eq := ⟨[], by rw [hlog, List.append_nil], iff_of_true hmem (by simp)⟩

theorem refl (s : S) : Wear shape mem log Fault s s := of_eq rfl rfl rfl

/-- **What wore the memory has worn it for good.** -/
theorem trans (h : Wear shape mem log Fault s s') (h' : Wear shape mem log Fault s' s'') :
    Wear shape mem log Fault s s'' where
  shape_eq := h'.shape_eq.trans h.shape_eq
  mem_le := h'.mem_le.trans h.mem_le
  log_eq := by
    obtain ⟨ts, hts, hiff⟩ := h.log_eq
    obtain ⟨ts', hts', hiff'⟩ := h'.log_eq
    refine ⟨ts ++ ts', by rw [hts', hts, List.append_assoc], ?_⟩
    have hboth : mem s'' = mem s ↔ mem s' = mem s ∧ mem s'' = mem s' := by
      constructor
      · intro heq
        have hs' : mem s' = mem s := le_antisymm h.mem_le (heq ▸ h'.mem_le)
        exact ⟨hs', heq.trans hs'.symm⟩
      · rintro ⟨hs', hs''⟩
        exact hs''.trans hs'
    rw [hboth, hiff, hiff', List.forall_mem_append]

/-- The log of a run that is known. -/
theorem mem_eq_iff (h : Wear shape mem log Fault s s') {ts : List T}
    (hts : log s' = log s ++ ts) : mem s' = mem s ↔ ∀ t ∈ ts, ¬Fault t := by
  obtain ⟨ts', hts', hiff⟩ := h.log_eq
  rwa [List.append_cancel_left (hts'.symm.trans hts)] at hiff

/-- A program wears the memory as its calls do, if it does not write there
itself. -/
theorem lift_run {P A R α : Type} {f : A → S → Option (R × S)} {view : S → P}
    (put : P → S → S) {q : Prog P A R α} {x : α} (hshape : ∀ p s, shape (put p s) = shape s)
    (hmem : ∀ p s, mem (put p s) = mem s) (hlog : ∀ p s, log (put p s) = log s)
    (hf : ∀ a s r s', f a s = some (r, s') → Wear shape mem log Fault s s')
    (h : (q.lift view put).run f s = some (x, s')) : Wear shape mem log Fault s s' := by
  induction q generalizing s with
  | ret y =>
    obtain ⟨-, rfl⟩ := Prod.mk.inj (Option.some.inj h)
    exact refl s
  | get k ih => exact ih (view s) h
  | set p q ih => exact (of_eq (hshape p s) (hmem p s) (hlog p s)).trans (ih h)
  | call a k ih =>
    obtain ⟨⟨r, t⟩, hr, hx⟩ := Option.bind_eq_some_iff.mp h
    exact (hf a s r t hr).trans (ih r hx)

section Borrow

variable {A V : Type} [DecidableEq A] [PartialOrder V] [OrderBot V] {cells : S → A → V} {a : A}
variable {s₁ s₂ s₃ : S} {t : T}

/-- **A cell borrowed during a run and given back after it.** -/
theorem borrow (h : Wear shape cells log Fault s₁ s₂) (ht : ¬Fault t)
    (hshape : shape s₁ = shape s) (hout : cells s₁ = Function.update (cells s) a ⊥)
    (hlog : log s₁ = log s ++ [t]) (hshape' : shape s₃ = shape s₂)
    (hback : cells s₃ = Function.update (cells s₂) a (cells s a)) (hlog' : log s₃ = log s₂) :
    Wear shape cells log Fault s s₃ where
  shape_eq := hshape'.trans (h.shape_eq.trans hshape)
  mem_le := by
    rw [hback]
    exact giveBack_le (hout ▸ h.mem_le)
  log_eq := by
    obtain ⟨ts, hts, hiff⟩ := h.log_eq
    refine ⟨t :: ts, by rw [hlog', hts, hlog, List.append_assoc, List.singleton_append], ?_⟩
    rw [hback, giveBack_eq_iff (hout ▸ h.mem_le), ← hout, hiff, List.forall_mem_cons,
      and_iff_right ht]

/-- A cell that is kept. -/
theorem keep (ht : Fault t) (hshape : shape s₁ = shape s)
    (hout : cells s₁ = Function.update (cells s) a ⊥) (ha : cells s a ≠ ⊥)
    (hlog : log s₁ = log s ++ [t]) : Wear shape cells log Fault s s₁ where
  shape_eq := hshape
  mem_le := by
    rw [hout]
    exact update_le_self_iff.mpr bot_le
  log_eq := by
    refine ⟨[t], hlog, iff_of_false (hout ▸ clear_ne ha) fun hall => ?_⟩
    exact hall t (List.mem_singleton.mpr rfl) ht

end Borrow

/-- An entry that is no fault. -/
theorem entry {t : T} (ht : ¬Fault t) (hshape : shape s' = shape s) (hmem : mem s' = mem s)
    (hlog : log s' = log s ++ [t]) : Wear shape mem log Fault s s' where
  shape_eq := hshape
  mem_le := hmem.le
  log_eq := ⟨[t], hlog, iff_of_true hmem (by simpa using ht)⟩

end Wear

end Common

end Radare
