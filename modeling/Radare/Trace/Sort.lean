import Radare.Trace.Model
import Mathlib.Data.List.Induction
/-!
# The trace list sorted

`trace_sort` does nothing where `trace_changed` is not set. The flag is set
with every record appended, the only call that breaks an order, so a list
whose flag is clear is sorted (`TraceState.Ordered`), and after the call it
always is (`traceSort_sorts`).
-/

namespace Radare

open Common

variable {s s' : TraceState} {tag : ℤ} {addr : ut64} {traces traces' : List TraceT}

/-- The addresses are in order where the flag is clear. -/
def TraceState.Ordered (s : TraceState) : Prop :=
  s.changed = false → SortedBy TraceT.addr s.traces

/-- The order is one of the addresses. -/
theorem sortedBy_addr_iff :
    SortedBy TraceT.addr traces ↔ (traces.map TraceT.addr).Pairwise (· ≤ ·) :=
  List.pairwise_map.symm

@[simp] theorem addr_mark (t : TraceT) : (t.mark tag).addr = t.addr := by
  unfold TraceT.mark
  split_ifs <;> rfl

theorem map_addr_traceBump {count now : ℕ} {times : ℤ}
    (h : traceBump tag addr count now traces = some (traces', times)) :
    traces'.map TraceT.addr = traces.map TraceT.addr := by
  induction traces generalizing traces' times with
  | nil => cases h
  | cons t traces ih =>
    unfold traceBump at h
    split_ifs at h with haddr
    · obtain ⟨rfl, -⟩ := Prod.mk.inj (Option.some.inj h)
      rw [List.map_cons, List.map_cons]
      exact congrArg (· :: _) (addr_mark t)
    · obtain ⟨⟨l, times'⟩, hl, heq⟩ := Option.map_eq_some_iff.mp h
      obtain ⟨rfl, -⟩ := Prod.mk.inj heq
      rw [List.map_cons, List.map_cons, ih hl]

/-- A record that is appended sets the flag, and nothing else moves. -/
theorem TraceState.Ordered.add (h : s.Ordered) (env : TraceEnv) (addr : ut64) :
    (traceAdd env s addr).1.Ordered := by
  unfold traceAdd
  cases env.archAop with
  | none => exact h
  | some aop =>
    dsimp only
    split_ifs with hdup
    · exact fun hch => absurd hch (by simp)
    · split
      · rename_i traces times hbump
        intro hch
        rw [sortedBy_addr_iff, map_addr_traceBump hbump, ← sortedBy_addr_iff]
        exact h hch
      · exact fun hch => absurd hch (by simp)

/-- **`trace_sort` ends**, keeps the records, and under a set flag sorts
them. -/
theorem traceSort_cases (s : TraceState) :
    ∃ s', traceSort s = some s' ∧ s'.traces.Perm s.traces ∧
      ((s.changed = false ∧ s' = s) ∨ SortedBy TraceT.addr s'.traces) := by
  unfold traceSort
  cases hch : s.changed with
  | false => exact ⟨s, by simp, List.Perm.refl _, Or.inl ⟨rfl, rfl⟩⟩
  | true =>
    obtain ⟨l, ch, hl, hsort, hperm⟩ := moveSort_zip TraceT.addr s.traces
    exact ⟨{ s with traces := l.map Prod.snd, changed := ch }, by simp [hl], hperm, Or.inr hsort⟩

/-- A call ends, and does not break an order the flag says there is. -/
theorem TraceState.Ordered.step (h : s.Ordered) (op : TraceOp) :
    ∃ s', op.step s = some s' ∧ s'.Ordered := by
  cases op with
  | tagSet id =>
    refine ⟨_, rfl, ?_⟩
    unfold traceTagSet
    split_ifs <;> exact h
  | add env addr => exact ⟨_, rfl, h.add env addr⟩
  | sort =>
    obtain ⟨s', hs', -, ⟨-, rfl⟩ | hsort⟩ := traceSort_cases s
    · exact ⟨s', hs', h⟩
    · exact ⟨s', hs', fun _ => hsort⟩

theorem traceRun_concat (ops : List TraceOp) (op : TraceOp) :
    traceRun (ops ++ [op]) = (traceRun ops).bind op.step := by
  unfold traceRun
  rw [List.foldlM_append]
  cases h : List.foldlM TraceOp.step {} ops <;> simp

/-- The invariant over a run. -/
theorem traceRun_ordered (ops : List TraceOp) : ∃ s, traceRun ops = some s ∧ s.Ordered := by
  induction ops using List.reverseRecOn with
  | nil => exact ⟨{}, rfl, fun _ => List.Pairwise.nil⟩
  | append_singleton ops op ih =>
    obtain ⟨s, hs, hord⟩ := ih
    obtain ⟨s', hs', hord'⟩ := hord.step op
    exact ⟨s', by rw [traceRun_concat, hs]; exact hs', hord'⟩

/-- **`trace_sort` sorts**: after any run of calls it ends, with the records
it was given in the order of their addresses. -/
theorem traceSort_sorts (ops : List TraceOp) :
    ∃ s s', traceRun ops = some s ∧ traceSort s = some s' ∧ s'.traces.Perm s.traces ∧
      s'.traces.Pairwise fun a b => a.addr ≤ b.addr := by
  obtain ⟨s, hs, hord⟩ := traceRun_ordered ops
  obtain ⟨s', hs', hperm, ⟨hch, rfl⟩ | hsort⟩ := traceSort_cases s
  · exact ⟨s', s', hs, hs', hperm, hord hch⟩
  · exact ⟨s, s', hs, hs', hperm, hsort⟩

end Radare
