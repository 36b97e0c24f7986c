import Mathlib.Data.List.Infix
import Mathlib.Tactic.Common
/-!
# Runs that keep a property

A machine takes its operations one after another, and stops where one of
them has no result. If a step keeps a property exactly when it is safe in
the state it starts from, then a run keeps it exactly when each of its
steps is safe where it is taken (`runs_keep_iff`), or in order by an account
of the steps before it (`runs_keep_iff_account`).
-/

namespace Radare

namespace Common

variable {State Op : Type*} {step : State → Op → Option State}
variable {Good : State → Prop} {Safe : State → Op → Prop} {s : State} {op : Op} {ops : List Op}

/-- The state after the operations, if all of them have a result. -/
def runOps (step : State → Op → Option State) : State → List Op → Option State
  | s, [] => some s
  | s, op :: ops => (step s op).bind fun s' => runOps step s' ops

/-- Every state on the way is there, and has the property. -/
def RunKeeps (step : State → Op → Option State) (Good : State → Prop) (s : State)
    (ops : List Op) : Prop :=
  ∀ pre, pre <+: ops → ∃ s', runOps step s pre = some s' ∧ Good s'

/-- Every operation is safe in the state it is applied to. -/
def RunSafe (step : State → Op → Option State) (Safe : State → Op → Prop) (s : State)
    (ops : List Op) : Prop :=
  ∀ pre op, pre ++ [op] <+: ops → ∀ s', runOps step s pre = some s' → Safe s' op

theorem some_good_iff : (∃ s', some s = some s' ∧ Good s') ↔ Good s :=
  ⟨fun ⟨_, hs, hgood⟩ => Option.some.inj hs ▸ hgood, fun hgood => ⟨s, rfl, hgood⟩⟩

theorem map_good_iff {α : Type*} {o : Option α} {f : α → State} :
    (∃ s, o.map f = some s ∧ Good s) ↔ ∃ a, o = some a ∧ Good (f a) := by
  simp only [Option.map_eq_some_iff]
  constructor
  · rintro ⟨_, ⟨a, ha, rfl⟩, hgood⟩
    exact ⟨a, ha, hgood⟩
  · rintro ⟨a, ha, hgood⟩
    exact ⟨f a, ⟨a, ha, rfl⟩, hgood⟩

/-- A run starts with the property. -/
theorem RunKeeps.head (h : RunKeeps step Good s ops) : Good s := by
  obtain ⟨s', hs, hgood⟩ := h [] List.nil_prefix
  obtain rfl := Option.some.inj hs
  exact hgood

theorem runKeeps_nil : RunKeeps step Good s [] ↔ Good s := by
  constructor
  · exact fun h => h.head
  · intro hgood pre hpre
    rw [List.prefix_nil.mp hpre]
    exact ⟨s, rfl, hgood⟩

theorem runKeeps_cons :
    RunKeeps step Good s (op :: ops) ↔
      Good s ∧ ∃ s', step s op = some s' ∧ RunKeeps step Good s' ops := by
  constructor
  · intro h
    have hgood := h.head
    obtain ⟨s₁, hs₁, -⟩ := h [op] (List.prefix_append [op] ops)
    obtain ⟨s', hstep, -⟩ := Option.bind_eq_some_iff.mp hs₁
    refine ⟨hgood, s', hstep, fun pre hpre => ?_⟩
    obtain ⟨s₂, hs₂, hgood₂⟩ := h (op :: pre) (List.cons_prefix_cons.mpr ⟨rfl, hpre⟩)
    rw [runOps, hstep] at hs₂
    exact ⟨s₂, hs₂, hgood₂⟩
  · rintro ⟨hgood, s', hstep, h⟩ pre hpre
    rcases List.prefix_cons_iff.mp hpre with rfl | ⟨rest, rfl, hrest⟩
    · exact ⟨s, rfl, hgood⟩
    · rw [runOps, hstep]
      exact h rest hrest

theorem runSafe_nil : RunSafe step Safe s [] := by
  intro pre op hpre
  have := hpre.length_le
  simp at this

theorem runSafe_cons (hstep : ∃ s', step s op = some s') :
    RunSafe step Safe s (op :: ops) ↔
      Safe s op ∧ ∀ s', step s op = some s' → RunSafe step Safe s' ops := by
  obtain ⟨t, ht⟩ := hstep
  constructor
  · refine fun h => ⟨h [] op (List.prefix_append [op] ops) s rfl, ?_⟩
    intro s' hs' pre op' hpre t' ht'
    refine h (op :: pre) op' (List.cons_prefix_cons.mpr ⟨rfl, hpre⟩) t' ?_
    rw [runOps, hs']
    exact ht'
  · rintro ⟨hsafe, h⟩ pre op' hpre s' hs'
    rcases pre with _ | ⟨o, pre⟩
    · obtain rfl := Option.some.inj hs'
      obtain ⟨rfl, -⟩ := List.cons_prefix_cons.mp hpre
      exact hsafe
    · obtain ⟨rfl, hrest⟩ := List.cons_prefix_cons.mp hpre
      rw [runOps, ht] at hs'
      exact h t ht pre op' hrest s' hs'

/-- A run that is not safe at its first step. -/
theorem RunSafe.head (h : RunSafe step Safe s (op :: ops)) : Safe s op :=
  h [] op (List.prefix_append [op] ops) s rfl

/-- **A run keeps the property exactly when all its steps are safe.** -/
theorem runs_keep_iff
    (hstep : ∀ s op, Good s → ((∃ s', step s op = some s' ∧ Good s') ↔ Safe s op))
    (hs : Good s) : RunKeeps step Good s ops ↔ RunSafe step Safe s ops := by
  induction ops generalizing s with
  | nil => exact iff_of_true (runKeeps_nil.mpr hs) runSafe_nil
  | cons op ops ih =>
    rw [runKeeps_cons]
    constructor
    · rintro ⟨-, s', hs', h⟩
      have hgood := h.head
      rw [runSafe_cons ⟨s', hs'⟩]
      refine ⟨(hstep s op hs).mp ⟨s', hs', hgood⟩, fun t ht => ?_⟩
      obtain rfl := Option.some.inj (hs'.symm.trans ht)
      exact (ih hgood).mp h
    · intro h
      obtain ⟨s', hs', hgood⟩ := (hstep s op hs).mpr h.head
      exact ⟨hs, s', hs', (ih hgood).mpr (((runSafe_cons ⟨s', hs'⟩).mp h).2 s' hs')⟩

/-! ## Beside an account of the operations

Whether a step is safe may be a matter of what was done before, of which
the state itself keeps too little. The account of it goes on by the
operations alone. -/

variable {Account : Type*} {next : Account → Op → Account} {ok : Account → Op → Prop}
variable {Rel : State → Account → Prop} {a : Account}

/-- Every operation is in order by the account of those before it. -/
def AccountSafe (next : Account → Op → Account) (ok : Account → Op → Prop) (a : Account)
    (ops : List Op) : Prop :=
  ∀ pre op, pre ++ [op] <+: ops → ok (pre.foldl next a) op

theorem accountSafe_nil : AccountSafe next ok a [] := by
  intro pre op hpre
  have := hpre.length_le
  simp at this

theorem accountSafe_cons :
    AccountSafe next ok a (op :: ops) ↔ ok a op ∧ AccountSafe next ok (next a op) ops := by
  constructor
  · refine fun h => ⟨h [] op (List.prefix_append [op] ops), fun pre op' hpre => ?_⟩
    exact h (op :: pre) op' (List.cons_prefix_cons.mpr ⟨rfl, hpre⟩)
  · rintro ⟨hop, h⟩ pre op' hpre
    rcases pre with _ | ⟨o, pre⟩
    · obtain ⟨rfl, -⟩ := List.cons_prefix_cons.mp hpre
      exact hop
    · obtain ⟨rfl, hrest⟩ := List.cons_prefix_cons.mp hpre
      exact h pre op' hrest

/-- **A run keeps the property exactly when all its steps are in order by
the account**, which follows the states as long as they have it. -/
theorem runs_keep_iff_account
    (hstep : ∀ s a op, Good s → Rel s a → ((∃ s', step s op = some s' ∧ Good s') ↔ ok a op))
    (hnext : ∀ s a op s', Good s → Rel s a → step s op = some s' → Rel s' (next a op))
    (hs : Good s) (ha : Rel s a) : RunKeeps step Good s ops ↔ AccountSafe next ok a ops := by
  induction ops generalizing s a with
  | nil => exact iff_of_true (runKeeps_nil.mpr hs) accountSafe_nil
  | cons op ops ih =>
    rw [runKeeps_cons, accountSafe_cons]
    constructor
    · rintro ⟨-, s', hs', h⟩
      have hgood := h.head
      exact ⟨(hstep s a op hs ha).mp ⟨s', hs', hgood⟩,
        (ih hgood (hnext s a op s' hs ha hs')).mp h⟩
    · rintro ⟨hok, h⟩
      obtain ⟨s', hs', hgood⟩ := (hstep s a op hs ha).mpr hok
      exact ⟨hs, s', hs', (ih hgood (hnext s a op s' hs ha hs')).mpr h⟩

end Common

end Radare
