import Radare.Trace.Sort
/-!
# Trace tags

`trace_add` puts the number of the current tag into the bits of a record,
and `trace_get` asks for the bit of that number. So a record is found under
the tags whose bit is in the number of a tag it was recorded under: under
`1` and `0`, if it was recorded under `3`, and never under the tag itself
(`traceGet_selects`).
-/

namespace Radare

variable {undef : ℤ → ut64} {s s' : TraceState} {ops : List TraceOp} {op : TraceOp}
variable {tag t u : ℤ} {addr addr' : ut64} {traces traces' : List TraceT} {m : ut64}

/-- `trace_add(addr)` is called while `t` is the tag. -/
def AddedUnder (ops : List TraceOp) (addr : ut64) (t : ℤ) : Prop :=
  ∃ pre env post s, ops = pre ++ .add env addr :: post ∧ traceRun pre = some s ∧ s.tag = t

/-- And something is recorded: there is an `arch_aop`. -/
def RecordedUnder (ops : List TraceOp) (addr : ut64) (t : ℤ) : Prop :=
  ∃ pre env post s, ops = pre ++ .add env addr :: post ∧ traceRun pre = some s ∧ s.tag = t ∧
    env.archAop.isSome

/-- The number of a tag has a bit that the test for another asks for. -/
def Selects (undef : ℤ → ut64) (u t : ℤ) : Prop :=
  t = -1 ∨ (u ≠ -1 ∧ UInt64.ofInt u &&& shiftOne undef t ≠ 0)

/-! ## Bits -/

/-- What is asked of the bits of a record: of the bits of two it holds if it
holds of one of them. -/
def Additive (Q : ut64 → Prop) : Prop := ∀ a b, Q (a ||| b) ↔ Q a ∨ Q b

theorem additive_mask : Additive fun tags => t = -1 ∨ tags &&& m ≠ 0 := by
  intro a b
  have hdist : (a ||| b) &&& m = (a &&& m) ||| (b &&& m) := by
    apply UInt64.toBitVec_inj.mp
    simp only [UInt64.toBitVec_and, UInt64.toBitVec_or, BitVec.and_or_distrib_right]
  have hor : (a ||| b) &&& m ≠ 0 ↔ a &&& m ≠ 0 ∨ b &&& m ≠ 0 := by
    rw [hdist, Ne, UInt64.or_eq_zero_iff, not_and_or]
  dsimp only
  rw [hor]
  tauto

/-- What recording under a tag adds. -/
def Marks (Q : ut64 → Prop) (tag : ℤ) : Prop := Q 0 ∨ (tag ≠ -1 ∧ Q (UInt64.ofInt tag))

variable {Q : ut64 → Prop}

theorem Additive.zero (hQ : Additive Q) (h : Q 0) (a : ut64) : Q a := by
  have := (hQ a 0).mpr (Or.inr h)
  rwa [UInt64.or_zero] at this

theorem Additive.mark (hQ : Additive Q) (tag : ℤ) (t : TraceT) :
    Q (t.mark tag).tags ↔ Q t.tags ∨ Marks Q tag := by
  have hzero := fun h => hQ.zero h t.tags
  unfold TraceT.mark Marks
  split_ifs with htag
  · rw [hQ]
    tauto
  · tauto

/-- Some record of the address has the bits. -/
def Found (Q : ut64 → Prop) (addr : ut64) (traces : List TraceT) : Prop :=
  ∃ r ∈ traces, r.addr = addr ∧ Q r.tags

theorem found_cons {r : TraceT} :
    Found Q addr (r :: traces) ↔ (r.addr = addr ∧ Q r.tags) ∨ Found Q addr traces := by
  unfold Found
  rw [List.exists_mem_cons_iff]

theorem found_append :
    Found Q addr (traces ++ traces') ↔ Found Q addr traces ∨ Found Q addr traces' := by
  unfold Found
  simp only [List.mem_append, or_and_right, exists_or]

theorem found_nil : ¬Found Q addr [] := by
  rintro ⟨r, hr, -⟩
  exact List.not_mem_nil hr

theorem found_perm (h : traces.Perm traces') : Found Q addr traces ↔ Found Q addr traces' := by
  unfold Found
  simp only [h.mem_iff]

/-! ## One call -/

theorem found_traceBumpAll (hQ : Additive Q) :
    Found Q addr (traceBumpAll tag addr' traces) ↔
      Found Q addr traces ∨ ((∃ r ∈ traces, r.addr = addr') ∧ addr' = addr ∧ Marks Q tag) := by
  induction traces with
  | nil => simp [traceBumpAll, found_nil]
  | cons r traces ih =>
    have hcons : traceBumpAll tag addr' (r :: traces) =
        (if r.addr = addr' then { r.mark tag with times := r.times + 1 } else r) ::
          traceBumpAll tag addr' traces := rfl
    rw [hcons, found_cons, ih, found_cons, List.exists_mem_cons_iff]
    split_ifs with haddr
    · rw [addr_mark, hQ.mark]
      simp only [haddr, true_or, true_and]
      tauto
    · simp only [haddr, false_or]
      tauto

/-- The first record of an address is brought up to date, and none where
there is none. -/
theorem found_traceBump (hQ : Additive Q) (tag : ℤ) (addr addr' : ut64) (count now : ℕ)
    (traces : List TraceT) :
    match traceBump tag addr' count now traces with
    | some (traces', _) =>
      (∃ r ∈ traces, r.addr = addr') ∧
        (Found Q addr traces' ↔ Found Q addr traces ∨ (addr' = addr ∧ Marks Q tag))
    | none => ¬∃ r ∈ traces, r.addr = addr' := by
  induction traces with
  | nil => simp [traceBump]
  | cons r traces ih =>
    unfold traceBump
    by_cases haddr : r.addr = addr'
    · rw [if_pos haddr]
      dsimp only
      rw [found_cons, found_cons, addr_mark, hQ.mark, haddr]
      refine ⟨⟨r, List.mem_cons_self, haddr⟩, ?_⟩
      tauto
    · rw [if_neg haddr]
      rcases hb : traceBump tag addr' count now traces with _ | ⟨traces', times⟩
      · rw [hb] at ih
        rw [Option.map_none, List.exists_mem_cons_iff]
        exact not_or.mpr ⟨haddr, ih⟩
      · rw [hb] at ih
        obtain ⟨⟨q, hq, hqa⟩, hiff⟩ := ih
        rw [Option.map_some]
        dsimp only
        rw [found_cons, found_cons, hiff]
        refine ⟨⟨q, List.mem_cons_of_mem _ hq, hqa⟩, ?_⟩
        tauto

theorem found_traceNew (hQ : Additive Q) {env : TraceEnv} {aop : ut64 → List u8 → ℤ} :
    Found Q addr [traceNew env aop s addr'] ↔ addr' = addr ∧ Marks Q s.tag := by
  have hzero : Q 0 → Marks Q s.tag := Or.inl
  rw [found_cons, or_iff_left found_nil]
  unfold traceNew
  rw [addr_mark, hQ.mark]
  dsimp only
  tauto

/-- **What one call of `trace_add` adds** to what the records say of an
address. -/
theorem found_traceAdd (hQ : Additive Q) (env : TraceEnv) :
    Found Q addr (traceAdd env s addr').1.traces ↔
      Found Q addr s.traces ∨ (env.archAop.isSome ∧ addr' = addr ∧ Marks Q s.tag) := by
  unfold traceAdd
  cases haop : env.archAop with
  | none => simp
  | some aop =>
    dsimp only
    split_ifs with hdup
    · rw [found_append, found_traceBumpAll hQ, found_traceNew hQ]
      simp only [Option.isSome_some, true_and]
      tauto
    · have hbump := found_traceBump hQ s.tag addr addr' (s.nTraces + 1) env.now s.traces
      rcases hb : traceBump s.tag addr' (s.nTraces + 1) env.now s.traces with _ | ⟨traces', times⟩
      · dsimp only
        rw [found_append, found_traceNew hQ]
        simp only [Option.isSome_some, true_and]
      · rw [hb] at hbump
        dsimp only
        rw [hbump.2]
        simp only [Option.isSome_some, true_and]

/-! ## Runs -/

/-- The last call of a run records, or one before it did. -/
theorem recordedUnder_concat (hs : traceRun ops = some s) :
    RecordedUnder (ops ++ [op]) addr u ↔
      RecordedUnder ops addr u ∨
        ∃ env : TraceEnv, op = .add env addr ∧ s.tag = u ∧ env.archAop.isSome := by
  constructor
  · rintro ⟨pre, env, post, s₁, heq, hpre, htag, haop⟩
    rcases Common.append_eq_append_cons heq with ⟨Z, rfl, hZ⟩ | ⟨Z, rfl, -⟩
    · obtain rfl : Z = [] := by
        rcases Z with _ | ⟨z, Z⟩
        · rfl
        · simp at hZ
      rw [List.append_nil, hs] at hpre
      obtain rfl := Option.some.inj hpre
      exact Or.inr ⟨env, (List.cons.inj hZ).1, htag, haop⟩
    · exact Or.inl ⟨pre, env, Z, s₁, rfl, hpre, htag, haop⟩
  · rintro (⟨pre, env, post, s₁, rfl, hpre, htag, haop⟩ | ⟨env, rfl, htag, haop⟩)
    · exact ⟨pre, env, post ++ [op], s₁, by simp, hpre, htag, haop⟩
    · exact ⟨ops, env, [], s, rfl, hs, htag, haop⟩

/-- **The records of a run** say of an address what was recorded of it. -/
theorem found_run (hQ : Additive Q) (hs : traceRun ops = some s) :
    Found Q addr s.traces ↔ ∃ u, RecordedUnder ops addr u ∧ Marks Q u := by
  induction ops using List.reverseRecOn generalizing s with
  | nil =>
    obtain rfl := Option.some.inj hs
    refine iff_of_false found_nil ?_
    rintro ⟨u, ⟨pre, env, post, -, heq, -⟩, -⟩
    exact absurd heq (by simp)
  | append_singleton ops op ih =>
    obtain ⟨s₁, hs₁, -⟩ := traceRun_ordered ops
    have hstep : op.step s₁ = some s := by
      rw [traceRun_concat, hs₁] at hs
      exact hs
    simp only [recordedUnder_concat hs₁, or_and_right, exists_or, ← ih hs₁]
    have hkeep : s.traces = s₁.traces ∨ s.traces.Perm s₁.traces → (∀ env, op ≠ .add env addr) →
        (Found Q addr s.traces ↔ Found Q addr s₁.traces ∨
          ∃ u, (∃ env : TraceEnv, op = .add env addr ∧ s₁.tag = u ∧ env.archAop.isSome) ∧
            Marks Q u) := by
      intro h hop
      have hnone : ¬∃ u, (∃ env : TraceEnv, op = .add env addr ∧ s₁.tag = u ∧
          env.archAop.isSome) ∧ Marks Q u := by
        rintro ⟨u, ⟨env, heq, -⟩, -⟩
        exact hop env heq
      rw [or_iff_left hnone]
      rcases h with h | h
      · rw [h]
      · exact found_perm h
    cases op with
    | tagSet id =>
      refine hkeep (Or.inl ?_) fun env => by simp
      rw [← Option.some.inj hstep]
      unfold traceTagSet
      split_ifs <;> rfl
    | sort =>
      obtain ⟨s', hs', hperm, -⟩ := traceSort_cases s₁
      obtain rfl := Option.some.inj (hstep.symm.trans hs')
      exact hkeep (Or.inr hperm) fun env => by simp
    | add env addr' =>
      rw [← Option.some.inj hstep, found_traceAdd hQ]
      refine or_congr_right ?_
      simp only [TraceOp.add.injEq]
      constructor
      · rintro ⟨haop, rfl, hmarks⟩
        exact ⟨s₁.tag, ⟨env, ⟨rfl, rfl⟩, rfl, haop⟩, hmarks⟩
      · rintro ⟨u, ⟨env', ⟨rfl, rfl⟩, rfl, haop⟩, hmarks⟩
        exact ⟨haop, rfl, hmarks⟩

/-- A record `trace_get` finds. -/
theorem traceGet_isSome_iff :
    (traceGet undef s addr t).isSome ↔
      Found (fun tags => t = -1 ∨ tags &&& shiftOne undef t ≠ 0) addr s.traces := by
  unfold traceGet Found
  rw [List.find?_isSome]
  refine exists_congr fun r => and_congr_right fun _ => ?_
  rw [decide_eq_true_iff]
  tauto

/-- **What a tag selects**: after any run of calls `trace_get` finds an
address under a tag exactly if it was added under it, if and only if the
address was added under the tag exactly if it was recorded under one that
has the bit asked for. -/
theorem traceGet_selects (undef : ℤ → ut64) (ops : List TraceOp) (addr : ut64) (t : ℤ) :
    ∃ s, traceRun ops = some s ∧
      (((traceGet undef s addr t).isSome ↔ AddedUnder ops addr t) ↔
        ((∃ u, RecordedUnder ops addr u ∧ Selects undef u t) ↔ AddedUnder ops addr t)) := by
  obtain ⟨s, hs, -⟩ := traceRun_ordered ops
  refine ⟨s, hs, ?_⟩
  rw [traceGet_isSome_iff, found_run additive_mask hs]
  have hmarks : ∀ u, Marks (fun tags => t = -1 ∨ tags &&& shiftOne undef t ≠ 0) u ↔
      Selects undef u t := by
    intro u
    unfold Marks Selects
    simp only [UInt64.zero_and, ne_eq, not_true_eq_false, or_false]
    tauto
  simp only [hmarks]

/-- **A tag is not found under itself.** -/
theorem tag_zero_not_found :
    let env : TraceEnv := ⟨some fun _ _ => 1, false, [], 0⟩
    AddedUnder [.tagSet 0, .add env 0x400] 0x400 0 ∧
      (traceRun [.tagSet 0, .add env 0x400]).map
        (fun s => (traceGet (fun _ => 0) s 0x400 0).isSome) = some false :=
  ⟨⟨[.tagSet 0], _, [], _, rfl, rfl, rfl⟩, by decide⟩

end Radare
