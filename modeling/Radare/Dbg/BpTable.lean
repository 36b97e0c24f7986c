import Mathlib.Data.UInt
import Mathlib.Logic.Equiv.Fin.Basic
import Radare.Common.Run
import Radare.Common.Slots
import Radare.Dbg.Bp
/-!
# The count of the breakpoints

`ps.bps_n` counts the slots in use, and bounds the numbers they are reached
under. Both hold as long as a slot is freed only if it is the last in use:
freed before that, those behind it are out of reach, and an address that
is 0 frees a slot that is free (`bpRun_good_iff`).
-/

namespace Radare

open Common

variable {σ : Type} {h : ArchHooks σ} {ps : DebugT σ} {i : Fin maxBps} {is : List (Fin maxBps)}
variable {addr : ut64} {type : BpType} {num : ℤ} {bp : BpT} {r : HookRet σ} {w : σ}

/-- The addresses of the slots. -/
def DebugT.addrs (ps : DebugT σ) (i : Fin maxBps) : ut64 := (ps.bps i).addr

/-- **What the table is to keep**: the count is that of the slots in use,
their addresses are distinct, the count is within the table, and every slot
in use has a number. -/
structure DebugT.Good (ps : DebugT σ) : Prop where
  count : ps.bpsN = (Finset.univ.filter fun i => (ps.bps i).addr ≠ 0).card
  distinct : ∀ i j, (ps.bps i).addr ≠ 0 → (ps.bps i).addr = (ps.bps j).addr → i = j
  bounds : 0 ≤ ps.bpsN ∧ ps.bpsN ≤ maxBps
  reach : ∀ i, (ps.bps i).addr ≠ 0 → ∃ num, debugBpGetNum ps num = some i.val

theorem good_iff : ps.Good ↔ Dense ps.addrs ps.bpsN := by
  have hget : ∀ i : Fin maxBps,
      (∃ num, debugBpGetNum ps num = some i.val) ↔ (i : ℤ) < ps.bpsN := by
    intro i
    unfold debugBpGetNum
    constructor
    · rintro ⟨num, hnum⟩
      split_ifs at hnum with hin
      have := Option.some.inj hnum
      omega
    · intro hi
      exact ⟨i, by rw [if_pos ⟨by omega, hi⟩, Int.toNat_natCast]⟩
  constructor
  · intro hg
    exact ⟨⟨hg.count, hg.distinct⟩, fun i hi => (hget i).mp (hg.reach i hi)⟩
  · intro hd
    exact ⟨hd.count, hd.distinct, ⟨hd.nonneg, hd.le⟩, fun i hi => (hget i).mpr (hd.below i hi)⟩

/-! ## Slots rewritten -/

@[simp] theorem addrs_put : (ps.put i bp).addrs = Function.update ps.addrs i bp.addr := by
  funext j
  change (Function.update ps.bps i bp j).addr = _
  by_cases hj : j = i
  · rw [hj, Function.update_self, Function.update_self]
  · rw [Function.update_of_ne hj, Function.update_of_ne hj]
    rfl

@[simp] theorem addrs_failed : (ps.failed i r).addrs = ps.addrs := by
  change (ps.put i ((ps.bps i).saved r)).addrs = ps.addrs
  rw [addrs_put]
  exact Function.update_eq_self i ps.addrs

@[simp] theorem addrs_freed : (ps.freed i r).addrs = Function.update ps.addrs i 0 := by
  change (ps.put i { (ps.bps i).saved r with addr := 0 }).addrs = _
  rw [addrs_put]

theorem debugBpGet_eq_some :
    debugBpGet ps addr = some i ↔ ps.addrs i = addr ∧ ∀ j < i, ps.addrs j ≠ addr := by
  unfold debugBpGet DebugT.addrs
  rw [Fin.find?_eq_some_iff]
  simp only [decide_eq_true_eq, decide_eq_false_iff_not, ne_eq]

theorem debugBpGet_eq_none : debugBpGet ps addr = none ↔ ∀ i, ps.addrs i ≠ addr := by
  unfold debugBpGet DebugT.addrs
  rw [Fin.find?_eq_none_iff]
  simp only [decide_eq_false_iff_not, ne_eq]

/-! ## `debug_bp_set` -/

/-- The slot has the address if a hook went well, and is free if not. -/
theorem armSlot_addr {ret : ℤ} {bp' : BpT} {w' : σ}
    (harm : armSlot h bp addr type w = (ret, bp', w')) :
    bp'.addr = if ret < 0 then 0 else addr := by
  unfold armSlot at harm
  dsimp only at harm
  split_ifs at harm with h₁ h₂ h₃ <;> cases harm
  · exact (if_neg (not_lt.mpr h₁)).symm
  · exact (if_neg (not_lt.mpr h₂)).symm
  · exact (if_neg (not_lt.mpr h₃)).symm
  · exact (if_pos (not_le.mp h₃)).symm

/-- **What `debug_bp_set` can do** to a table whose count fits: nothing, or
the first free slot takes an address that is not there. -/
theorem debugBpSet_cases (h : ArchHooks σ) (addr : ut64) (type : BpType)
    (ht : Tallied ps.addrs ps.bpsN) :
    ∃ ret ps', debugBpSet h ps addr type = some (ret, ps') ∧
      (ps'.addrs = ps.addrs ∧ ps'.bpsN = ps.bpsN ∨
        ∃ i a, ps.addrs i = 0 ∧ (∀ j < i, ps.addrs j ≠ 0) ∧ a ≠ 0 ∧ (∀ j, ps.addrs j ≠ a) ∧
          ps'.addrs = Function.update ps.addrs i a ∧ ps'.bpsN = ps.bpsN + 1) := by
  unfold debugBpSet
  dsimp only
  by_cases hfull : ps.bpsN = maxBps
  · exact ⟨_, _, if_pos hfull, Or.inl ⟨rfl, rfl⟩⟩
  · rw [if_neg hfull]
    generalize (if addr = 0 then h.pc ps.world else addr) = a
    cases hget : debugBpGet ps a with
    | some j => exact ⟨_, _, if_pos rfl, Or.inl ⟨rfl, rfl⟩⟩
    | none =>
      have hnew := debugBpGet_eq_none.mp hget
      obtain ⟨k, hk⟩ := ht.exists_free hfull
      have ha : a ≠ 0 := fun ha => hnew k (hk.trans ha.symm)
      obtain ⟨i, hfree⟩ : ∃ i, debugBpGet ps 0 = some i :=
        Option.ne_none_iff_exists'.mp fun hnone => debugBpGet_eq_none.mp hnone k hk
      obtain ⟨hi, hfirst⟩ := debugBpGet_eq_some.mp hfree
      rw [hfree, Option.map_some, if_neg (by simp)]
      obtain ⟨ret, bp, w, harm⟩ : ∃ ret bp w, armSlot h (ps.bps i) a type ps.world = (ret, bp, w) :=
        ⟨_, _, _, rfl⟩
      have haddr := armSlot_addr harm
      rw [harm]
      dsimp only
      by_cases hret : ret < 0
      · rw [if_pos hret] at haddr ⊢
        refine ⟨_, _, rfl, Or.inl ⟨?_, rfl⟩⟩
        change (ps.put i bp).addrs = _
        rw [addrs_put, haddr, ← hi, Function.update_eq_self]
      · rw [if_neg hret] at haddr ⊢
        refine ⟨_, _, rfl, Or.inr ⟨i, a, hi, hfirst, ha, hnew, ?_, rfl⟩⟩
        change (ps.put i bp).addrs = _
        rw [addrs_put, haddr]

theorem debugBpSet_good (h : ArchHooks σ) (addr : ut64) (type : BpType)
    (hg : Dense ps.addrs ps.bpsN) :
    ∃ ret ps', debugBpSet h ps addr type = some (ret, ps') ∧ Dense ps'.addrs ps'.bpsN := by
  obtain ⟨ret, ps', hset, ⟨haddrs, hn⟩ | ⟨i, a, hi, hfirst, ha, hnew, haddrs, hn⟩⟩ :=
    debugBpSet_cases h addr type hg.toTallied
  · exact ⟨ret, ps', hset, by rwa [haddrs, hn]⟩
  · exact ⟨ret, ps', hset, by rw [haddrs, hn]; exact hg.take hi hfirst ha hnew⟩

/-! ## `debug_bp_rm` -/

/-- A removal at an address leaves the table as it is to be: there is none,
the hook fails, or its slot is the last in use. -/
def RmSafe (h : ArchHooks σ) (ps : DebugT σ) (addr : ut64) : Prop :=
  ∀ i, debugBpGet ps addr = some i →
    (bpRm h (ps.bps i) ps.world).ret < 0 ∨ (i : ℤ) + 1 = ps.bpsN

theorem debugBpRm_good_iff (h : ArchHooks σ) (addr : ut64) (hg : Dense ps.addrs ps.bpsN) :
    Dense (debugBpRm h ps addr).2.addrs (debugBpRm h ps addr).2.bpsN ↔ RmSafe h ps addr := by
  unfold debugBpRm RmSafe
  cases hget : debugBpGet ps addr with
  | none => exact iff_of_true hg fun i hi => by cases hi
  | some i =>
    dsimp only
    by_cases hret : (bpRm h (ps.bps i) ps.world).ret < 0
    · rw [if_pos hret]
      refine iff_of_true ?_ fun j hj => ?_
      · rw [addrs_failed]
        exact hg
      · obtain rfl := Option.some.inj hj
        exact Or.inl hret
    · rw [if_neg hret]
      have hfree : Dense (ps.freed i (bpRm h (ps.bps i) ps.world)).addrs (ps.bpsN - 1) ↔
          (i : ℤ) + 1 = ps.bpsN := by
        rw [addrs_freed]
        exact hg.free_iff
      refine hfree.trans ⟨fun hlast j hj => ?_, fun hsafe => (hsafe i rfl).resolve_left hret⟩
      obtain rfl := Option.some.inj hj
      exact Or.inr hlast

/-! ## `debug_bp_rms` -/

/-- What the hooks return that `debug_bp_rms` calls. -/
def rmRets (h : ArchHooks σ) (ps : DebugT σ) : List (Fin maxBps) → List ℤ
  | [] => []
  | i :: is =>
    if (ps.bps i).addr = 0 then rmRets h ps is
    else
      let r := bpRm h (ps.bps i) ps.world
      if r.ret < 0 then [r.ret] else r.ret :: rmRets h (ps.freed i r) is

theorem rmsLoop_of_done (hn : ¬0 < ps.bpsN) : rmsLoop h ps is = ps := by
  cases is with
  | nil => rfl
  | cons i is => rw [rmsLoop, if_neg hn]

/-- It passes a slot that is free. -/
theorem rmsLoop_cons_of_free (h : ArchHooks σ) (is : List (Fin maxBps)) (hi : ps.addrs i = 0) :
    rmsLoop h ps (i :: is) = rmsLoop h ps is ∧ rmRets h ps (i :: is) = rmRets h ps is := by
  refine ⟨?_, if_pos hi⟩
  by_cases hn : 0 < ps.bpsN
  · have hpos : ¬(ps.bps i).addr > 0 := by
      change ¬ps.addrs i > 0
      rw [hi]
      decide
    rw [rmsLoop, if_pos hn, if_neg hpos]
  · rw [rmsLoop_of_done hn, rmsLoop_of_done hn]

theorem rmRets_of_free (hfree : ∀ i ∈ is, ps.addrs i = 0) : rmRets h ps is = [] := by
  induction is with
  | nil => rfl
  | cons i is ih =>
    rw [(rmsLoop_cons_of_free h is (hfree i List.mem_cons_self)).2]
    exact ih fun j hj => hfree j (List.mem_cons_of_mem i hj)

/-- And calls the hook of one in use. -/
theorem rmsLoop_cons_of_used (h : ArchHooks σ) (is : List (Fin maxBps))
    (ht : Tallied ps.addrs ps.bpsN) (hi : ps.addrs i ≠ 0) :
    (let r := bpRm h (ps.bps i) ps.world
     r.ret < 0 ∧ rmsLoop h ps (i :: is) = ps.failed i r ∧ rmRets h ps (i :: is) = [r.ret] ∨
     0 ≤ r.ret ∧ rmsLoop h ps (i :: is) = rmsLoop h (ps.freed i r) is ∧
       rmRets h ps (i :: is) = r.ret :: rmRets h (ps.freed i r) is) := by
  have hn : 0 < ps.bpsN := by
    rw [ht.count]
    exact_mod_cast Finset.card_pos.mpr ⟨i, mem_used.mpr hi⟩
  have hpos : (ps.bps i).addr > 0 := UInt64.pos_iff_ne_zero.mpr hi
  dsimp only
  rw [rmsLoop, if_pos hn, if_pos hpos, rmRets, if_neg (show ¬(ps.bps i).addr = 0 from hi)]
  dsimp only
  by_cases hret : (bpRm h (ps.bps i) ps.world).ret < 0
  · rw [if_pos hret, if_pos hret]
    exact Or.inl ⟨hret, rfl, rfl⟩
  · rw [if_neg hret, if_neg hret]
    exact Or.inr ⟨not_lt.mp hret, rfl, rfl⟩

theorem tallied_freed (ht : Tallied ps.addrs ps.bpsN) (hi : ps.addrs i ≠ 0) :
    Tallied (ps.freed i r).addrs (ps.freed i r).bpsN := by
  rw [addrs_freed]
  exact ht.free hi

/-- **The loop**: the count fits, no slot that is free is taken, all those
passed are freed if no hook fails, and the one whose hook fails is not. -/
theorem rmsLoop_spec (h : ArchHooks σ) (is : List (Fin maxBps))
    (ht : Tallied ps.addrs ps.bpsN) :
    Tallied (rmsLoop h ps is).addrs (rmsLoop h ps is).bpsN ∧
      (∀ j, ps.addrs j = 0 → (rmsLoop h ps is).addrs j = 0) ∧
      ((∀ r ∈ rmRets h ps is, 0 ≤ r) → ∀ j ∈ is, (rmsLoop h ps is).addrs j = 0) ∧
      ((∃ r ∈ rmRets h ps is, r < 0) → ∃ j, (rmsLoop h ps is).addrs j ≠ 0) := by
  induction is generalizing ps with
  | nil => exact ⟨ht, fun j hj => hj, fun _ j hj => absurd hj List.not_mem_nil, by simp [rmRets]⟩
  | cons i is ih =>
    by_cases hi : ps.addrs i = 0
    · obtain ⟨hloop, hrets⟩ := rmsLoop_cons_of_free h is hi
      obtain ⟨htal, hold, hall, hleft⟩ := ih ht
      rw [hloop, hrets]
      refine ⟨htal, hold, fun hr j hj => ?_, hleft⟩
      rcases List.mem_cons.mp hj with rfl | hj
      · exact hold j hi
      · exact hall hr j hj
    · rcases rmsLoop_cons_of_used h is ht hi with
        ⟨hret, hloop, hrets⟩ | ⟨hret, hloop, hrets⟩
      · -- the hook failed, and the slot is as it was
        rw [hloop, hrets]
        refine ⟨by rwa [addrs_failed], fun j hj => by rwa [addrs_failed], fun hr => ?_, fun _ => ?_⟩
        · exact absurd (hr _ List.mem_cons_self) (not_le.mpr hret)
        · exact ⟨i, by rwa [addrs_failed]⟩
      · obtain ⟨htal, hold, hall, hleft⟩ :=
          ih (tallied_freed (r := bpRm h (ps.bps i) ps.world) ht hi)
        rw [addrs_freed] at hold
        rw [hloop, hrets]
        refine ⟨htal, fun j hj => hold j ?_, fun hr j hj => ?_, ?_⟩
        · by_cases hji : j = i
          · rw [hji, Function.update_self]
          · rwa [Function.update_of_ne hji]
        · rcases List.mem_cons.mp hj with rfl | hj
          · exact hold j (Function.update_self j 0 ps.addrs)
          · exact hall (fun r hr' => hr r (List.mem_cons_of_mem _ hr')) j hj
        · rintro ⟨r, hr, hneg⟩
          rcases List.mem_cons.mp hr with rfl | hr
          · exact absurd hret (not_le.mpr hneg)
          · exact hleft ⟨r, hr, hneg⟩

/-- The removal of all leaves the table as it is to be: no hook fails but
the first one called. -/
def RmsSafe (h : ArchHooks σ) (ps : DebugT σ) : Prop :=
  ∀ r ∈ (rmRets h ps (List.finRange maxBps)).tail, 0 ≤ r

theorem debugBpRms_good_iff (hg : Dense ps.addrs ps.bpsN) :
    Dense (debugBpRms h ps).2.addrs (debugBpRms h ps).2.bpsN ↔ RmsSafe h ps := by
  unfold debugBpRms RmsSafe
  dsimp only
  obtain ⟨z, rest, hz, hrange⟩ : ∃ (z : Fin maxBps) (rest : List (Fin maxBps)),
      z.val = 0 ∧ List.finRange maxBps = z :: rest := ⟨_, _, rfl, List.finRange_succ⟩
  have hmem : ∀ j, j = z ∨ j ∈ rest := fun j => List.mem_cons.mp (hrange ▸ List.mem_finRange j)
  have hlow : ps.addrs z ≠ 0 ↔ 0 < ps.bpsN := by
    rw [hg.used_iff, hz]
    rfl
  rw [hrange]
  by_cases hzero : ps.addrs z = 0
  · -- nothing is set, and nothing is called
    have hn : ¬0 < ps.bpsN := fun hn => hlow.mpr hn hzero
    have hfree : ∀ j, ps.addrs j = 0 := by
      intro j
      by_contra hj
      have := hg.below j hj
      omega
    rw [rmsLoop_of_done hn, rmRets_of_free fun j _ => hfree j]
    exact iff_of_true hg fun r hr => absurd hr List.not_mem_nil
  · rcases rmsLoop_cons_of_used h rest hg.toTallied hzero with
      ⟨-, hloop, hrets⟩ | ⟨-, hloop, hrets⟩
    · rw [hloop, hrets, addrs_failed]
      exact iff_of_true hg fun r hr => absurd hr List.not_mem_nil
    · -- the first slot is free now, so the others are to be
      obtain ⟨htal, hold, hall, hleft⟩ := rmsLoop_spec h rest
        (tallied_freed (r := bpRm h (ps.bps z) ps.world) hg.toTallied hzero)
      have hzfree := hold z (by rw [addrs_freed, Function.update_self])
      rw [hloop, hrets, List.tail_cons]
      constructor
      · intro hd r hr
        by_contra hneg
        obtain ⟨j, hj⟩ := hleft ⟨r, hr, not_le.mp hneg⟩
        have hj0 := hd.below j hj
        exact hd.used_iff.mpr (by rw [hz]; omega) hzfree
      · intro hr
        have hfree : ∀ j, (rmsLoop h (ps.freed z (bpRm h (ps.bps z) ps.world)) rest).addrs j = 0 :=
          fun j => (hmem j).elim (fun hj => hj ▸ hzfree) (hall hr j)
        have hn := htal.count.trans (dense_of_free hfree).count.symm
        rw [hn]
        exact dense_of_free hfree

/-! ## Runs -/

/-- When a call leaves the table as it is to be. -/
def BpOp.Safe (h : ArchHooks σ) (ps : DebugT σ) : BpOp → Prop
  | .set _ _ => True
  | .rm addr => RmSafe h ps addr
  | .rmNum num => ∀ i : Fin maxBps, debugBpGetNum ps num = some i.val → RmSafe h ps (ps.bps i).addr
  | .rms => RmsSafe h ps

theorem bpStep_good_iff (ps : DebugT σ) (op : BpOp) (hg : ps.Good) :
    (∃ ps', bpStep h ps op = some ps' ∧ ps'.Good) ↔ op.Safe h ps := by
  have hd := good_iff.mp hg
  cases op with
  | set addr type =>
    obtain ⟨ret, ps', hset, hgood⟩ := debugBpSet_good h addr type hd
    refine iff_of_true ⟨ps', ?_, good_iff.mpr hgood⟩ trivial
    rw [bpStep, hset]
    rfl
  | rm addr =>
    rw [bpStep, BpOp.Safe, ← debugBpRm_good_iff h addr hd]
    simp only [Option.some.injEq, exists_eq_left', good_iff]
  | rmNum num =>
    rw [bpStep, BpOp.Safe, debugBpRmNum]
    unfold debugBpGetNum
    by_cases hin : 0 ≤ num ∧ num < ps.bpsN
    · have hle := hd.le
      have hnum : num.toNat < maxBps := by omega
      rw [if_pos hin, dif_pos hnum, if_pos hin]
      have hsafe := debugBpRm_good_iff h (ps.bps ⟨num.toNat, hnum⟩).addr hd
      simp only [Option.map_some, Option.some.injEq, exists_eq_left', good_iff, hsafe]
      constructor
      · intro hrm i hi
        obtain rfl : i = ⟨num.toNat, hnum⟩ := Fin.ext hi.symm
        exact hrm
      · exact fun hrm => hrm ⟨num.toNat, hnum⟩ rfl
    · rw [if_neg hin, if_neg hin]
      exact iff_of_true ⟨ps, rfl, hg⟩ fun i hi => by cases hi
  | rms =>
    rw [bpStep, BpOp.Safe, ← debugBpRms_good_iff hd]
    simp only [Option.some.injEq, exists_eq_left', good_iff]

/-- **When the table is as it is to be**: in every state of a run, if and
only if each call is safe where it is made. -/
theorem bpRun_good_iff (h : ArchHooks σ) (w : σ) (ops : List BpOp) :
    RunKeeps (bpStep h) DebugT.Good (emptyTable w) ops ↔
      RunSafe (bpStep h) (fun ps op => op.Safe h ps) (emptyTable w) ops :=
  runs_keep_iff bpStep_good_iff (good_iff.mpr (dense_of_free fun _ => rfl))

/-- Hooks that never fail, on a debuggee that is not looked at. -/
def okHooks : ArchHooks Unit where
  pc _ := 0
  setBpHw bp _ w := ⟨0, bp.len, bp.data, w⟩
  setBpSoft bp _ w := ⟨0, bp.len, bp.data, w⟩
  bpRmHw bp w := ⟨0, bp.len, bp.data, w⟩
  bpRmSoft bp w := ⟨0, bp.len, bp.data, w⟩
  flagRm _ w := w

/-- **Address 0 is found**: removed from the empty table, it takes the count
below zero. -/
theorem rm_zero_miscounts :
    ∃ ps, runOps (bpStep okHooks) (emptyTable ()) [.rm 0] = some ps ∧ ps.bpsN = -1 ∧ ¬ps.Good := by
  have hget : debugBpGet (emptyTable ()) 0 = some ⟨0, by decide⟩ :=
    debugBpGet_eq_some.mpr ⟨rfl, fun j hj => absurd hj (Nat.not_lt_zero j)⟩
  have hn : (debugBpRm okHooks (emptyTable ()) 0).2.bpsN = -1 := by
    unfold debugBpRm
    rw [hget]
    rfl
  refine ⟨_, rfl, hn, fun hg => ?_⟩
  have := hg.bounds.1
  omega

end Radare
