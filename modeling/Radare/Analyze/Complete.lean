import Radare.Analyze.Model
import Radare.Common.DepthSearch
/-!
# The blocks that are analysed

The analysis is a search down to its depth, over the edges that the walk
over a block yields (`codeAnalyzeR_eq`). A block that it comes to first by
a long way is not gone on from, nor is it when it comes there again with
more of the depth left. So the blocks that are near are all there only if
those are spared (`analysis_complete_iff`).
-/

namespace Radare

open Common

variable {env : Analyzer} {seek addr : ut64} {depth : ℕ} {w : Walked} {bt : BlockT}
variable {prg : List BlockT} {seen : List (ut64 × ℕ)}

/-! ## The program -/

theorem programBlockGet_isSome :
    (programBlockGet prg addr).isSome ↔ addr ∈ prg.map BlockT.addr := by
  rw [programBlockGet, List.find?_isSome, List.mem_map]
  simp only [decide_eq_true_eq]

/-- The last block of the program is found first. -/
theorem programBlockGetNew_head (bt : BlockT) (prg : List BlockT) (change : BlockT → BlockT) :
    programBlockGetNew (bt :: prg) bt.addr change = change bt :: prg := by
  have hget : (programBlockGet (bt :: prg) bt.addr).isSome :=
    programBlockGet_isSome.mpr List.mem_cons_self
  rw [programBlockGetNew, if_pos hget, List.findIdx_cons]
  simp

theorem programBlockGetNew_new (h : addr ∉ prg.map BlockT.addr) (change : BlockT → BlockT) :
    programBlockGetNew prg addr change = change (blockNew addr) :: prg := by
  rw [programBlockGetNew, if_neg fun hsome => h (programBlockGet_isSome.mp hsome)]

/-- The calls of a block come behind one another. -/
theorem foldl_addCall (bt : BlockT) (prg : List BlockT) (calls : List ut64) :
    calls.foldl (fun prg dest => programBlockAddCall prg bt.addr dest) (bt :: prg) =
      { bt with calls := bt.calls ++ calls } :: prg := by
  induction calls generalizing bt with
  | nil =>
    rw [List.append_nil]
    rfl
  | cons dest calls ih =>
    rw [List.foldl_cons, programBlockAddCall, programBlockGetNew_head]
    have hstep := ih { bt with calls := bt.calls ++ [dest] }
    rw [List.append_assoc] at hstep
    exact hstep

/-- The block of an address. -/
def blockOf (env : Analyzer) (seek : ut64) (w : Walked) : BlockT where
  addr := seek
  type := blkType w.aop
  bytes := (env.read seek).2.take w.size
  tnext := w.aop.jump
  fnext := w.aop.fail
  calls := w.calls

/-- **A block that is new is put in front**, whole. -/
theorem putBlock_new (h : seek ∉ prg.map BlockT.addr) (w : Walked) :
    putBlock env seek w prg = blockOf env seek w :: prg := by
  unfold putBlock
  cases hcalls : w.calls with
  | nil =>
    rw [List.foldl_nil, programBlockGetNew_new h, blockOf, hcalls]
    rfl
  -- the first call adds the block, and all else is done to it where it is
  | cons dest calls =>
    have hfold := foldl_addCall { blockNew seek with calls := [dest] } prg calls
    rw [List.foldl_cons, programBlockAddCall, programBlockGetNew_new h]
    dsimp only
    rw [show (blockNew seek).calls ++ [dest] = [dest] from rfl]
    rw [show ({ blockNew seek with calls := [dest] } : BlockT).addr = seek from rfl] at hfold
    rw [hfold]
    have hhead := programBlockGetNew_head { blockNew seek with calls := [dest] ++ calls } prg
      fun bt =>
        { bt with
          type := blkType w.aop
          bytes := (env.read seek).2.take w.size
          tnext := w.aop.jump
          fnext := w.aop.fail }
    refine hhead.trans ?_
    rw [blockOf, hcalls]
    rfl

/-! ## The edges -/

/-- Where the last opcode of a block leads to. -/
def Walked.next (w : Walked) : List ut64 := [w.aop.jump, w.aop.fail].filter fun x => x ≠ 0

/-- The edges that the walk over a block yields. -/
def Analyzer.next (env : Analyzer) (addr : ut64) : List ut64 :=
  match env.walk addr with
  | none => []
  | some w => w.next

/-- The block that the analysis makes of an address. -/
def Analyzer.block (env : Analyzer) (addr : ut64) : BlockT :=
  match env.walk addr with
  | none => blockNew addr
  | some w => blockOf env addr w

@[simp] theorem block_addr (addr : ut64) : (env.block addr).addr = addr := by
  unfold Analyzer.block
  cases env.walk addr <;> rfl

/-- The program of what a search came to. -/
def Analyzer.program (env : Analyzer) (seen : List (ut64 × ℕ)) : List BlockT :=
  seen.map fun v => env.block v.1

theorem program_addrs : (env.program seen).map BlockT.addr = seen.map Prod.fst := by
  unfold Analyzer.program
  rw [List.map_map]
  exact List.map_congr_left fun v _ => block_addr v.1

/-- The analysis from some addresses, one after the other. -/
def codeAnalyzeEach (env : Analyzer) (depth : ℕ) :
    List ut64 → List BlockT → Option (List BlockT)
  | [], prg => some prg
  | seek :: seeks, prg => (codeAnalyzeR env depth seek prg).bind (codeAnalyzeEach env depth seeks)

theorem codeAnalyzeR_new (h : seek ∉ prg.map BlockT.addr) :
    codeAnalyzeR env (depth + 1) seek prg = (env.walk seek).bind fun w =>
      codeAnalyzeEach env depth w.next (blockOf env seek w :: prg) := by
  have hnot : ¬(programBlockGet prg seek).isSome := fun hsome =>
    h (programBlockGet_isSome.mp hsome)
  rw [codeAnalyzeR, if_neg hnot]
  refine congrArg (env.walk seek).bind (funext fun w => ?_)
  rw [putBlock_new h]
  unfold Walked.next
  by_cases hjump : w.aop.jump = 0 <;> by_cases hfail : w.aop.fail = 0 <;>
    simp [hjump, hfail, codeAnalyzeEach]

/-! ## The search -/

/-- All blocks of what a search came to can be walked over. -/
def Analyzer.Walks (env : Analyzer) (seen : List (ut64 × ℕ)) : Prop :=
  ∀ v ∈ seen, (env.walk v.1).isSome

instance : Decidable (env.Walks seen) :=
  inferInstanceAs (Decidable (∀ v ∈ seen, (env.walk v.1).isSome))

/-- If the analysis of one address is a search, so is that of some, each with
what those before it have left. -/
theorem codeAnalyzeEach_eq {seeks : List ut64} (hseen : env.Walks seen)
    (hone : ∀ seek seen, env.Walks seen → codeAnalyzeR env depth seek (env.program seen) =
      if env.Walks (search env.next depth seek seen) then
        some (env.program (search env.next depth seek seen)) else none) :
    codeAnalyzeEach env depth seeks (env.program seen) =
      if env.Walks (searchEach env.next depth seeks seen) then
        some (env.program (searchEach env.next depth seeks seen)) else none := by
  induction seeks generalizing seen with
  | nil => exact (if_pos hseen).symm
  | cons x seeks ih =>
    rw [codeAnalyzeEach, hone x seen hseen, searchEach_cons]
    by_cases hx : env.Walks (search env.next depth x seen)
    · rw [if_pos hx]
      exact ih hx
    · -- a block that cannot be walked over stays in the search to its end
      rw [if_neg hx, if_neg fun hall => hx fun v hv => hall v (suffix_searchEach.subset hv)]
      rfl

/-- **The analysis is a search**, where its blocks can be walked over. -/
theorem codeAnalyzeR_eq (hseen : env.Walks seen) :
    codeAnalyzeR env depth seek (env.program seen) =
      if env.Walks (search env.next depth seek seen) then
        some (env.program (search env.next depth seek seen)) else none := by
  induction depth generalizing seek seen with
  | zero => rw [search, if_pos hseen]; rfl
  | succ depth ih =>
    by_cases hin : seek ∈ seen.map Prod.fst
    · have hget : (programBlockGet (env.program seen) seek).isSome :=
        programBlockGet_isSome.mpr (program_addrs.symm ▸ hin)
      rw [search_seen hin, if_pos hseen, codeAnalyzeR, if_pos hget]
    · have hnew : seek ∉ (env.program seen).map BlockT.addr := program_addrs.symm ▸ hin
      rw [codeAnalyzeR_new hnew, search_new hin]
      cases hwalk : env.walk seek with
      | none =>
        rw [if_neg fun hall => ?_]
        · rfl
        · have hself := hall (seek, depth + 1) (suffix_searchEach.subset List.mem_cons_self)
          rw [hwalk] at hself
          cases hself
      | some w =>
        have hblock : blockOf env seek w :: env.program seen =
            env.program ((seek, depth + 1) :: seen) := by
          unfold Analyzer.program
          rw [List.map_cons, Analyzer.block, hwalk]
        have hnext : env.next seek = w.next := by
          rw [Analyzer.next, hwalk]
        have hwalks : env.Walks ((seek, depth + 1) :: seen) := by
          intro v hv
          rcases List.mem_cons.mp hv with rfl | hv
          · rw [hwalk]
            rfl
          · exact hseen v hv
        rw [Option.bind_some, hblock, hnext]
        exact codeAnalyzeEach_eq hwalks fun _ _ => ih

theorem codeAnalyzeR_nil (env : Analyzer) (seek : ut64) (depth : ℕ) :
    codeAnalyzeR env depth seek [] =
      if env.Walks (search env.next depth seek []) then
        some (env.program (search env.next depth seek [])) else none := by
  have hnil : env.Walks [] := fun _ hv => absurd hv List.not_mem_nil
  exact codeAnalyzeR_eq hnil

/-- Every block of the analysis is what the walk finds at an address less
than so many edges away. -/
theorem codeAnalyzeR_sound (h : codeAnalyzeR env depth seek [] = some prg) (hbt : bt ∈ prg) :
    bt = env.block bt.addr ∧ ∃ k < depth, Reach env.next seek k bt.addr := by
  rw [codeAnalyzeR_nil] at h
  split_ifs at h
  obtain rfl := Option.some.inj h
  obtain ⟨v, hv, rfl⟩ := List.mem_map.mp hbt
  have hleft := left_of_mem_search hv
  rw [block_addr]
  exact ⟨rfl, depth - v.2, by omega, reach_of_mem_search hv⟩

/-! ## Completeness -/

/-- The analysis of an empty program has a block, and one only, for each
address that is less than so many edges away. -/
def Analyzer.Complete (env : Analyzer) (seek : ut64) (depth : ℕ) : Prop :=
  ∃ prg, codeAnalyzeR env depth seek [] = some prg ∧
    ∀ k addr, k < depth → Reach env.next seek k addr → prg.countP (fun bt => bt.addr = addr) = 1

/-- **The analysis is complete exactly if** the blocks it comes to can be
walked over and those to which it comes last are spared. -/
theorem analysis_complete_iff (env : Analyzer) (seek : ut64) (depth : ℕ) :
    env.Complete seek depth ↔
      env.Walks (search env.next depth seek []) ∧ Spared env.next depth seek := by
  have hrun := codeAnalyzeR_nil env seek depth
  have hcount : ∀ addr, (env.program (search env.next depth seek [])).countP
      (fun bt => bt.addr = addr) = 1 ↔ addr ∈ (search env.next depth seek []).map Prod.fst := by
    intro addr
    -- an address is put once, so that one block is all that there can be
    have hnodup : ((search env.next depth seek []).map Prod.fst).Nodup :=
      search_nodup List.nodup_nil
    have hmap : (env.program (search env.next depth seek [])).countP (fun bt => bt.addr = addr) =
        ((search env.next depth seek []).map Prod.fst).count addr := by
      rw [← @program_addrs env, List.count, List.countP_map]
      rfl
    rw [hmap]
    exact ⟨fun hone => List.count_pos_iff.mp (hone ▸ Nat.one_pos),
      fun hmem => List.count_eq_one_of_mem hnodup hmem⟩
  rw [← search_complete_iff]
  unfold Analyzer.Complete
  rw [hrun]
  constructor
  · rintro ⟨prg, hprg, hall⟩
    split_ifs at hprg with hwalks
    obtain rfl := Option.some.inj hprg
    exact ⟨hwalks, fun k y hk hreach => (hcount y).mp (hall k y hk hreach)⟩
  · rintro ⟨hwalks, hall⟩
    exact ⟨_, if_pos hwalks, fun k y hk hreach => (hcount y).mpr (hall k y hk hreach)⟩

/-- A conditional jump to 2, or on to 3; and jumps from 2 to 3 and from 3 to
4. -/
def shortcut : Analyzer where
  read addr := (addr, List.replicate 40 0)
  blockSize := 8
  archAop addr _ :=
    if addr = 1 then (1, ⟨.other, true, 2, 3, 0⟩)
    else if addr = 2 then (1, ⟨.jmp, false, 3, 0, 0⟩)
    else if addr = 3 then (1, ⟨.jmp, false, 4, 0, 0⟩)
    else (1, ⟨.ret, true, 0, 0, 0⟩)
  stack _ := ⟨.other, false, 0, 0, 0⟩
  callblocks := false
  refblocks := false

/-- **The block of 4 is missed**: to 3 the analysis comes by 2 first. -/
theorem shortcut_missed : ¬shortcut.Complete 1 3 := by
  rintro ⟨prg, hprg, hall⟩
  have hreach : Reach shortcut.next 1 2 4 :=
    (Reach.refl.step (by decide : 3 ∈ shortcut.next 1)).step (by decide)
  have hone := hall 2 4 (by decide) hreach
  obtain rfl := Option.some.inj ((by rfl : _ = codeAnalyzeR shortcut 3 1 []).trans hprg)
  exact absurd hone (by decide)

end Radare
