import Mathlib.Data.List.Perm.Basic
import Radare.Common.Patch
import Radare.Dbg.BpTable
/-!
# Software breakpoints in memory

`arch_set_bp_soft` saves 16 bytes and writes one; `arch_bp_rm_soft` writes
back an instruction of what was saved, and with it the traps that were in
these bytes then, or none where there are traps now. An account of the
breakpoints, each with those that were set before it, says when this puts
back what belongs there (`softRun_transparent_iff`).
-/

namespace Radare

open Common

/-- The memory of the debuggee. -/
abbrev Mem := ut64 → u8

variable {mem orig : Mem} {addr x : ut64} {data : List u8} {k n : ℕ} {i : Fin maxBps}

/-! ## The hooks of the `i386` -/

/-- The byte of a trap. -/
def trapByte : u8 := 0xCC

/-- `debug_read_at`. -/
def debugReadAt (mem : Mem) (addr : ut64) (n : ℕ) : List u8 :=
  (List.range n).map fun k => mem (addr + UInt64.ofNat k)

/-- `debug_write_at`, with the first bytes of what it is given. -/
def debugWriteAt (mem : Mem) (addr : ut64) (data : List u8) (n : ℕ) : Mem :=
  Patch.put (fun x => (data.take n)[(x - addr).toNat]?) mem

/-- `get_len_ins`: the length of the instruction that some bytes start
with. -/
structure InsLen where
  len : List u8 → ℕ
  pos : ∀ data, 1 ≤ len data
  le : ∀ data, len data ≤ 15

/-- `arch_set_bp_soft` and `arch_bp_rm_soft`, beside the other hooks. The
flags are none of the debuggee's memory. -/
def softHooks (L : InsLen) (h : ArchHooks Mem) : ArchHooks Mem :=
  { h with
    setBpSoft := fun _ addr mem =>
      let data := debugReadAt mem addr 16
      ⟨0, L.len data, data, debugWriteAt mem addr [trapByte] 1⟩
    bpRmSoft := fun bp mem => ⟨0, bp.len, bp.data, debugWriteAt mem bp.addr bp.data bp.len⟩
    flagRm := fun _ mem => mem }

/-- An address that is none of a free slot. -/
abbrev BpAddr := { addr : ut64 // addr ≠ 0 }

/-- The calls, with `BP_SOFT`. -/
inductive SoftOp where
  | set (addr : BpAddr)
  | rm (addr : BpAddr)

/-- What they make of the table, and of the memory. -/
def softStep (L : InsLen) (h : ArchHooks Mem) (ps : DebugT Mem) : SoftOp → Option (DebugT Mem)
  | .set addr => bpStep (softHooks L h) ps (.set addr .soft)
  | .rm addr => bpStep (softHooks L h) ps (.rm addr)

/-- **Breakpoints are transparent**: a trap where one is set, and elsewhere
what was there. -/
def Transparent (orig : Mem) (ps : DebugT Mem) : Prop :=
  ∀ x, ps.world x = if x ≠ 0 ∧ ∃ i, (ps.bps i).addr = x then trapByte else orig x

/-! ## The account -/

/-- A breakpoint, and those that were set when it was. -/
structure Armed where
  addr : ut64
  beside : List ut64
deriving DecidableEq

/-- The memory with traps. -/
def shown (orig : Mem) (traps : List ut64) : Mem := fun x =>
  if x ∈ traps then trapByte else orig x

/-- The instruction that was saved. -/
def Armed.len (L : InsLen) (orig : Mem) (a : Armed) : ℕ :=
  L.len (debugReadAt (shown orig a.beside) a.addr 16)

/-- The breakpoints after a call. -/
def armedStep (as : List Armed) : SoftOp → List Armed
  | .set addr =>
    if as.length = maxBps ∨ addr.val ∈ as.map Armed.addr then as
    else ⟨addr, as.map Armed.addr⟩ :: as
  | .rm addr => as.filter fun a => a.addr ≠ addr

/-- A removal puts back what belongs there: at each place behind the first
of the instruction saved, a breakpoint is set now if and only if one was
then, unless the byte there is that of a trap. -/
def armedOk (L : InsLen) (orig : Mem) (as : List Armed) : SoftOp → Prop
  | .set _ => True
  | .rm addr => ∀ a ∈ as, a.addr = addr → ∀ k, 1 ≤ k → k < a.len L orig →
      (addr.val + UInt64.ofNat k ∈ as.map Armed.addr ↔ addr.val + UInt64.ofNat k ∈ a.beside) ∨
        orig (addr.val + UInt64.ofNat k) = trapByte

/-! ## Memory -/

variable {L : InsLen} {h : ArchHooks Mem} {ps ps' : DebugT Mem} {as : List Armed} {a : Armed}
variable {s t : List ut64} {bp : BpT}

theorem getElem?_debugReadAt (hk : k < n) :
    (debugReadAt mem addr n)[k]? = some (mem (addr + UInt64.ofNat k)) := by
  rw [debugReadAt, List.getElem?_map, List.getElem?_range hk]
  rfl

theorem add_ofNat_sub (addr x : ut64) : addr + UInt64.ofNat (x - addr).toNat = x := by
  rw [UInt64.ofNat_toNat, UInt64.add_comm, UInt64.sub_add_cancel]

theorem toNat_sub_pos (hx : x ≠ addr) : 1 ≤ (x - addr).toNat := by
  by_contra hlt
  have hzero : (x - addr).toNat = 0 := by omega
  refine hx ?_
  rw [← add_ofNat_sub addr x, hzero]
  exact UInt64.add_zero addr

/-- An instruction written back. -/
theorem debugWriteAt_read {m : Mem} (hn : n ≤ 16) :
    debugWriteAt mem addr (debugReadAt m addr 16) n x =
      if (x - addr).toNat < n then m x else mem x := by
  unfold debugWriteAt Patch.put
  dsimp only
  by_cases hx : (x - addr).toNat < n
  · rw [if_pos hx, List.getElem?_take_of_lt hx, getElem?_debugReadAt (by omega), add_ofNat_sub]
    rfl
  · have hlen : (List.take n (debugReadAt m addr 16)).length ≤ (x - addr).toNat := by
      rw [List.length_take]
      omega
    rw [if_neg hx, List.getElem?_eq_none hlen]
    rfl

/-- A trap planted among others. -/
theorem debugWriteAt_trap :
    debugWriteAt (shown orig s) addr [trapByte] 1 = shown orig (addr :: s) := by
  funext x
  unfold debugWriteAt Patch.put shown
  dsimp only
  by_cases hx : x = addr
  · rw [hx, UInt64.sub_self, if_pos List.mem_cons_self]
    rfl
  · have hpos : (List.take 1 [trapByte]).length ≤ (x - addr).toNat := toNat_sub_pos hx
    rw [List.getElem?_eq_none hpos]
    simp only [List.mem_cons, hx, false_or, Option.getD_none]

/-- Where two sets of traps show the same. -/
theorem shown_eq_iff : shown orig s x = shown orig t x ↔ (x ∈ t ↔ x ∈ s) ∨ orig x = trapByte := by
  unfold shown
  by_cases hs : x ∈ s <;> by_cases ht : x ∈ t
  · simp [hs, ht]
  · simp [hs, ht, eq_comm]
  · simp [hs, ht]
  · simp [hs, ht]

/-- **What is written back is what belongs there**, if the traps within the
instruction are those that were in it when it was saved. -/
theorem write_back_iff (orig : Mem) (hn : n ≤ 16) (hpos : 1 ≤ n) (hs : addr ∉ s) (ht : t.Nodup) :
    debugWriteAt (shown orig t) addr (debugReadAt (shown orig s) addr 16) n =
        shown orig (t.erase addr) ↔
      ∀ k, 1 ≤ k → k < n →
        (addr + UInt64.ofNat k ∈ t ↔ addr + UInt64.ofNat k ∈ s) ∨
          orig (addr + UInt64.ofNat k) = trapByte := by
  have hmem : ∀ x, x ≠ addr → (x ∈ t.erase addr ↔ x ∈ t) := fun x hx => List.mem_erase_of_ne hx
  rw [funext_iff]
  simp only [debugWriteAt_read hn]
  constructor
  · intro h k hk hkn
    have hsub : (addr + UInt64.ofNat k - addr).toNat = k := by
      rw [UInt64.add_comm, UInt64.add_sub_cancel, UInt64.toNat_ofNat']
      omega
    have hne : addr + UInt64.ofNat k ≠ addr := by
      intro heq
      rw [heq, UInt64.sub_self] at hsub
      exact absurd hsub (by rw [UInt64.toNat_zero]; omega)
    have := h (addr + UInt64.ofNat k)
    rw [if_pos (by omega), shown_eq_iff, hmem _ hne] at this
    exact this
  · intro h x
    by_cases hx : x = addr
    · rw [hx, UInt64.sub_self, if_pos (by rw [UInt64.toNat_zero]; omega), shown_eq_iff]
      exact Or.inl (iff_of_false (ht.not_mem_erase) hs)
    · by_cases hlt : (x - addr).toNat < n
      · have := h _ (toNat_sub_pos hx) hlt
        rw [add_ofNat_sub] at this
        rw [if_pos hlt, shown_eq_iff, hmem _ hx]
        exact this
      · rw [if_neg hlt, shown_eq_iff, hmem _ hx]
        exact Or.inl Iff.rfl

/-! ## The account is that of the table -/

/-- What a slot holds of a breakpoint. -/
structure Armed.In (L : InsLen) (orig : Mem) (a : Armed) (bp : BpT) : Prop where
  addr : bp.addr = a.addr
  hw : bp.hw = false
  len : bp.len = a.len L orig
  data : bp.data = debugReadAt (shown orig a.beside) a.addr 16

/-- The table holds the breakpoints of the account. -/
structure Accounts (L : InsLen) (orig : Mem) (ps : DebugT Mem) (as : List Armed) : Prop where
  tallied : Tallied ps.addrs ps.bpsN
  length : (as.length : ℤ) = ps.bpsN
  nodup : (as.map Armed.addr).Nodup
  fresh : ∀ a ∈ as, a.addr ≠ 0 ∧ a.addr ∉ a.beside
  slot : ∀ a ∈ as, ∃ i, a.In L orig (ps.bps i)
  used : ∀ i, ps.addrs i ≠ 0 → ps.addrs i ∈ as.map Armed.addr

theorem Accounts.mem_iff (hr : Accounts L orig ps as) (hx : x ≠ 0) :
    x ∈ as.map Armed.addr ↔ ∃ i, ps.addrs i = x := by
  constructor
  · intro hmem
    obtain ⟨a, ha, rfl⟩ := List.mem_map.mp hmem
    obtain ⟨i, hi⟩ := hr.slot a ha
    exact ⟨i, hi.addr⟩
  · rintro ⟨i, rfl⟩
    exact hr.used i hx

theorem Accounts.transparent_iff (hr : Accounts L orig ps as) :
    Transparent orig ps ↔ ps.world = shown orig (as.map Armed.addr) := by
  have hshown : ∀ x, (if x ≠ 0 ∧ ∃ i, (ps.bps i).addr = x then trapByte else orig x) =
      shown orig (as.map Armed.addr) x := by
    intro x
    unfold shown
    refine if_congr ?_ rfl rfl
    by_cases hx : x = 0
    · refine iff_of_false (fun h => h.1 hx) fun hmem => ?_
      obtain ⟨a, ha, rfl⟩ := List.mem_map.mp hmem
      exact (hr.fresh a ha).1 hx
    · rw [hr.mem_iff hx]
      exact and_iff_right hx
  unfold Transparent
  simp only [hshown]
  exact funext_iff.symm

theorem Accounts.get_eq_none_iff (hr : Accounts L orig ps as) (hx : x ≠ 0) :
    debugBpGet ps x = none ↔ x ∉ as.map Armed.addr := by
  rw [debugBpGet_eq_none, hr.mem_iff hx, not_exists]

/-- A slot in use rewritten in none but its address. -/
theorem Armed.In.update {t : Fin maxBps → BpT} (hin : a.In L orig (t i)) {j : Fin maxBps}
    (hij : i ≠ j) : a.In L orig (Function.update t j bp i) := by
  rwa [Function.update_of_ne hij]

/-- `debug_bp_set` with `BP_SOFT`, and a slot for it. -/
theorem armSlot_soft :
    armSlot (softHooks L h) bp addr .soft mem =
      (0, { hw := false
            addr := addr
            len := L.len (debugReadAt mem addr 16)
            trace := false
            data := debugReadAt mem addr 16 }, debugWriteAt mem addr [trapByte] 1) := by
  unfold armSlot setBp softHooks BpT.saved
  dsimp only
  rw [if_pos le_rfl]
  rfl

/-- The table with a new breakpoint in a free slot. -/
theorem Accounts.put (hr : Accounts L orig ps as) (hi : ps.addrs i = 0) (haddr : addr ≠ 0)
    (hmem : addr ∉ as.map Armed.addr) {w : Mem}
    (hin : Armed.In L orig ⟨addr, as.map Armed.addr⟩ bp) :
    Accounts L orig { ps.put i bp with bpsN := ps.bpsN + 1, world := w }
      (⟨addr, as.map Armed.addr⟩ :: as) := by
  have hnone : ∀ j, ps.addrs j ≠ addr := fun j hj => hmem ((hr.mem_iff haddr).mpr ⟨j, hj⟩)
  refine ⟨?_, ?_, List.nodup_cons.mpr ⟨hmem, hr.nodup⟩, ?_, ?_, ?_⟩
  · change Tallied (ps.put i _).addrs (ps.bpsN + 1)
    have hat : bp.addr = addr := hin.addr
    rw [addrs_put, hat]
    exact hr.tallied.take hi haddr hnone
  · rw [List.length_cons]
    push_cast
    rw [hr.length]
  · intro a ha
    rcases List.mem_cons.mp ha with rfl | ha
    · exact ⟨haddr, hmem⟩
    · exact hr.fresh a ha
  · intro a ha
    rcases List.mem_cons.mp ha with rfl | ha
    · refine ⟨i, ?_⟩
      change Armed.In L orig _ (Function.update ps.bps i _ i)
      rw [Function.update_self]
      exact hin
    · obtain ⟨j, hj⟩ := hr.slot a ha
      refine ⟨j, hj.update fun hji => (hr.fresh a ha).1 ?_⟩
      rw [← hj.addr, hji]
      exact hi
  · intro j
    change (ps.put i _).addrs j ≠ 0 → (ps.put i _).addrs j ∈ _
    rw [addrs_put, List.map_cons, List.mem_cons]
    by_cases hji : j = i
    · rw [hji, Function.update_self]
      exact fun _ => Or.inl hin.addr
    · rw [Function.update_of_ne hji]
      exact fun hj => Or.inr (hr.used j hj)

/-- **A call that sets a breakpoint.** -/
theorem Accounts.set (hr : Accounts L orig ps as) (hw : ps.world = shown orig (as.map Armed.addr))
    (h : ArchHooks Mem) (addr : BpAddr) :
    ∃ ps', softStep L h ps (.set addr) = some ps' ∧
      Accounts L orig ps' (armedStep as (.set addr)) ∧
      ps'.world = shown orig ((armedStep as (.set addr)).map Armed.addr) := by
  obtain ⟨addr, haddr⟩ := addr
  have hlength := hr.length
  unfold softStep bpStep debugBpSet armedStep
  dsimp only
  rw [if_neg haddr]
  by_cases hfull : as.length = maxBps
  · rw [if_pos (show ps.bpsN = maxBps by rw [← hlength, hfull]), if_pos (Or.inl hfull)]
    exact ⟨ps, rfl, hr, hw⟩
  · have hn : ps.bpsN ≠ maxBps := fun h => hfull (by omega)
    rw [if_neg hn]
    by_cases hmem : addr ∈ as.map Armed.addr
    · -- it is set already
      have hsome : (debugBpGet ps addr).isSome :=
        Option.isSome_iff_ne_none.mpr fun hnone => (hr.get_eq_none_iff haddr).mp hnone hmem
      rw [if_pos hsome, if_pos (Or.inr hmem)]
      exact ⟨ps, rfl, hr, hw⟩
    · have hnone := (hr.get_eq_none_iff haddr).mpr hmem
      obtain ⟨k, hk⟩ := hr.tallied.exists_free hn
      obtain ⟨i, hfree⟩ : ∃ i, debugBpGet ps 0 = some i :=
        Option.ne_none_iff_exists'.mp fun hnone => debugBpGet_eq_none.mp hnone k hk
      have hi := (debugBpGet_eq_some.mp hfree).1
      rw [hnone, hfree, if_neg (by simp), if_neg (not_or.mpr ⟨hfull, hmem⟩), Option.map_some,
        armSlot_soft, hw]
      dsimp only
      rw [if_neg (lt_irrefl 0)]
      exact ⟨_, rfl, hr.put hi haddr hmem ⟨rfl, rfl, rfl, rfl⟩, debugWriteAt_trap⟩

/-- The breakpoints without one of them. -/
theorem map_filter_addr (addr : ut64) (hnodup : (as.map Armed.addr).Nodup) :
    (as.filter fun a => a.addr ≠ addr).map Armed.addr = (as.map Armed.addr).erase addr := by
  rw [hnodup.erase_eq_filter, List.filter_map]
  refine congrArg _ (List.filter_congr fun a _ => ?_)
  rw [Function.comp_apply, Bool.eq_iff_iff, decide_eq_true_eq, bne_iff_ne]

/-- The table without the breakpoint of a slot. -/
theorem Accounts.freed (hr : Accounts L orig ps as) (haddr : addr ≠ 0) (hi : ps.addrs i = addr)
    (r : HookRet Mem) :
    Accounts L orig (ps.freed i r) (as.filter fun a => a.addr ≠ addr) := by
  have hused : ps.addrs i ≠ 0 := hi ▸ haddr
  have hmem : addr ∈ as.map Armed.addr := hi ▸ hr.used i hused
  have hlength := congrArg List.length (map_filter_addr addr hr.nodup)
  rw [List.length_map, List.length_erase_of_mem hmem, List.length_map] at hlength
  have hpos := List.length_pos_of_mem hmem
  rw [List.length_map] at hpos
  refine ⟨tallied_freed hr.tallied hused, ?_, ?_, ?_, ?_, ?_⟩
  · have := hr.length
    rw [hlength]
    change ((as.length - 1 : ℕ) : ℤ) = ps.bpsN - 1
    omega
  · rw [map_filter_addr addr hr.nodup]
    exact hr.nodup.erase addr
  · exact fun a ha => hr.fresh a (List.mem_of_mem_filter ha)
  · intro a ha
    obtain ⟨ha, hne⟩ := List.mem_filter.mp ha
    obtain ⟨j, hj⟩ := hr.slot a ha
    refine ⟨j, hj.update fun hji => of_decide_eq_true hne ?_⟩
    rw [← hj.addr, hji]
    exact hi
  · intro j hj
    rw [map_filter_addr addr hr.nodup]
    rw [addrs_freed] at hj ⊢
    by_cases hji : j = i
    · rw [hji, Function.update_self] at hj
      exact absurd rfl hj
    · rw [Function.update_of_ne hji] at hj ⊢
      refine (List.mem_erase_of_ne fun heq => hji ?_).mpr (hr.used j hj)
      exact hr.tallied.distinct j i hj (heq.trans hi.symm)

/-- **A call that removes one.** -/
theorem Accounts.rm (hr : Accounts L orig ps as) (hw : ps.world = shown orig (as.map Armed.addr))
    (h : ArchHooks Mem) (addr : BpAddr) :
    ∃ ps', softStep L h ps (.rm addr) = some ps' ∧
      Accounts L orig ps' (armedStep as (.rm addr)) ∧
      (ps'.world = shown orig ((armedStep as (.rm addr)).map Armed.addr) ↔
        armedOk L orig as (.rm addr)) := by
  obtain ⟨addr, haddr⟩ := addr
  unfold softStep bpStep armedStep armedOk
  dsimp only
  refine ⟨_, rfl, ?_⟩
  rw [map_filter_addr addr hr.nodup]
  cases hget : debugBpGet ps addr with
  | none =>
    have hmem := (hr.get_eq_none_iff haddr).mp hget
    have hne : ∀ a ∈ as, a.addr ≠ addr := fun a ha heq => hmem (heq ▸ List.mem_map_of_mem ha)
    have hrm : (debugBpRm (softHooks L h) ps addr).2 = ps := by
      unfold debugBpRm
      rw [hget]
    have hfilter : (as.filter fun a => a.addr ≠ addr) = as :=
      List.filter_eq_self.mpr fun a ha => decide_eq_true (hne a ha)
    rw [hrm, hfilter, List.erase_of_not_mem hmem]
    exact ⟨hr, iff_of_true hw fun a ha heq => absurd heq (hne a ha)⟩
  | some i =>
    obtain ⟨hi, -⟩ := debugBpGet_eq_some.mp hget
    have hused : ps.addrs i ≠ 0 := hi ▸ haddr
    have hmem : addr ∈ as.map Armed.addr := hi ▸ hr.used i hused
    obtain ⟨b, hb, hba⟩ := List.mem_map.mp hmem
    have hin : b.In L orig (ps.bps i) := by
      obtain ⟨j, hj⟩ := hr.slot b hb
      have hji : i = j := hr.tallied.distinct i j hused (hi.trans (hba.symm.trans hj.addr.symm))
      rwa [hji]
    have honly : ∀ a ∈ as, a.addr = addr → a = b := fun a ha haa =>
      List.inj_on_of_nodup_map hr.nodup ha hb (haa.trans hba.symm)
    have hcall : bpRm (softHooks L h) (ps.bps i) ps.world =
        ⟨0, (ps.bps i).len, (ps.bps i).data, debugWriteAt ps.world addr
          (debugReadAt (shown orig b.beside) addr 16) (b.len L orig)⟩ := by
      unfold bpRm
      rw [hin.hw, if_neg Bool.false_ne_true, ← hba, ← hin.data, ← hin.len, ← hin.addr]
      rfl
    have hrm : (debugBpRm (softHooks L h) ps addr).2 =
        ps.freed i (bpRm (softHooks L h) (ps.bps i) ps.world) := by
      unfold debugBpRm
      rw [hget]
      dsimp only
      rw [hcall, if_neg (lt_irrefl 0)]
      rfl
    rw [hrm, hcall]
    constructor
    · exact hr.freed haddr hi _
    · have hlen : b.len L orig ≤ 16 := (L.le _).trans (by omega)
      have hback := write_back_iff orig hlen (L.pos _) (hba ▸ (hr.fresh b hb).2) hr.nodup
      change debugWriteAt ps.world addr _ _ = _ ↔ _
      rw [hw]
      refine hback.trans ⟨fun hk a ha haa => ?_, fun hk => hk b hb hba⟩
      rw [honly a ha haa]
      exact hk

/-! ## Runs -/

/-- What a call makes of the table, and what the account makes of it. -/
theorem Accounts.step (hr : Accounts L orig ps as) (ht : Transparent orig ps)
    (h : ArchHooks Mem) (op : SoftOp) :
    ∃ ps', softStep L h ps op = some ps' ∧ Accounts L orig ps' (armedStep as op) ∧
      (Transparent orig ps' ↔ armedOk L orig as op) := by
  have hw := hr.transparent_iff.mp ht
  cases op with
  | set addr =>
    obtain ⟨ps', hps', hr', hw'⟩ := hr.set hw h addr
    exact ⟨ps', hps', hr', iff_of_true (hr'.transparent_iff.mpr hw') trivial⟩
  | rm addr =>
    obtain ⟨ps', hps', hr', hw'⟩ := hr.rm hw h addr
    exact ⟨ps', hps', hr', hr'.transparent_iff.trans hw'⟩

/-- No breakpoint is set in the empty table. -/
theorem accounts_empty : Accounts L orig (emptyTable orig) [] where
  tallied := (dense_of_free fun _ => rfl).toTallied
  length := rfl
  nodup := List.nodup_nil
  fresh _ ha := absurd ha List.not_mem_nil
  slot _ ha := absurd ha List.not_mem_nil
  used _ hi := absurd rfl hi

theorem transparent_empty : Transparent orig (emptyTable orig) := by
  intro x
  rw [if_neg]
  · rfl
  · rintro ⟨hx, i, hi⟩
    exact hx hi.symm

theorem softRun_keeps_iff (L : InsLen) (h : ArchHooks Mem) (orig : Mem) (ops : List SoftOp) :
    RunKeeps (softStep L h) (Transparent orig) (emptyTable orig) ops ↔
      AccountSafe armedStep (armedOk L orig) [] ops := by
  refine runs_keep_iff_account ?_ ?_ transparent_empty (accounts_empty (L := L))
  · intro ps as op ht hr
    obtain ⟨ps', hps', -, hiff⟩ := hr.step ht h op
    rw [hps', ← hiff]
    simp only [Option.some.injEq, exists_eq_left']
  · intro ps as op ps' ht hr hps'
    obtain ⟨t, hps, hr', -⟩ := hr.step ht h op
    obtain rfl := Option.some.inj (hps.symm.trans hps')
    exact hr'

/-- **When software breakpoints are transparent**: after every call, if and
only if at each removal the other breakpoints within the instruction saved
are those that were set when it was. -/
theorem softRun_transparent_iff (L : InsLen) (h : ArchHooks Mem) (orig : Mem) (ops : List SoftOp) :
    (∀ pre, pre <+: ops →
        ∃ ps, runOps (softStep L h) (emptyTable orig) pre = some ps ∧ Transparent orig ps) ↔
      ∀ pre addr, pre ++ [.rm addr] <+: ops →
        armedOk L orig (pre.foldl armedStep []) (.rm addr) := by
  refine (softRun_keeps_iff L h orig ops).trans ⟨fun hok pre addr => hok pre (.rm addr), ?_⟩
  intro hok pre op hpre
  cases op with
  | set addr => trivial
  | rm addr => exact hok pre addr hpre

/-- **Removed in the order they were set**: the trap of the second is gone
with the first, whose instruction is two bytes long. -/
theorem trap_written_over :
    ¬RunKeeps (softStep ⟨fun _ => 2, fun _ => by decide, fun _ => by decide⟩
        ⟨fun _ => 0, fun bp _ mem => ⟨0, bp.len, bp.data, mem⟩,
          fun bp _ mem => ⟨0, bp.len, bp.data, mem⟩, fun bp mem => ⟨0, bp.len, bp.data, mem⟩,
          fun bp mem => ⟨0, bp.len, bp.data, mem⟩, fun _ mem => mem⟩)
      (Transparent fun _ => 0x90) (emptyTable fun _ => 0x90)
      [.set ⟨0x1000, by decide⟩, .set ⟨0x1001, by decide⟩, .rm ⟨0x1000, by decide⟩] := by
  rw [softRun_keeps_iff]
  intro h
  have has : [SoftOp.set ⟨0x1000, by decide⟩, .set ⟨0x1001, by decide⟩].foldl armedStep [] =
      [⟨0x1001, [0x1000]⟩, ⟨0x1000, []⟩] := by
    decide
  have hrm := h [.set ⟨0x1000, by decide⟩, .set ⟨0x1001, by decide⟩] (.rm ⟨0x1000, by decide⟩)
    List.prefix_rfl
  rw [has] at hrm
  have hrm := hrm ⟨0x1000, []⟩ (by decide) rfl 1 le_rfl (by decide)
  revert hrm
  decide

end Radare
