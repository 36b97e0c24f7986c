import Radare.Vm.Regs
/-!
# The stack of the VM

`vm_stack_push` moves the stack pointer up and writes a record to the cache at
where it points, so that the next read there is answered from the cache, and
`vm_mmu_read` returns the length. `vm_stack_pop` takes that for an error, and does
nothing (`vmStackPop_cached`). What is popped is what was pushed only where the
register has it already and the stack pointer has come around (`vmStack_iff`).
-/

namespace Radare

open Common

/-- A register is read by a name and set by it without a script. -/
structure PlainName (regs : List VmReg) (name : List u8) : Prop where
  ne_nil : name ≠ []
  short : name.length ≤ 15
  get : (entryAt regs (vmRegLike regs name)).bind VmReg.get = none
  set : (entryAt regs (vmRegNamed regs name)).bind VmReg.set = none

/-- Values are pushed one after the other. -/
def vmStackPushes (env : VmEnv) : Vm → List UInt32 → Option Vm :=
  List.foldlM (vmStackPush env (vmScripted env))

/-- A value is popped after the other, and the register has each in turn. -/
def PopsBack (env : VmEnv) (reg : List u8) : Vm → List UInt32 → Vm → Prop
  | vm, [], popped => vm = popped
  | vm, v :: vs, popped => ∃ vm', vmStackPop env (vmScripted env) vm reg = some vm' ∧
      (vmRegGet env vm' reg).map Prod.snd = some v.toUInt64 ∧ PopsBack env reg vm' vs popped

/-- What is pushed is popped, the last value first, and the stack pointer is as
before. -/
def StackLaw (env : VmEnv) (vm : Vm) (reg : List u8) (vs : List UInt32) : Prop :=
  ∃ pushed popped, vmStackPushes env vm vs = some pushed ∧
    PopsBack env reg pushed vs.reverse popped ∧
    (vmRegGet env popped vm.cpu.sp).map Prod.snd = (vmRegGet env vm vm.cpu.sp).map Prod.snd

/-- The stack pointer. -/
def Vm.sp (vm : Vm) : ut64 := vm.value (vmRegLike vm.regs vm.cpu.sp)

/-- The stack pointer is read from the register that is set. -/
def Vm.SpMoves (vm : Vm) : Prop :=
  vmRegNamed vm.regs vm.cpu.sp = vmRegLike vm.regs vm.cpu.sp ∧
    (entryAt vm.regs (vmRegLike vm.regs vm.cpu.sp)).isSome

instance decidableSpMoves (vm : Vm) : Decidable vm.SpMoves := inferInstanceAs (Decidable (_ ∧ _))

/-- How far so many values set the stack pointer. -/
def Vm.spStep (vm : Vm) (k : ℕ) : ut64 := if vm.SpMoves then 4 * UInt64.ofNat k else 4

/-- Where the stack pointer is read to be behind so many values. -/
def Vm.spAt (vm : Vm) (k : ℕ) : ut64 := if vm.SpMoves then vm.sp + 4 * UInt64.ofNat k else vm.sp

/-- The records of the values. -/
def Vm.pushChanges (vm : Vm) (vs : List UInt32) : List VmChange :=
  vs.mapIdx fun k v => ⟨vm.spAt (k + 1), vm.spAt (k + 1) + 4, bytesOf 4 v.toNat⟩

/-- The VM behind some values: the register is set, and the records are in the
cache. -/
def Vm.pushed (vm : Vm) (vs : List UInt32) : Vm :=
  { vm.put (vm.sp + vm.spStep vs.length) (vmRegNamed vm.regs vm.cpu.sp) with
    mem := { vm.mem with cache := vm.mem.cache ++ vm.pushChanges vs } }

variable {env : VmEnv} {vm vm' : Vm} {regs : List VmReg} {name reg : List u8} {v : ut64}
variable {vs : List UInt32}

/-! ## Names and values -/

theorem vmRegNamed_changeAt (hshort : name.length ≤ 15) (v : ut64) (i : Option ℕ) :
    vmRegNamed (changeAt (VmReg.put v) regs i) name = vmRegNamed regs name :=
  findIdx?_changeAt i fun _ => decide_eq_decide.mpr (VmReg.eq_text_put hshort)

theorem vmRegLike_changeAt (hshort : name.length ≤ 15) (v : ut64) (i : Option ℕ) :
    vmRegLike (changeAt (VmReg.put v) regs i) name = vmRegLike regs name :=
  findIdx?_changeAt i fun _ => decide_eq_decide.mpr (VmReg.like_put hshort)

theorem PlainName.changeAt (h : PlainName regs name) (v : ut64) (i : Option ℕ) :
    PlainName (changeAt (VmReg.put v) regs i) name := by
  have hget : ∀ e : Option VmReg, (e.map (VmReg.put v)).bind VmReg.get = e.bind VmReg.get := by
    intro e
    cases e <;> rfl
  have hset : ∀ e : Option VmReg, (e.map (VmReg.put v)).bind VmReg.set = e.bind VmReg.set := by
    intro e
    cases e <;> rfl
  refine ⟨h.ne_nil, h.short, ?_, ?_⟩
  · rw [vmRegLike_changeAt h.short, entryAt_changeAt]
    split_ifs
    · rw [hget, h.get]
    · exact h.get
  · rw [vmRegNamed_changeAt h.short, entryAt_changeAt]
    split_ifs
    · rw [hset, h.set]
    · exact h.set

theorem PlainName.vmRegGet (h : PlainName vm.regs name) :
    vmRegGet env vm name = some (vm, vm.value (vmRegLike vm.regs name)) := by
  rw [Radare.vmRegGet, if_neg h.ne_nil]
  dsimp only
  rw [h.get]

theorem PlainName.vmRegSet (h : PlainName vm.regs name) :
    vmRegSet env vm name v = some (vm.put v (vmRegNamed vm.regs name)) := by
  unfold Radare.vmRegSet
  dsimp only
  rw [h.set]

theorem Vm.value_put (vm : Vm) (v : ut64) (i j : Option ℕ) :
    (vm.put v i).value j = if i = j ∧ (entryAt vm.regs j).isSome then v else vm.value j := by
  unfold Vm.value Vm.put
  dsimp only
  rw [entryAt_changeAt]
  cases hentry : entryAt vm.regs j with
  | none => simp
  | some r => by_cases hij : i = j <;> simp [hij, VmReg.put]

/-! ## Pushing -/

/-- A write to the cache is a record more, that answers a read of the same place. -/
theorem write_cached (hreal : vm.mem.realio = false) (off : ut64) (data : List u8) :
    vm.write env off data =
      { vm with mem := { vm.mem with cache := vmMmuCacheWrite vm.mem.cache off data } } := by
  have hwrite : vmMmuWrite env.fresh vm.mem off data =
      ({ vm.mem with cache := vmMmuCacheWrite vm.mem.cache off data }, 0) :=
    if_neg (by rw [hreal]; exact Bool.false_ne_true)
  rw [Vm.write, hwrite]

theorem sp_put (hshort : vm.cpu.sp.length ≤ 15) (v : ut64) :
    (vm.put v (vmRegNamed vm.regs vm.cpu.sp)).sp = if vm.SpMoves then v else vm.sp := by
  have hlike : vmRegLike (vm.put v (vmRegNamed vm.regs vm.cpu.sp)).regs vm.cpu.sp =
      vmRegLike vm.regs vm.cpu.sp := vmRegLike_changeAt hshort v _
  have hsp : (vm.put v (vmRegNamed vm.regs vm.cpu.sp)).sp =
      (vm.put v (vmRegNamed vm.regs vm.cpu.sp)).value (vmRegLike vm.regs vm.cpu.sp) :=
    congrArg _ hlike
  rw [hsp, Vm.value_put]
  rfl

/-- **A push**, without scripts: the pointer is set, and read again. -/
theorem vmStackPush_plain (hsp : PlainName vm.regs vm.cpu.sp) (val : UInt32) :
    vmStackPush env (vmScripted env) vm val =
      some ((vm.put (vm.sp + 4) (vmRegNamed vm.regs vm.cpu.sp)).write env
        (vm.put (vm.sp + 4) (vmRegNamed vm.regs vm.cpu.sp)).sp (bytesOf 4 val.toNat)) := by
  have hget : (vmScripted env).get vm vm.cpu.sp = some (vm, vm.sp) := hsp.vmRegGet
  have hset : (vmScripted env).set vm vm.cpu.sp (vm.sp + 4) =
      some (vm.put (vm.sp + 4) (vmRegNamed vm.regs vm.cpu.sp)) := hsp.vmRegSet
  have hagain : (vmScripted env).get (vm.put (vm.sp + 4) (vmRegNamed vm.regs vm.cpu.sp))
      (vm.put (vm.sp + 4) (vmRegNamed vm.regs vm.cpu.sp)).cpu.sp =
      some (_, (vm.put (vm.sp + 4) (vmRegNamed vm.regs vm.cpu.sp)).sp) :=
    (hsp.changeAt (vm.sp + 4) _).vmRegGet
  rw [vmStackPush, hget, Option.bind_some]
  dsimp only
  rw [hset, Option.bind_some, hagain, Option.map_some]

/-- What the pushes of some values leave. -/
structure Pushed (vm : Vm) (vs : List UInt32) (vm' : Vm) : Prop where
  regs : vm'.regs = if vs = [] then vm.regs
    else changeAt (VmReg.put (vm.sp + vm.spStep vs.length)) vm.regs (vmRegNamed vm.regs vm.cpu.sp)
  cpu : vm'.cpu = vm.cpu
  vmRealio : vm'.vmRealio = vm.vmRealio
  mem : vm'.mem = { vm.mem with cache := vm.mem.cache ++ vm.pushChanges vs }

theorem Pushed.named (h : Pushed vm vs vm') (hshort : name.length ≤ 15) :
    vmRegNamed vm'.regs name = vmRegNamed vm.regs name := by
  rw [h.regs]
  split_ifs
  · rfl
  · exact vmRegNamed_changeAt hshort _ _

theorem Pushed.like (h : Pushed vm vs vm') (hshort : name.length ≤ 15) :
    vmRegLike vm'.regs name = vmRegLike vm.regs name := by
  rw [h.regs]
  split_ifs
  · rfl
  · exact vmRegLike_changeAt hshort _ _

theorem Pushed.plain (h : Pushed vm vs vm') (hname : PlainName vm.regs name) :
    PlainName vm'.regs name := by
  rw [h.regs]
  split_ifs
  · exact hname
  · exact hname.changeAt _ _

/-- Where the stack pointer is by then. -/
theorem Pushed.sp (h : Pushed vm vs vm') (hshort : vm.cpu.sp.length ≤ 15) :
    vm'.sp = vm.spAt vs.length := by
  have hvalue : vm'.sp = vm'.value (vmRegLike vm.regs vm.cpu.sp) := by
    rw [Vm.sp, h.cpu, h.like hshort]
  unfold Vm.spAt
  by_cases hnil : vs = []
  · have hsame : vm'.sp = vm.sp := by
      rw [hvalue, Vm.value, h.regs, if_pos hnil]
      rfl
    have hzero : vm.sp + 4 * UInt64.ofNat ([] : List UInt32).length = vm.sp := by
      have hofNat : UInt64.ofNat ([] : List UInt32).length = 0 := rfl
      rw [hofNat, UInt64.mul_zero, UInt64.add_zero]
    rw [hsame, hnil, hzero, ite_self]
  · have hput : vm'.sp =
        (vm.put (vm.sp + vm.spStep vs.length) (vmRegNamed vm.regs vm.cpu.sp)).value
          (vmRegLike vm.regs vm.cpu.sp) := by
      rw [hvalue, Vm.value, h.regs, if_neg hnil]
      rfl
    have hwhen : vm.SpMoves ↔ vmRegNamed vm.regs vm.cpu.sp = vmRegLike vm.regs vm.cpu.sp ∧
      (entryAt vm.regs (vmRegLike vm.regs vm.cpu.sp)).isSome := Iff.rfl
    rw [hput, Vm.value_put]
    simp only [← hwhen]
    split_ifs with hmoves
    · rw [Vm.spStep, if_pos hmoves]
    · rfl

theorem Pushed.spMoves_iff (h : Pushed vm vs vm') (hshort : vm.cpu.sp.length ≤ 15) :
    vm'.SpMoves ↔ vm.SpMoves := by
  unfold Vm.SpMoves
  rw [h.cpu, h.named hshort, h.like hshort, h.regs]
  split_ifs
  · rfl
  · rw [entryAt_changeAt, apply_ite Option.isSome, Option.isSome_map, ite_self]

/-- A step of the stack pointer more. -/
theorem Pushed.sp_add (h : Pushed vm vs vm') (hshort : vm.cpu.sp.length ≤ 15) :
    vm'.sp + 4 = vm.sp + vm.spStep (vs.length + 1) := by
  rw [h.sp hshort, Vm.spAt, Vm.spStep]
  split_ifs
  · have hmul : 4 * UInt64.ofNat (vs.length + 1) = 4 * UInt64.ofNat vs.length + 4 := by
      rw [UInt64.ofNat_add, UInt64.mul_add]
      rfl
    rw [hmul, UInt64.add_assoc]
  · rfl

/-- **One push more.** -/
theorem Pushed.push (h : Pushed vm vs vm') (hreal : vm.mem.realio = false)
    (hsp : PlainName vm.regs vm.cpu.sp) (v : UInt32) :
    ∃ vm'', vmStackPush env (vmScripted env) vm' v = some vm'' ∧ Pushed vm (vs ++ [v]) vm'' := by
  have hplain : PlainName vm'.regs vm'.cpu.sp := by
    rw [h.cpu]
    exact h.plain hsp
  have hreal' : (vm'.put (vm'.sp + 4) (vmRegNamed vm'.regs vm'.cpu.sp)).mem.realio = false := by
    show vm'.mem.realio = false
    rw [h.mem]
    exact hreal
  have hregs : changeAt (VmReg.put (vm'.sp + 4)) vm'.regs (vmRegNamed vm'.regs vm'.cpu.sp) =
      changeAt (VmReg.put (vm.sp + vm.spStep (vs ++ [v]).length)) vm.regs
        (vmRegNamed vm.regs vm.cpu.sp) := by
    rw [List.length_append, List.length_singleton, ← h.sp_add hsp.short, h.cpu, h.named hsp.short,
      h.regs]
    split_ifs
    · rfl
    · exact changeAt_changeAt _ _ fun r => rfl
  have hsp' : (vm'.put (vm'.sp + 4) (vmRegNamed vm'.regs vm'.cpu.sp)).sp =
      vm.spAt (vs.length + 1) := by
    rw [sp_put hplain.short, Vm.spAt, h.sp_add hsp.short, h.sp hsp.short]
    simp only [h.spMoves_iff hsp.short]
    split_ifs with hmoves
    · rw [Vm.spStep, if_pos hmoves]
    · rw [Vm.spAt, if_neg hmoves]
  refine ⟨_, vmStackPush_plain hplain v, ?_⟩
  rw [write_cached hreal', hsp']
  refine ⟨hregs.trans (if_neg (List.append_ne_nil_of_right_ne_nil vs (List.cons_ne_nil v []))).symm,
    h.cpu, h.vmRealio, ?_⟩
  have hchanges : vm.pushChanges (vs ++ [v]) = vm.pushChanges vs ++
      [⟨vm.spAt (vs.length + 1), vm.spAt (vs.length + 1) + 4, bytesOf 4 v.toNat⟩] :=
    List.mapIdx_concat
  show (⟨vm'.mem.io, vm'.mem.realio, vmMmuCacheWrite vm'.mem.cache (vm.spAt (vs.length + 1))
    (bytesOf 4 v.toNat)⟩ : VmState) = _
  rw [h.mem, vmMmuCacheWrite, hchanges, List.append_assoc, length_bytesOf]
  rfl

/-- **All pushes.** -/
theorem vmStackPushes_pushed (env : VmEnv) (hreal : vm.mem.realio = false)
    (hsp : PlainName vm.regs vm.cpu.sp) (vs : List UInt32) :
    ∃ vm', vmStackPushes env vm vs = some vm' ∧ Pushed vm vs vm' := by
  induction vs using List.reverseRecOn with
  | nil =>
    refine ⟨vm, rfl, (if_pos rfl).symm, rfl, rfl, ?_⟩
    show vm.mem = { vm.mem with cache := vm.mem.cache ++ [] }
    rw [List.append_nil]
  | append_singleton vs v ih =>
    obtain ⟨vm', hvm', hpushed⟩ := ih
    obtain ⟨vm'', hpush, hmore⟩ := hpushed.push hreal hsp v
    refine ⟨vm'', ?_, hmore⟩
    have happend : vmStackPushes env vm (vs ++ [v]) =
        (vmStackPushes env vm vs).bind fun vm => vmStackPushes env vm [v] := List.foldlM_append
    rw [happend, hvm', Option.bind_some]
    show (vmStackPush env (vmScripted env) vm' v).bind _ = _
    rw [hpush]
    rfl

/-- The cache answers a read at the stack pointer, once something is pushed. -/
theorem Pushed.cached (h : Pushed vm vs vm') (hshort : vm.cpu.sp.length ≤ 15) (hne : vs ≠ []) :
    (vmMmuCacheRead env.behind vm'.mem.cache vm'.sp 4).isSome := by
  have hpos := List.length_pos_iff.mpr hne
  have hlast : vs.length - 1 + 1 = vs.length := by omega
  rw [h.sp hshort, h.mem, vmMmuCacheRead, Option.isSome_map, List.find?_isSome]
  refine ⟨⟨vm.spAt vs.length, vm.spAt vs.length + 4, bytesOf 4 (vs.getLast hne).toNat⟩,
    List.mem_append_right _ ?_, decide_eq_true ⟨UInt64.le_refl _, UInt64.le_refl _⟩⟩
  refine List.mem_of_getElem? (i := vs.length - 1) ?_
  rw [Vm.pushChanges, List.getElem?_mapIdx, ← List.getLast?_eq_getElem?,
    List.getLast?_eq_some_getLast hne, Option.map_some, hlast]

/-- The VM behind the values is the one that is written down. -/
theorem Pushed.eq (h : Pushed vm vs vm') (hne : vs ≠ []) : vm' = vm.pushed vs := by
  obtain ⟨mem', vmRealio', regs', cpu'⟩ := vm'
  obtain ⟨hregs, rfl, rfl, rfl⟩ := h
  have hput : regs' = (vm.pushed vs).regs := hregs.trans (if_neg hne)
  rw [hput]
  rfl

/-! ## Popping -/

/-- **A pop does nothing**, where the cache answers the read. -/
theorem vmStackPop_cached (hreal : vm.mem.realio = false) (hsp : PlainName vm.regs vm.cpu.sp)
    (hcached : (vmMmuCacheRead env.behind vm.mem.cache vm.sp 4).isSome) (reg : List u8) :
    vmStackPop env (vmScripted env) vm reg = some vm := by
  have hget : (vmScripted env).get vm vm.cpu.sp = some (vm, vm.sp) := hsp.vmRegGet
  obtain ⟨data, hdata⟩ := Option.isSome_iff_exists.mp hcached
  have hread : vmMmuRead env.behind vm.mem vm.sp (List.replicate 4 0) = (vm.mem, data, 4) :=
    vmMmuRead_of_cached hreal hdata
  rw [vmStackPop, hget, Option.bind_some]
  dsimp only
  rw [hread]
  exact if_pos (Nat.succ_ne_zero 3)

/-- So nothing is popped, and the register has had all the values from the start. -/
theorem popsBack_iff (hpop : vmStackPop env (vmScripted env) vm reg = some vm)
    (vs : List UInt32) (popped : Vm) :
    PopsBack env reg vm vs popped ↔
      vm = popped ∧ ∀ v ∈ vs, (vmRegGet env vm reg).map Prod.snd = some v.toUInt64 := by
  induction vs with
  | nil => exact (and_iff_left fun v hv => absurd hv List.not_mem_nil).symm
  | cons v vs ih =>
    rw [PopsBack, hpop]
    simp only [Option.some.injEq, exists_eq_left']
    rw [ih, List.forall_mem_cons]
    tauto

/-! ## The result -/

/-- The stack pointer comes around after so many pushes. -/
theorem spStep_eq_iff (sp : ut64) (n : ℕ) : sp + 4 * UInt64.ofNat n = sp ↔ 2 ^ 62 ∣ n := by
  rw [UInt64.add_eq_left, ← UInt64.toNat_inj, UInt64.toNat_mul, UInt64.toNat_ofNat']
  have hfour : (4 : ut64).toNat = 4 := rfl
  have hzero : (0 : ut64).toNat = 0 := rfl
  rw [hfour, hzero]
  omega

/-- **When the stack gives back what was pushed**: nothing is pushed; or the pointer
does not move, or comes around, and the register is read with each of the values
behind the pushes. -/
theorem vmStack_iff (env : VmEnv) (vm : Vm) (reg : List u8) (vs : List UInt32)
    (hreal : vm.mem.realio = false) (hsp : PlainName vm.regs vm.cpu.sp) :
    StackLaw env vm reg vs ↔ vs = [] ∨ (vm.SpMoves → 2 ^ 62 ∣ vs.length) ∧
      ∀ v ∈ vs, (vmRegGet env (vm.pushed vs) reg).map Prod.snd = some v.toUInt64 := by
  obtain ⟨vm', hvm', hpushed⟩ := vmStackPushes_pushed env hreal hsp vs
  have hlaw : StackLaw env vm reg vs ↔ ∃ popped, PopsBack env reg vm' vs.reverse popped ∧
      (vmRegGet env popped vm.cpu.sp).map Prod.snd = some vm.sp := by
    unfold StackLaw
    rw [hvm', hsp.vmRegGet]
    simp only [Option.some.injEq, exists_and_left, exists_eq_left', Option.map_some]
    rfl
  have hplain : PlainName vm'.regs vm'.cpu.sp := by
    rw [hpushed.cpu]
    exact hpushed.plain hsp
  have hend : (vmRegGet env vm' vm.cpu.sp).map Prod.snd = some vm.sp ↔
      (vm.SpMoves → 2 ^ 62 ∣ vs.length) := by
    have hvalue : (vmRegGet env vm' vm.cpu.sp).map Prod.snd = some vm'.sp := by
      rw [← hpushed.cpu, hplain.vmRegGet]
      rfl
    rw [hvalue, Option.some.injEq, hpushed.sp hsp.short, Vm.spAt]
    split_ifs with hmoves
    · rw [spStep_eq_iff]
      exact ⟨fun h _ => h, fun h => h hmoves⟩
    · exact iff_of_true rfl fun h => absurd h hmoves
  rw [hlaw]
  by_cases hnil : vs = []
  · subst hnil
    exact iff_of_true ⟨vm', rfl, hend.mpr fun _ => Nat.dvd_zero _⟩ (Or.inl rfl)
  · have hreal' : vm'.mem.realio = false := by
      rw [hpushed.mem]
      exact hreal
    have hpop : vmStackPop env (vmScripted env) vm' reg = some vm' :=
      vmStackPop_cached hreal' hplain (hpushed.cached hsp.short hnil) reg
    simp only [popsBack_iff hpop, and_assoc, exists_eq_left', hend, List.mem_reverse]
    rw [hpushed.eq hnil, or_iff_right hnil, and_comm]

/-- A VM with `esp` and `eax`, and cached memory. -/
def espAndEax : Vm :=
  { registersOnly (vmRegAdd 0 [101, 97, 120] .int32 0 (vmRegAdd 0 [101, 115, 112] .int32 0 [])) with
    cpu := ⟨[101, 105, 112], [101, 115, 112], [122, 102]⟩ }

theorem plainName_esp : PlainName espAndEax.regs espAndEax.cpu.sp :=
  ⟨by decide, by decide, by decide, by decide⟩

/-- Zero is pushed and popped, and the stack pointer is not as before. -/
theorem vmStack_zero : ¬StackLaw zerosOutside espAndEax [101, 97, 120] [0] := by
  rw [vmStack_iff zerosOutside espAndEax [101, 97, 120] [0] rfl plainName_esp]
  rintro (hnil | ⟨hround, -⟩)
  · cases hnil
  · exact absurd (hround (by decide)) (by decide)

/-- Seven is pushed, and is not popped to `eax`. -/
theorem seven_not_popped :
    espAndEax.mem.realio = false ∧ PlainName espAndEax.regs espAndEax.cpu.sp ∧
      ¬StackLaw zerosOutside espAndEax [101, 97, 120] [7] := by
  refine ⟨rfl, plainName_esp, ?_⟩
  rintro ⟨pushed, popped, hpush, ⟨vm', hpop, hget, -⟩, -⟩
  have hrun : (vmStackPushes zerosOutside espAndEax [7]).bind (fun vm =>
      (vmStackPop zerosOutside (vmScripted zerosOutside) vm [101, 97, 120]).bind fun vm =>
        (vmRegGet zerosOutside vm [101, 97, 120]).map Prod.snd) = some 0 := by
    decide
  rw [hpush, Option.bind_some, hpop, Option.bind_some, hget] at hrun
  exact absurd hrun (by decide)

end Radare
