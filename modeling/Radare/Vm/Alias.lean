import Radare.Vm.Stack
import Radare.Utils.Bits
/-!
# Parts of a register

`vm_init` gives the registers of x86 to the VM, with `ax`, `al` and `ah` as aliases of
parts of `eax`: each has a script that is run when it is read, and one that is run
when it is set. The scripts are run by the interpreter with the plain accesses. What
is read is the part (`vmRegGet_part`); what setting one does to `eax` is right only for
some values (`vmParts_iff`): the script of `al` clears the bits of `ah` as well, those
of `ax` and `ah` take over bits of the value that are outside of the part, and that of
`ah` cuts `eax` to 32 bits.
-/

namespace Radare

open Common

/-! ## The registers -/

/-- `ax=eax&0xffff` -/
def getAx : List u8 :=
  [97, 120, 61, 101, 97, 120, 38, 48, 120, 102, 102, 102, 102]

/-- `eax=eax>16,eax=eax<16,eax=eax|ax` -/
def setAx : List u8 :=
  [101, 97, 120, 61, 101, 97, 120, 62, 49, 54, 44, 101, 97, 120, 61, 101, 97, 120, 60, 49, 54, 44,
    101, 97, 120, 61, 101, 97, 120, 124, 97, 120]

/-- `al=eax&0xff` -/
def getAl : List u8 :=
  [97, 108, 61, 101, 97, 120, 38, 48, 120, 102, 102]

/-- `al=al&0xff,eax=eax>16,eax=eax<16,eax=eax|al` -/
def setAl : List u8 :=
  [97, 108, 61, 97, 108, 38, 48, 120, 102, 102, 44, 101, 97, 120, 61, 101, 97, 120, 62, 49, 54,
    44, 101, 97, 120, 61, 101, 97, 120, 60, 49, 54, 44, 101, 97, 120, 61, 101, 97, 120, 124, 97,
    108]

/-- `ah=eax&0xff00,ah=ah>8` -/
def getAh : List u8 :=
  [97, 104, 61, 101, 97, 120, 38, 48, 120, 102, 102, 48, 48, 44, 97, 104, 61, 97, 104, 62, 56]

/-- `eax=eax&0xFFFF00ff,ah=ah<8,eax=eax|ah,ah=ah>8` -/
def setAh : List u8 :=
  [101, 97, 120, 61, 101, 97, 120, 38, 48, 120, 70, 70, 70, 70, 48, 48, 102, 102, 44, 97, 104, 61,
    97, 104, 60, 56, 44, 101, 97, 120, 61, 101, 97, 120, 124, 97, 104, 44, 97, 104, 61, 97, 104,
    62, 56]

/-- The parts that have scripts, and the register they are of. -/
inductive EaxPart where
  | eax
  | ax
  | al
  | ah
deriving DecidableEq

namespace EaxPart

/-- How it is written. -/
def name : EaxPart → List u8
  | eax => [101, 97, 120]
  | ax => [97, 120]
  | al => [97, 108]
  | ah => [97, 104]

/-- What `vm_reg_alias` gives it, for reading. -/
def getScript : EaxPart → Option (List u8)
  | eax => none
  | ax => some getAx
  | al => some getAl
  | ah => some getAh

/-- And for setting. -/
def setScript : EaxPart → Option (List u8)
  | eax => none
  | ax => some setAx
  | al => some setAl
  | ah => some setAh

/-- Where it is in the list. -/
def index : EaxPart → ℕ
  | eax => 0
  | ax => 1
  | al => 2
  | ah => 3

/-- Its lowest bit in `eax`. -/
def low : EaxPart → ℕ
  | eax => 0
  | ax => 0
  | al => 0
  | ah => 8

/-- How many bits of a value are for it. -/
def width : EaxPart → ℕ
  | eax => 64
  | ax => 16
  | al => 8
  | ah => 8

end EaxPart

/-- The registers that `vm_init` adds for x86; `last` is what `malloc` gives behind the
name of each. -/
def vmInitX86 (last : ℕ → u8) : List VmReg :=
  let add := fun i name type regs => vmRegAdd (last i) name type 0 regs
  let aliased := fun (part : EaxPart) regs =>
    vmRegAlias part.name part.getScript part.setScript regs
  let regs := add 0 EaxPart.eax.name .int32 []
  let regs := aliased .ax (add 1 EaxPart.ax.name .int16 regs)
  let regs := aliased .al (add 2 EaxPart.al.name .int8 regs)
  let regs := aliased .ah (add 3 EaxPart.ah.name .int8 regs)
  let regs := add 4 [101, 98, 120] .int32 regs
  let regs := add 5 [101, 99, 120] .int32 regs
  let regs := add 6 [101, 100, 120] .int32 regs
  let regs := add 7 [101, 115, 105] .int32 regs
  let regs := add 8 [101, 100, 105] .int32 regs
  let regs := add 9 [101, 105, 112] .int32 regs
  let regs := add 10 [101, 115, 112] .int32 regs
  let regs := add 11 [101, 98, 112] .int32 regs
  let regs := add 12 [122, 102] .bit regs
  add 13 [99, 102] .bit regs

/-- The registers of `vm_init`, with any values. -/
def X86Regs (last : ℕ → u8) (regs : List VmReg) : Prop :=
  regs.map (VmReg.put 0) = vmInitX86 last

/-- The part as `vm_reg_get` finds it. -/
def Vm.part (vm : Vm) (p : EaxPart) : ut64 := vm.value (vmRegLike vm.regs p.name)

/-- The part as `vm_reg_set` finds it. -/
def Vm.setPart (vm : Vm) (p : EaxPart) (v : ut64) : Vm := vm.put v (vmRegNamed vm.regs p.name)

/-- A bit of a value. -/
def bitOf (x : ut64) (i : ℕ) : Bool := x.toNat.testBit i

/-- Setting a part changes its bits of `eax` to the low bits of the value, and no
others. -/
def SetsPart (env : VmEnv) (vm : Vm) (p : EaxPart) (v : ut64) : Prop :=
  ∃ vm' e e', (vmRegGet env vm EaxPart.eax.name).map Prod.snd = some e ∧
    vmRegSet env vm p.name v = some vm' ∧
    (vmRegGet env vm' EaxPart.eax.name).map Prod.snd = some e' ∧
    ∀ i < 64, bitOf e' i =
      if p.low ≤ i ∧ i < p.low + p.width then bitOf v (i - p.low) else bitOf e i

/-- A part is read as its bits of `eax`. -/
def ReadsPart (env : VmEnv) (vm : Vm) (p : EaxPart) : Prop :=
  ∃ e x, (vmRegGet env vm EaxPart.eax.name).map Prod.snd = some e ∧
    (vmRegGet env vm p.name).map Prod.snd = some x ∧
    ∀ i < 64, bitOf x i = (decide (i < p.width) && bitOf e (p.low + i))

/-- A bit outside of the part is not lost from `eax`, and not added to it. -/
def EaxPart.KeepsBit (e v : ut64) (i : ℕ) : EaxPart → Prop
  | eax => True
  | ax => 16 ≤ i → bitOf v i → bitOf e i
  | al => 8 ≤ i → i < 16 → ¬bitOf e i
  | ah => (16 ≤ i → i < 32 → bitOf v (i - 8) → bitOf e i) ∧
      (32 ≤ i → bitOf e i = bitOf v (i - 8))

/-- Every bit is kept. -/
def EaxPart.Kept (e v : ut64) (p : EaxPart) : Prop := ∀ i < 64, p.KeepsBit e v i

variable {env : VmEnv} {vm : Vm} {regs : List VmReg} {last : ℕ → u8} {p q : EaxPart}
variable {e v : ut64} {byte : u8} {i : ℕ}

theorem EaxPart.short (p : EaxPart) : p.name.length ≤ 15 := by cases p <;> decide

theorem EaxPart.name_ne_nil (p : EaxPart) : p.name ≠ [] := by cases p <;> decide

theorem EaxPart.index_inj : p.index = q.index ↔ p = q := by cases p <;> cases q <;> decide

/-! ## Where the parts are -/

theorem length_take_name (name : List u8) : (name.take 15).length ≤ 15 :=
  List.length_take_le 15 name

/-- A register as it is added. -/
def plainReg (byte : u8) (name : List u8) (type : VmRegType) : VmReg :=
  ⟨name.take 15, byte, 0, type, none, none, length_take_name name⟩

theorem text_plainReg {name : List u8} {type : VmRegType} (hshort : name.length < 15) :
    (plainReg byte name type).text = name := by
  have htake : name.take 15 = name := List.take_of_length_le (by omega)
  have hname : (plainReg byte name type).name = name := htake
  rw [VmReg.text, hname, if_pos hshort]

/-- An alias of the register that has just been added. -/
theorem vmRegAlias_vmRegAdd {name : List u8} (get set : Option (List u8)) (type : VmRegType)
    (hshort : name.length < 15) (hnew : ∀ r ∈ regs, r.text ≠ name) :
    vmRegAlias name get set (vmRegAdd byte name type 0 regs) =
      regs ++ [{ plainReg byte name type with get := get, set := set }] := by
  induction regs with
  | nil =>
    have hnamed : vmRegNamed [plainReg byte name type] name = some 0 := by
      rw [vmRegNamed, List.findIdx?_cons, text_plainReg hshort]
      exact if_pos (decide_eq_true rfl)
    have halias : vmRegAlias name get set [plainReg byte name type] = _ :=
      congrArg (changeAt _ _) hnamed
    exact halias
  | cons r regs ih =>
    obtain ⟨hr, hregs⟩ := List.forall_mem_cons.mp hnew
    have hskip : vmRegNamed (r :: vmRegAdd byte name type 0 regs) name =
        (vmRegNamed (vmRegAdd byte name type 0 regs) name).map (· + 1) := by
      rw [vmRegNamed, List.findIdx?_cons, if_neg]
      · rfl
      · exact fun heq => hr (of_decide_eq_true heq).symm
    have hcons : vmRegAlias name get set (r :: vmRegAdd byte name type 0 regs) =
        r :: vmRegAlias name get set (vmRegAdd byte name type 0 regs) := by
      rw [vmRegAlias, hskip, changeAt_cons]
      rfl
    exact hcons.trans (congrArg (r :: ·) (ih hregs))

/-- A part with its scripts. -/
def EaxPart.reg (byte : u8) (p : EaxPart) (type : VmRegType) : VmReg :=
  { plainReg byte p.name type with get := p.getScript, set := p.setScript }

theorem text_reg (byte : u8) (p : EaxPart) (type : VmRegType) : (p.reg byte type).text = p.name :=
  text_plainReg (by cases p <;> decide)

/-- The registers that are no parts. -/
def otherRegs (last : ℕ → u8) : List VmReg :=
  [plainReg (last 4) [101, 98, 120] .int32, plainReg (last 5) [101, 99, 120] .int32,
    plainReg (last 6) [101, 100, 120] .int32, plainReg (last 7) [101, 115, 105] .int32,
    plainReg (last 8) [101, 100, 105] .int32, plainReg (last 9) [101, 105, 112] .int32,
    plainReg (last 10) [101, 115, 112] .int32, plainReg (last 11) [101, 98, 112] .int32,
    plainReg (last 12) [122, 102] .bit, plainReg (last 13) [99, 102] .bit]

/-- **The first registers** are the parts. -/
theorem vmInitX86_eq (last : ℕ → u8) :
    vmInitX86 last = EaxPart.eax.reg (last 0) .int32 :: EaxPart.ax.reg (last 1) .int16 ::
      EaxPart.al.reg (last 2) .int8 :: EaxPart.ah.reg (last 3) .int8 :: otherRegs last := by
  have hadd : ∀ (byte : u8) (p : EaxPart) (type : VmRegType) (regs : List VmReg),
      (∀ r ∈ regs, r.text ≠ p.name) →
        vmRegAlias p.name p.getScript p.setScript (vmRegAdd byte p.name type 0 regs) =
          regs ++ [p.reg byte type] := fun byte p type regs hnew =>
    vmRegAlias_vmRegAdd p.getScript p.setScript type (by cases p <;> decide) hnew
  have hax := hadd (last 1) .ax .int16 [EaxPart.eax.reg (last 0) .int32]
    (by simp [text_reg, EaxPart.name])
  have hal := hadd (last 2) .al .int8
    [EaxPart.eax.reg (last 0) .int32, EaxPart.ax.reg (last 1) .int16]
    (by simp [text_reg, EaxPart.name])
  have hah := hadd (last 3) .ah .int8 [EaxPart.eax.reg (last 0) .int32,
    EaxPart.ax.reg (last 1) .int16, EaxPart.al.reg (last 2) .int8]
    (by simp [text_reg, EaxPart.name])
  have heax : vmRegAdd (last 0) EaxPart.eax.name .int32 0 [] =
      [EaxPart.eax.reg (last 0) .int32] := rfl
  unfold vmInitX86
  dsimp only
  rw [heax, hax, List.singleton_append, hal, List.cons_append, List.singleton_append, hah]
  rfl

theorem x86Regs_vmInitX86 (last : ℕ → u8) : X86Regs last (vmInitX86 last) := by
  rw [X86Regs, vmInitX86_eq]
  rfl

theorem X86Regs.changeAt (h : X86Regs last regs) (v : ut64) (i : Option ℕ) :
    X86Regs last (changeAt (VmReg.put v) regs i) := by
  have hput : ∀ r : VmReg, (r.put v).put 0 = r.put 0 := fun r => rfl
  exact (map_changeAt regs i hput).trans h

/-- **The entry of a part**, by its place. -/
theorem X86Regs.entry (h : X86Regs last regs) (p : EaxPart) :
    ∃ r type, entryAt regs (some p.index) = some r ∧
      r.put 0 = p.reg (last p.index) type := by
  have hmap : ∃ type, (entryAt regs (some p.index)).map (VmReg.put 0) =
      some (p.reg (last p.index) type) := by
    rw [← entryAt_map, h, vmInitX86_eq]
    cases p
    · exact ⟨.int32, rfl⟩
    · exact ⟨.int16, rfl⟩
    · exact ⟨.int8, rfl⟩
    · exact ⟨.int8, rfl⟩
  obtain ⟨type, htype⟩ := hmap
  obtain ⟨r, hr, hput⟩ := Option.map_eq_some_iff.mp htype
  exact ⟨r, type, hr, hput⟩

theorem X86Regs.like (h : X86Regs last regs) (p : EaxPart) :
    vmRegLike regs p.name = some p.index := by
  have hmap : vmRegLike (regs.map (VmReg.put 0)) p.name = vmRegLike regs p.name := by
    refine List.findIdx?_map.trans (congrArg (List.findIdx? · regs) (funext fun r => ?_))
    exact decide_eq_decide.mpr (VmReg.like_put p.short)
  rw [← hmap, h, vmInitX86_eq]
  cases p <;> simp [vmRegLike, List.findIdx?_cons, text_reg, EaxPart.name, vmRegLen, EaxPart.index]

theorem X86Regs.named (h : X86Regs last regs) (p : EaxPart) :
    vmRegNamed regs p.name = some p.index := by
  have hmap : vmRegNamed (regs.map (VmReg.put 0)) p.name = vmRegNamed regs p.name := by
    refine List.findIdx?_map.trans (congrArg (List.findIdx? · regs) (funext fun r => ?_))
    exact decide_eq_decide.mpr (VmReg.eq_text_put p.short)
  rw [← hmap, h, vmInitX86_eq]
  cases p <;> simp [vmRegNamed, List.findIdx?_cons, text_reg, EaxPart.name, EaxPart.index]

theorem X86Regs.getScript (h : X86Regs last regs) (p : EaxPart) :
    (entryAt regs (some p.index)).bind VmReg.get = p.getScript := by
  obtain ⟨r, type, hr, hput⟩ := h.entry p
  have hget : (r.put 0).get = p.getScript := by rw [hput, EaxPart.reg]
  rw [hr]
  exact hget

theorem X86Regs.setScript (h : X86Regs last regs) (p : EaxPart) :
    (entryAt regs (some p.index)).bind VmReg.set = p.setScript := by
  obtain ⟨r, type, hr, hput⟩ := h.entry p
  have hset : (r.put 0).set = p.setScript := by rw [hput, EaxPart.reg]
  rw [hr]
  exact hset

theorem X86Regs.setPart (h : X86Regs last vm.regs) (p : EaxPart) (v : ut64) :
    X86Regs last (vm.setPart p v).regs := h.changeAt v _

/-- **A part is set**, and the others are as before. -/
theorem X86Regs.part_setPart (h : X86Regs last vm.regs) (p : EaxPart) (v : ut64) :
    (vm.setPart p v).part = Function.update vm.part p v := by
  funext q
  have hlike : (vm.setPart p v).part q = (vm.setPart p v).value (vmRegLike vm.regs q.name) :=
    congrArg _ (vmRegLike_changeAt q.short v _)
  have hentry : (entryAt vm.regs (some q.index)).isSome := by
    obtain ⟨r, type, hr, -⟩ := h.entry q
    rw [hr, Option.isSome_some]
  have hpart : vm.part q = vm.value (some q.index) := congrArg _ (h.like q)
  rw [hlike, Vm.setPart, Vm.value_put, h.like, h.named, Function.update_apply, hpart]
  refine if_congr ?_ rfl rfl
  rw [and_iff_left hentry, Option.some.injEq, EaxPart.index_inj, eq_comm]

/-! ## The scripts -/

/-- An assignment in a script. -/
structure EaxStep where
  part : EaxPart
  value : (EaxPart → ut64) → ut64

/-- What it makes of the parts. -/
def EaxStep.apply (parts : EaxPart → ut64) (step : EaxStep) : EaxPart → ut64 :=
  Function.update parts step.part (step.value parts)

/-- What it makes of the VM. -/
def Vm.step (vm : Vm) (step : EaxStep) : Vm := vm.setPart step.part (step.value vm.part)

/-- What a part's script for reading does. -/
def EaxPart.getSteps : EaxPart → List EaxStep
  | eax => []
  | ax => [⟨ax, fun f => f eax &&& 0xffff⟩]
  | al => [⟨al, fun f => f eax &&& 0xff⟩]
  | ah => [⟨ah, fun f => f eax &&& 0xff00⟩, ⟨ah, fun f => f ah >>> 8⟩]

/-- And that for setting. -/
def EaxPart.setSteps : EaxPart → List EaxStep
  | eax => []
  | ax => [⟨eax, fun f => f eax >>> 16⟩, ⟨eax, fun f => f eax <<< 16⟩,
      ⟨eax, fun f => f eax ||| f ax⟩]
  | al => [⟨al, fun f => f al &&& 0xff⟩, ⟨eax, fun f => f eax >>> 16⟩,
      ⟨eax, fun f => f eax <<< 16⟩, ⟨eax, fun f => f eax ||| f al⟩]
  | ah => [⟨eax, fun f => f eax &&& 0xFFFF00ff⟩, ⟨ah, fun f => f ah <<< 8⟩,
      ⟨eax, fun f => f eax ||| f ah⟩, ⟨ah, fun f => f ah >>> 8⟩]

/-- `vm_eval` sets how memory is accessed. -/
def Vm.evaluated (vm : Vm) : Vm := { vm with mem := { vm.mem with realio := vm.vmRealio } }

/-- **The interpreter on the scripts.** -/
theorem vmEval_getScript {script : List u8} (hscript : p.getScript = some script) :
    vmEval env vmPlain vm script = some (p.getSteps.foldl Vm.step vm.evaluated) := by
  cases p <;> cases hscript <;> rfl

theorem vmEval_setScript {script : List u8} (hscript : p.setScript = some script) :
    vmEval env vmPlain vm script = some (p.setSteps.foldl Vm.step vm.evaluated) := by
  cases p <;> cases hscript <;> rfl

/-- A run of assignments, on the parts alone. -/
theorem X86Regs.foldl_step (h : X86Regs last vm.regs) (steps : List EaxStep) :
    X86Regs last (steps.foldl Vm.step vm).regs ∧
      (steps.foldl Vm.step vm).part = steps.foldl EaxStep.apply vm.part := by
  induction steps generalizing vm with
  | nil => exact ⟨h, rfl⟩
  | cons step steps ih =>
    have hpart : (vm.step step).part = EaxStep.apply vm.part step := h.part_setPart _ _
    have hstep : X86Regs last (vm.step step).regs := h.setPart _ _
    have hrest := ih hstep
    rw [hpart] at hrest
    exact hrest

/-! ## Reading and setting -/

/-- What is read of `eax`. -/
def EaxPart.extract (e : ut64) : EaxPart → ut64
  | eax => e
  | ax => e &&& 0xffff
  | al => e &&& 0xff
  | ah => (e &&& 0xff00) >>> (8 : ut64)

/-- What is made of `eax`. -/
def EaxPart.merge (e v : ut64) : EaxPart → ut64
  | eax => v
  | ax => e >>> 16 <<< 16 ||| v
  | al => e >>> 16 <<< 16 ||| v &&& 0xff
  | ah => e &&& (0xFFFF00ff : ut64) ||| v <<< (8 : ut64)

theorem X86Regs.value_index (h : X86Regs last vm.regs) (p : EaxPart) :
    vm.value (some p.index) = vm.part p := by
  rw [Vm.part, h.like]

/-- **A part is read.** -/
theorem X86Regs.vmRegGet_part (env : VmEnv) (h : X86Regs last vm.regs) (p : EaxPart) :
    ∃ vm', vmRegGet env vm p.name = some (vm', p.extract (vm.part .eax)) ∧
      X86Regs last vm'.regs ∧ vm'.part .eax = vm.part .eax := by
  rw [vmRegGet, if_neg p.name_ne_nil]
  dsimp only
  rw [h.like, h.getScript]
  cases hscript : p.getScript with
  | none =>
    have heax : p = .eax := by cases p <;> first | rfl | cases hscript
    refine ⟨vm, ?_, h, rfl⟩
    rw [h.value_index, heax]
    rfl
  | some script =>
    have heval : X86Regs last vm.evaluated.regs := h
    obtain ⟨hregs, hparts⟩ := heval.foldl_step p.getSteps
    refine ⟨_, ?_, hregs, ?_⟩
    · dsimp only
      rw [vmEval_getScript hscript, Option.map_some, hregs.value_index, hparts]
      cases p <;> rfl
    · rw [hparts]
      cases p <;> rfl

/-- **A part is set.** -/
theorem X86Regs.vmRegSet_part (env : VmEnv) (h : X86Regs last vm.regs) (p : EaxPart) (v : ut64) :
    ∃ vm', vmRegSet env vm p.name v = some vm' ∧
      X86Regs last vm'.regs ∧ vm'.part .eax = p.merge (vm.part .eax) v := by
  have hput : vm.put v (some p.index) = vm.setPart p v := by rw [Vm.setPart, h.named]
  unfold vmRegSet
  dsimp only
  rw [h.named, h.setScript, hput]
  have hset : X86Regs last (vm.setPart p v).evaluated.regs := h.setPart p v
  have hpart : (vm.setPart p v).evaluated.part = Function.update vm.part p v :=
    h.part_setPart p v
  cases hscript : p.setScript with
  | none =>
    have heax : p = .eax := by cases p <;> first | rfl | cases hscript
    refine ⟨_, rfl, hset, ?_⟩
    rw [heax]
    exact congrFun (h.part_setPart .eax v) .eax
  | some script =>
    obtain ⟨hregs, hparts⟩ := hset.foldl_step p.setSteps
    refine ⟨_, vmEval_setScript hscript, hregs, ?_⟩
    rw [hparts, hpart]
    cases p <;> rfl

/-! ## Bits -/

theorem bitOf_and {x y : ut64} : bitOf (x &&& y) i = (bitOf x i && bitOf y i) := by
  rw [bitOf, UInt64.toNat_and, Nat.testBit_and, bitOf, bitOf]

theorem bitOf_or {x y : ut64} : bitOf (x ||| y) i = (bitOf x i || bitOf y i) := testBit_or

theorem bitOf_shiftRight {x k : ut64} (hk : k < 64) :
    bitOf (x >>> k) i = bitOf x (i + k.toNat) := by
  have hmod : k.toNat % 64 = k.toNat := Nat.mod_eq_of_lt (UInt64.lt_iff_toNat_lt.mp hk)
  rw [bitOf, UInt64.toNat_shiftRight, hmod, Nat.testBit_shiftRight, bitOf, Nat.add_comm]

theorem bitOf_shiftLeft {x k : ut64} (hk : k < 64) (hi : i < 64) :
    bitOf (x <<< k) i = (decide (k.toNat ≤ i) && bitOf x (i - k.toNat)) := by
  have hmod : k.toNat % 64 = k.toNat := Nat.mod_eq_of_lt (UInt64.lt_iff_toNat_lt.mp hk)
  rw [bitOf, UInt64.toNat_shiftLeft, hmod, Nat.testBit_mod_two_pow, decide_eq_true hi,
    Bool.true_and, Nat.testBit_shiftLeft, bitOf]

/-- The constants of the scripts. -/
theorem bitOf_masks : ∀ i < 64, bitOf 0xff i = decide (i < 8) ∧ bitOf 0xffff i = decide (i < 16) ∧
    bitOf 0xff00 i = (decide (8 ≤ i) && decide (i < 16)) ∧
    bitOf 0xFFFF00ff i = (decide (i < 8) || (decide (16 ≤ i) && decide (i < 32))) := by
  decide

/-- **The bits that are read.** -/
theorem bitOf_extract (p : EaxPart) (e : ut64) (hi : i < 64) :
    bitOf (p.extract e) i = (decide (i < p.width) && bitOf e (p.low + i)) := by
  obtain ⟨hff, hffff, -, -⟩ := bitOf_masks i hi
  cases p with
  | eax =>
    rw [EaxPart.width, decide_eq_true hi, Bool.true_and, EaxPart.low, Nat.zero_add]
    rfl
  | ax => rw [EaxPart.extract, bitOf_and, hffff, Bool.and_comm, EaxPart.low, Nat.zero_add]; rfl
  | al => rw [EaxPart.extract, bitOf_and, hff, Bool.and_comm, EaxPart.low, Nat.zero_add]; rfl
  | ah =>
    have hplace : (8 : ut64).toNat = 8 := rfl
    rw [EaxPart.extract, bitOf_shiftRight (by decide), bitOf_and, hplace, EaxPart.width,
      EaxPart.low, Nat.add_comm 8 i]
    by_cases hlow : i < 8
    · obtain ⟨-, -, hmask, -⟩ := bitOf_masks (i + 8) (by omega)
      rw [hmask, decide_eq_true hlow, decide_eq_true (by omega), decide_eq_true (by omega),
        Bool.true_and, Bool.true_and, Bool.and_true]
    · have hmask : bitOf 0xff00 (i + 8) = false := by
        have hbound : (0xff00 : ut64).toNat < 2 ^ 16 := by decide
        have hpow : 2 ^ 16 ≤ 2 ^ (i + 8) := Nat.pow_le_pow_right (by omega) (by omega)
        exact Nat.testBit_lt_two_pow (hbound.trans_le hpow)
      rw [hmask, decide_eq_false hlow, Bool.and_false, Bool.false_and]

theorem bitOf_cut (e : ut64) (hi : i < 64) :
    bitOf (e >>> 16 <<< 16) i = (decide (16 ≤ i) && bitOf e i) := by
  have hplace : (16 : ut64).toNat = 16 := rfl
  rw [bitOf_shiftLeft (by decide) hi, bitOf_shiftRight (by decide), hplace]
  by_cases hlow : 16 ≤ i
  · rw [Nat.sub_add_cancel hlow]
  · rw [decide_eq_false hlow, Bool.false_and, Bool.false_and]

/-- **The bits that are set** in `eax`. -/
theorem bitOf_merge (p : EaxPart) (e v : ut64) (hi : i < 64) :
    bitOf (p.merge e v) i = match p with
      | .eax => bitOf v i
      | .ax => decide (16 ≤ i) && bitOf e i || bitOf v i
      | .al => decide (16 ≤ i) && bitOf e i || bitOf v i && decide (i < 8)
      | .ah => bitOf e i && (decide (i < 8) || decide (16 ≤ i) && decide (i < 32)) ||
          decide (8 ≤ i) && bitOf v (i - 8) := by
  obtain ⟨hff, -, -, hmask⟩ := bitOf_masks i hi
  cases p with
  | eax => rfl
  | ax => rw [EaxPart.merge, bitOf_or, bitOf_cut e hi]
  | al => rw [EaxPart.merge, bitOf_or, bitOf_cut e hi, bitOf_and, hff]
  | ah =>
    rw [EaxPart.merge, bitOf_or, bitOf_and, hmask, bitOf_shiftLeft (by decide) hi]
    rfl

/-- **One bit** is right if it is of the part, or kept. -/
theorem bitOf_merge_iff (p : EaxPart) (e v : ut64) (hi : i < 64) :
    (bitOf (p.merge e v) i =
      if p.low ≤ i ∧ i < p.low + p.width then bitOf v (i - p.low) else bitOf e i) ↔
    p.KeepsBit e v i := by
  rw [bitOf_merge p e v hi]
  cases p <;> grind [EaxPart.low, EaxPart.width, EaxPart.KeepsBit]

theorem merge_iff (p : EaxPart) (e v : ut64) :
    (∀ i < 64, bitOf (p.merge e v) i =
      if p.low ≤ i ∧ i < p.low + p.width then bitOf v (i - p.low) else bitOf e i) ↔
    p.Kept e v :=
  forall₂_congr fun _ hi => bitOf_merge_iff p e v hi

/-! ## The parts of `eax` -/

/-- A register of x86 is read as the part it is, always. -/
theorem X86Regs.readsPart (h : X86Regs last vm.regs) (p : EaxPart) : ReadsPart env vm p := by
  obtain ⟨_, heax, -, -⟩ := h.vmRegGet_part env .eax
  obtain ⟨_, hpart, -, -⟩ := h.vmRegGet_part env p
  refine ⟨vm.part .eax, p.extract (vm.part .eax), ?_, ?_, fun i hi => bitOf_extract p _ hi⟩
  · rw [heax]
    rfl
  · rw [hpart]
    rfl

/-- What setting a part makes of `eax`. -/
theorem X86Regs.setsPart_iff (h : X86Regs last vm.regs) (p : EaxPart) (v : ut64) :
    SetsPart env vm p v ↔ p.Kept (vm.part .eax) v := by
  obtain ⟨_, heax, -, -⟩ := h.vmRegGet_part env .eax
  obtain ⟨vm', hset, hregs, hmerge⟩ := h.vmRegSet_part env p v
  obtain ⟨_, heax', -, -⟩ := hregs.vmRegGet_part env .eax
  rw [← merge_iff, ← hmerge]
  constructor
  · rintro ⟨vm'', e, e', he, hset', he', hbits⟩
    rw [heax, Option.map_some] at he
    rw [hset, Option.some.injEq] at hset'
    rw [← hset', heax', Option.map_some] at he'
    rwa [← Option.some.inj he, ← Option.some.inj he'] at hbits
  · intro hbits
    refine ⟨vm', vm.part .eax, vm'.part .eax, ?_, hset, ?_, hbits⟩
    · rw [heax]
      rfl
    · rw [heax']
      rfl

/-- **The parts of `eax`.** With the registers of `vm_init`, setting a part changes
its bits and no others, and every part is read as its bits, exactly if the bits that
its script loses from `eax` are not set there and those it adds are. -/
theorem vmParts_iff (h : X86Regs last vm.regs) (p : EaxPart) (v : ut64) :
    SetsPart env vm p v ∧ (∀ q, ReadsPart env vm q) ↔ p.Kept (vm.part .eax) v :=
  (and_iff_left h.readsPart).trans (h.setsPart_iff p v)

/-- The VM behind `vm_init`, with a value for `eax`. -/
def eaxOnly (eax : ut64) : Vm := (registersOnly (vmInitX86 fun _ => 0)).setPart .eax eax

theorem x86Regs_eaxOnly (eax : ut64) : X86Regs (fun _ => 0) (eaxOnly eax).regs := by
  have hinit : X86Regs (fun _ => 0) (registersOnly (vmInitX86 fun _ => 0)).regs :=
    x86Regs_vmInitX86 _
  exact hinit.setPart .eax eax

/-- `ax` is set to 0x5678. -/
theorem vmParts_ax : SetsPart zerosOutside (eaxOnly 0x1234) .ax 0x5678 ∧
    ∀ q, ReadsPart zerosOutside (eaxOnly 0x1234) q := by
  refine (vmParts_iff (x86Regs_eaxOnly 0x1234) .ax 0x5678).mpr ?_
  have hnone : ∀ i < 64, 16 ≤ i → ¬bitOf 0x5678 i = true := by decide
  intro i hi hhigh hbit
  exact absurd hbit (hnone i hi hhigh)

/-- `al` is set to 0x56, and `eax` is 0x56 by that. -/
theorem al_clears_ah : X86Regs (fun _ => 0) (eaxOnly 0x1234).regs ∧
    ¬SetsPart zerosOutside (eaxOnly 0x1234) .al 0x56 := by
  refine ⟨x86Regs_eaxOnly 0x1234, ?_⟩
  rintro ⟨vm', e, e', he, hset, he', hbits⟩
  have hbefore : (vmRegGet zerosOutside (eaxOnly 0x1234) EaxPart.eax.name).map Prod.snd =
      some 0x1234 := by
    decide +kernel
  have hafter : ((vmRegSet zerosOutside (eaxOnly 0x1234) EaxPart.al.name 0x56).bind fun vm =>
      (vmRegGet zerosOutside vm EaxPart.eax.name).map Prod.snd) = some 0x56 := by
    decide +kernel
  rw [hset, Option.bind_some, he', Option.some.injEq] at hafter
  rw [he, Option.some.injEq] at hbefore
  rw [hbefore, hafter] at hbits
  exact absurd (hbits 9 (by decide)) (by decide)

end Radare
