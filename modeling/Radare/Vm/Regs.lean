import Radare.Vm.Model
/-!
# Registers by their names

`vm_reg_set` asks for the whole name of a register and `vm_reg_get` for as much
of it as it is given, less a `]` at the end. So a register is set and read back if
no register in front of it goes on where its own name ends, and a name of no
register is the start of the first one that has it (`vmRegs_iff`). A name of
fifteen characters has no end of its own, and may not be found to be set.
-/

namespace Radare

open Common

/-- The registers of a VM without aliases. -/
structure PlainRegs (regs : List VmReg) : Prop where
  distinct : (regs.map VmReg.name).Nodup
  plain : ∀ r ∈ regs, r.get = none ∧ r.set = none

/-- The name ends in its array. -/
def VmReg.Closed (r : VmReg) : Prop := r.name.length < 15 ∨ r.last = 0

/-- The register is not told from a name by what `vm_reg_get` compares. -/
def VmReg.Like (name : List u8) (r : VmReg) : Prop :=
  name.take (vmRegLen name) = r.text.take (vmRegLen name)

instance decidableVmRegClosed (r : VmReg) : Decidable r.Closed :=
  inferInstanceAs (Decidable (_ ∨ _))

instance decidableVmRegLike (name : List u8) (r : VmReg) : Decidable (r.Like name) :=
  inferInstanceAs (Decidable (_ = _))

/-- The first register that is not told from a name. -/
def FirstLike (regs : List VmReg) (name : List u8) (r : VmReg) : Prop :=
  ∃ pre post, regs = pre ++ r :: post ∧ r.Like name ∧ ∀ q ∈ pre, ¬q.Like name

/-- A register is set, and read back. -/
def SetReadsBack (env : VmEnv) (vm : Vm) (n : List u8) (v : ut64) : Prop :=
  ∃ vm', vmRegSet env vm n v = some vm' ∧ (vmRegGet env vm' n).map Prod.snd = some v

/-- A register is set, and another one is read as before. -/
def SetKeeps (env : VmEnv) (vm : Vm) (n : List u8) (v : ut64) (m : List u8) : Prop :=
  ∃ vm', vmRegSet env vm n v = some vm' ∧
    (vmRegGet env vm' m).map Prod.snd = (vmRegGet env vm m).map Prod.snd

/-- A name of no register is refused. -/
def RefusesName (env : VmEnv) (vm : Vm) (u : List u8) : Prop :=
  (vmRegGet env vm u).map Prod.snd = some (-1)

variable {env : VmEnv} {vm : Vm} {regs : List VmReg} {r : VmReg} {n m u name : List u8} {v : ut64}

/-! ## The two comparisons -/

theorem cstr_cons_ne_nil {c : u8} (hc : c ≠ 0) (rest : List u8) : cstr (c :: rest) ≠ [] := by
  have hfirst : cstr (c :: rest) = c :: cstr rest := List.takeWhile_cons_of_pos (by simpa using hc)
  rw [hfirst]
  exact List.cons_ne_nil _ _

/-- The text of a register is its name, if that ends. -/
theorem VmReg.text_eq_name_iff : r.text = r.name ↔ r.Closed := by
  unfold VmReg.text VmReg.Closed
  split_ifs with hlt
  · exact iff_of_true rfl (Or.inl hlt)
  · rw [or_iff_right hlt, List.append_right_eq_self]
    constructor
    · intro hnil
      by_contra hlast
      exact cstr_cons_ne_nil hlast _ hnil
    · intro hlast
      rw [hlast]
      rfl

theorem VmReg.take_text {k : ℕ} (hk : k ≤ 15) : r.text.take k = r.name.take k := by
  unfold VmReg.text
  split_ifs with hlt
  · rfl
  · exact List.take_append_of_le_length (by omega)

/-- **A whole name** of fifteen characters at most is that of the register, if it
ends there. -/
theorem VmReg.eq_text_iff (hn : n.length ≤ 15) : n = r.text ↔ r.name = n ∧ r.Closed := by
  constructor
  · intro heq
    have hname : r.name = n := by
      have htake := r.take_text le_rfl
      rwa [← heq, List.take_of_length_le hn, List.take_of_length_le r.short, eq_comm] at htake
    exact ⟨hname, VmReg.text_eq_name_iff.mp (heq ▸ hname.symm)⟩
  · rintro ⟨hname, hclosed⟩
    rw [VmReg.text_eq_name_iff.mpr hclosed, hname]

theorem vmRegLen_le (name : List u8) : vmRegLen name ≤ name.length := by
  unfold vmRegLen
  split_ifs <;> omega

/-- The value of a register does not matter for a name of fifteen characters at
most. -/
theorem VmReg.like_iff (hn : n.length ≤ 15) :
    r.Like n ↔ n.take (vmRegLen n) = r.name.take (vmRegLen n) := by
  rw [VmReg.Like, r.take_text ((vmRegLen_le n).trans hn)]

theorem VmReg.eq_text_put (hn : n.length ≤ 15) : n = (r.put v).text ↔ n = r.text := by
  rw [VmReg.eq_text_iff hn, VmReg.eq_text_iff hn]
  rfl

theorem VmReg.like_put (hn : n.length ≤ 15) : (r.put v).Like n ↔ r.Like n := by
  rw [VmReg.like_iff hn, VmReg.like_iff hn]
  rfl

/-! ## What is read and set -/

theorem vmRegGet_plain (hplain : PlainRegs vm.regs) (hname : name ≠ []) :
    (vmRegGet env vm name).map Prod.snd =
      some ((vm.regs.find? fun r => r.Like name).elim (-1) VmReg.value) := by
  have hfound : entryAt vm.regs (vmRegLike vm.regs name) = vm.regs.find? fun r => r.Like name :=
    entryAt_findIdx? _ _
  have hscript : (vm.regs.find? fun r => r.Like name).bind VmReg.get = none := by
    rw [Option.bind_eq_none_iff]
    exact fun r hr => (hplain.plain r (List.mem_of_find?_eq_some hr)).1
  rw [vmRegGet, if_neg hname]
  dsimp only
  rw [hfound, hscript]
  simp only [Option.map_some, Vm.value, hfound]

/-- A name of no characters is read in front of it. -/
theorem vmRegGet_nil : vmRegGet env vm [] = none := if_pos rfl

theorem vmRegSet_plain (hplain : PlainRegs vm.regs) :
    vmRegSet env vm n v = some (vm.put v (vmRegNamed vm.regs n)) := by
  have hfound : entryAt vm.regs (vmRegNamed vm.regs n) = vm.regs.find? fun r => n = r.text :=
    entryAt_findIdx? _ _
  have hscript : (vm.regs.find? fun r => n = r.text).bind VmReg.set = none := by
    rw [Option.bind_eq_none_iff]
    exact fun r hr => (hplain.plain r (List.mem_of_find?_eq_some hr)).2
  unfold vmRegSet
  dsimp only
  rw [hfound, hscript]

/-- No two registers have one name. -/
theorem PlainRegs.one (hplain : PlainRegs regs) (hn : n.length ≤ 15) :
    regs.Pairwise fun q r => ¬(decide (n = q.text) ∧ decide (n = r.text)) := by
  have hnames : regs.Pairwise fun q r => q.name ≠ r.name := List.pairwise_map.mp hplain.distinct
  refine hnames.imp fun {q r} hne hboth => ?_
  rw [decide_eq_true_iff, decide_eq_true_iff, VmReg.eq_text_iff hn, VmReg.eq_text_iff hn] at hboth
  exact hne (hboth.1.1.trans hboth.2.1.symm)

/-- The registers once one is set. -/
theorem PlainRegs.regs_put (hplain : PlainRegs vm.regs) (hn : n.length ≤ 15) (v : ut64) :
    (vm.put v (vmRegNamed vm.regs n)).regs =
      vm.regs.map fun r => if n = r.text then r.put v else r := by
  have hput := changeAt_findIdx? (f := VmReg.put v) (hplain.one hn)
  simp only [decide_eq_true_eq] at hput
  exact hput

/-- The registers stay without aliases, with their names. -/
theorem PlainRegs.put (hplain : PlainRegs vm.regs) (hn : n.length ≤ 15) (v : ut64) :
    PlainRegs (vm.put v (vmRegNamed vm.regs n)).regs := by
  have hsame : ∀ r : VmReg, (if n = r.text then r.put v else r).name = r.name ∧
      (if n = r.text then r.put v else r).get = r.get ∧
      (if n = r.text then r.put v else r).set = r.set := by
    intro r
    split_ifs <;> exact ⟨rfl, rfl, rfl⟩
  rw [hplain.regs_put hn]
  constructor
  · rw [List.map_map]
    have hnames : VmReg.name ∘ (fun r => if n = r.text then r.put v else r) = VmReg.name :=
      funext fun r => (hsame r).1
    rw [hnames]
    exact hplain.distinct
  · intro r hr
    obtain ⟨q, hq, rfl⟩ := List.mem_map.mp hr
    rw [(hsame q).2.1, (hsame q).2.2]
    exact hplain.plain q hq

/-- **A register set and another read**: the first one that is not told from the
name, with the value if it is the one that is set. -/
theorem vmRegGet_put (hplain : PlainRegs vm.regs) (hn : n.length ≤ 15) (hm : m.length ≤ 15)
    (hne : m ≠ []) (v : ut64) :
    (vmRegGet env (vm.put v (vmRegNamed vm.regs n)) m).map Prod.snd =
      some ((vm.regs.find? fun r => r.Like m).elim (-1)
        fun r => if r.name = n ∧ r.Closed then v else r.value) := by
  have hlike : ∀ r : VmReg, decide ((r.put v).Like m) = decide (r.Like m) :=
    fun r => decide_eq_decide.mpr (VmReg.like_put hm)
  rw [vmRegGet_plain (hplain.put hn v) hne]
  have hfind := find?_changeAt (f := VmReg.put v) (q := fun r => r.Like m) (hplain.one hn) hlike
  simp only [decide_eq_true_eq] at hfind
  unfold Vm.put vmRegNamed
  dsimp only
  rw [hfind, Option.elim_map]
  congr 2
  funext r
  rw [Function.comp, apply_ite VmReg.value]
  exact if_congr (VmReg.eq_text_iff hn) rfl rfl

theorem firstLike_iff : FirstLike regs name r ↔ (regs.find? fun r => r.Like name) = some r := by
  rw [List.find?_eq_some_iff_append]
  constructor
  · rintro ⟨pre, post, hsplit, hr, hpre⟩
    exact ⟨decide_eq_true hr, pre, post, hsplit, fun q hq => by simpa using hpre q hq⟩
  · rintro ⟨hr, pre, post, hsplit, hpre⟩
    exact ⟨pre, post, hsplit, of_decide_eq_true hr, fun q hq => by simpa using hpre q hq⟩

/-- A register is not told from its own name. -/
theorem exists_firstLike (hn : n ∈ regs.map VmReg.name) : ∃ r, FirstLike regs n r := by
  obtain ⟨r, hr, rfl⟩ := List.mem_map.mp hn
  have hlike : decide (r.Like r.name) = true := decide_eq_true ((VmReg.like_iff r.short).mpr rfl)
  have hsome : (regs.find? fun q => q.Like r.name).isSome :=
    List.find?_isSome.mpr ⟨r, hr, hlike⟩
  obtain ⟨q, hq⟩ := Option.isSome_iff_exists.mp hsome
  exact ⟨q, firstLike_iff.mpr hq⟩

theorem forall_firstLike_iff {p : VmReg → Prop} (hr : FirstLike regs name r) :
    (∀ q, FirstLike regs name q → p q) ↔ p r := by
  constructor
  · exact fun h => h r hr
  · intro hp q hq
    obtain rfl := Option.some.inj ((firstLike_iff.mp hr).symm.trans (firstLike_iff.mp hq))
    exact hp

/-! ## The result -/

theorem length_le_of_mem (hn : n ∈ regs.map VmReg.name) : n.length ≤ 15 := by
  obtain ⟨r, -, rfl⟩ := List.mem_map.mp hn
  exact r.short

theorem setReadsBack_iff (hplain : PlainRegs vm.regs) (hn : n ∈ vm.regs.map VmReg.name) :
    SetReadsBack env vm n v ↔ n ≠ [] ∧
      ∀ r, FirstLike vm.regs n r → r.name = n ∧ r.Closed ∨ r.value = v := by
  obtain ⟨r, hr⟩ := exists_firstLike hn
  have hlen := length_le_of_mem hn
  unfold SetReadsBack
  simp only [vmRegSet_plain hplain, Option.some.injEq, exists_eq_left']
  by_cases hnil : n = []
  · subst hnil
    rw [vmRegGet_nil]
    exact iff_of_false (by simp) fun h => h.1 rfl
  · rw [vmRegGet_put hplain hlen hlen hnil, firstLike_iff.mp hr, Option.elim_some,
      Option.some.injEq, forall_firstLike_iff hr, and_iff_right hnil]
    split_ifs with hown
    · exact iff_of_true rfl (Or.inl hown)
    · exact (or_iff_right hown).symm

theorem setKeeps_iff (hplain : PlainRegs vm.regs) (hn : n ∈ vm.regs.map VmReg.name)
    (hm : m ∈ vm.regs.map VmReg.name) :
    SetKeeps env vm n v m ↔ m = [] ∨
      ∀ r, FirstLike vm.regs m r → ¬(r.name = n ∧ r.Closed) ∨ r.value = v := by
  obtain ⟨r, hr⟩ := exists_firstLike hm
  unfold SetKeeps
  simp only [vmRegSet_plain hplain, Option.some.injEq, exists_eq_left']
  by_cases hnil : m = []
  · subst hnil
    rw [vmRegGet_nil, vmRegGet_nil]
    exact iff_of_true rfl (Or.inl rfl)
  · rw [vmRegGet_put hplain (length_le_of_mem hn) (length_le_of_mem hm) hnil,
      vmRegGet_plain hplain hnil, firstLike_iff.mp hr, Option.elim_some, Option.elim_some,
      Option.some.injEq, forall_firstLike_iff hr, or_iff_right hnil]
    split_ifs with hown
    · rw [or_iff_right (not_not_intro hown), eq_comm]
    · exact iff_of_true rfl (Or.inl hown)

theorem refusesName_iff (hplain : PlainRegs vm.regs) :
    RefusesName env vm u ↔ u ≠ [] ∧ ∀ r, FirstLike vm.regs u r → r.value = -1 := by
  unfold RefusesName
  by_cases hnil : u = []
  · subst hnil
    rw [vmRegGet_nil]
    exact iff_of_false (by simp) fun h => h.1 rfl
  rw [vmRegGet_plain hplain hnil, Option.some.injEq, and_iff_right hnil]
  cases hfind : vm.regs.find? fun r => r.Like u with
  | none =>
    refine iff_of_true rfl fun r hr => ?_
    rw [firstLike_iff, hfind] at hr
    cases hr
  | some r => rw [Option.elim_some, forall_firstLike_iff (firstLike_iff.mpr hfind)]

/-- **When registers are told by their names**: one that is set is read back if the
first one not told from its name is itself, and its name ends, or has the value; another one is
kept if the first one not told from its name is not the one set, or has the value;
and a name of no register is refused if it is not the start of one, or that has
the value of the refusal. -/
theorem vmRegs_iff (env : VmEnv) (vm : Vm) (hplain : PlainRegs vm.regs) (n : List u8) (v : ut64)
    (hn : n ∈ vm.regs.map VmReg.name) :
    (SetReadsBack env vm n v ↔ n ≠ [] ∧
      ∀ r, FirstLike vm.regs n r → r.name = n ∧ r.Closed ∨ r.value = v) ∧
    (∀ m ∈ vm.regs.map VmReg.name, m ≠ n → (SetKeeps env vm n v m ↔ m = [] ∨
      ∀ r, FirstLike vm.regs m r → ¬(r.name = n ∧ r.Closed) ∨ r.value = v)) ∧
    ∀ u, u ∉ vm.regs.map VmReg.name → (RefusesName env vm u ↔ u ≠ [] ∧
      ∀ r, FirstLike vm.regs u r → r.value = -1) :=
  ⟨setReadsBack_iff hplain hn, fun _ hm _ => setKeeps_iff hplain hn hm,
    fun _ _ => refusesName_iff hplain⟩

/-- A VM with these registers, and nothing else. -/
def registersOnly (regs : List VmReg) : Vm :=
  ⟨⟨openFile [] 1 1, false, []⟩, false, regs, ⟨[], [], []⟩⟩

/-- Nothing but zeros outside. -/
def zerosOutside : VmEnv := ⟨fun _ _ => 0, fun _ => 0, fun _ => 0, fun _ _ => 0⟩

/-- `eax`, and `e` behind it. -/
def eaxAndE : List VmReg := vmRegAdd 0 [101] .int32 0 (vmRegAdd 0 [101, 97, 120] .int32 1 [])

theorem plainRegs_eaxAndE : PlainRegs eaxAndE := ⟨by decide, by decide⟩

/-- `eax` is set to 5. -/
theorem vmRegs_eax : SetReadsBack zerosOutside (registersOnly eaxAndE) [101, 97, 120] 5 := by
  have hfirst : FirstLike eaxAndE [101, 97, 120] (eaxAndE.head (by decide)) := firstLike_iff.mpr rfl
  exact ((vmRegs_iff zerosOutside (registersOnly eaxAndE) plainRegs_eaxAndE [101, 97, 120] 5
    (by decide)).1).mpr ⟨by decide, (forall_firstLike_iff hfirst).mpr (.inl (by decide))⟩

/-- `e` is set to 5, and read as what `eax` has. -/
theorem e_reads_eax :
    PlainRegs eaxAndE ∧ [101] ∈ eaxAndE.map VmReg.name ∧
      ¬SetReadsBack zerosOutside (registersOnly eaxAndE) [101] 5 := by
  refine ⟨plainRegs_eaxAndE, by decide, ?_⟩
  rintro ⟨vm', hset, hget⟩
  obtain rfl := Option.some.inj hset
  have hone : (vmRegGet zerosOutside ((registersOnly eaxAndE).put 5
    (vmRegNamed eaxAndE [101])) [101]).map Prod.snd = some 1 := rfl
  exact absurd (hone.symm.trans hget) (by decide)

end Radare
