import Mathlib.Data.List.Perm.Basic
import Radare.Data.Model
import Radare.Model.Text
/-!
# Variables of a function

`var_add_access` adds an access to the first variable that has the address, with
the number and the type asked for. If there is none, one is made for the function
that `data_get_fun_for` finds, and the search starts again. The new one is always
a local variable with a number that is not negative: if it is not what was asked
for, there is no access, or it is added to another one (`varAddAccess_iff`).
-/

namespace Radare

/-- The types of a variable. -/
inductive VarType where
  /-- `VAR_T_GLOBAL` -/
  | global
  /-- `VAR_T_LOCAL` -/
  | local_
  /-- `VAR_T_ARG` -/
  | arg
  /-- `VAR_T_ARGREG` -/
  | argreg
deriving DecidableEq

/-- `struct var_xs_t`. -/
structure VarXs where
  addr : ut64
  set : ℤ
deriving DecidableEq

/-- `struct var_t`; of the name and the type's name, the first 128 characters. -/
structure VarT where
  type : VarType
  addr : ut64
  eaddr : ut64
  delta : ℤ
  arraysize : ℤ
  name : List u8
  vartype : List u8
  access : List VarXs
deriving DecidableEq

/-! ## The code -/

/-- `data_get_fun_for`: the range of the last function of the list that has the
address inside. -/
def dataGetFunFor (data : List DataT) (addr : ut64) : Option (ut64 × ut64) :=
  (data.foldl (fun rd d => if d.type = .fun_ ∧ d.from_ < addr ∧ addr < d.to_ then some d else rd)
    none).map fun rd => (rd.from_, rd.to_)

/-- The name as `strcmp` reads it: one that fills its array goes on in the one
behind. -/
def VarT.text (v : VarT) : List u8 := if v.name.length < 128 then v.name else v.name ++ v.vartype

/-- `var_add`: the value returned. -/
def varAdd (vars : List VarT) (addr eaddr : ut64) (delta : ℤ) (type : VarType)
    (vartype name : List u8) (arraysize : ℤ) : List VarT × ℤ :=
  if 32 ∈ name ∨ 32 ∈ vartype then (vars, 0)
  else if vars.any fun v => addr = v.addr ∧ type = v.type ∧ name = v.text then (vars, 0)
  else (⟨type, addr, eaddr, delta, arraysize, name.take 128, vartype.take 128, []⟩ :: vars, 1)

/-- The variable has the address, and is what is asked for. -/
def VarT.Fits (addr : ut64) (delta : ℤ) (type : VarType) (v : VarT) : Prop :=
  (addr ≥ v.addr ∧ addr ≤ v.eaddr) ∧ delta = v.delta ∧ type = v.type

instance decidableVarFits (addr : ut64) (delta : ℤ) (type : VarType) (v : VarT) :
    Decidable (v.Fits addr delta type) :=
  inferInstanceAs (Decidable (_ ∧ _))

/-- The access is put in front of those of the variable. -/
def VarT.accessed (x : VarXs) (v : VarT) : VarT := { v with access := x :: v.access }

/-- The search of `var_add_access`. -/
def accessLoop (delta : ℤ) (type : VarType) (x : VarXs) : List VarT → Option (List VarT)
  | [] => none
  | v :: vars =>
    if v.Fits x.addr delta type then some (v.accessed x :: vars)
    else (accessLoop delta type x vars).map (v :: ·)

/-- The name and the number of a variable that is made: `arg_%d` of a number
below zero, with the sign changed, and `var_%d`. There is no number for the least
`int`. -/
def autoVar (delta : ℤ) : Option (List u8 × ℤ) :=
  if delta < 0 then
    if delta = -2 ^ 31 then none
    else some ([97, 114, 103, 95] ++ decText 0 (-delta).toNat, -delta)
  else some ([118, 97, 114, 95] ++ decText 0 delta.toNat, delta)

/-- `int32`. -/
def int32Text : List u8 := [105, 110, 116, 51, 50]

/-- `var_add_access`, which may start its search again so many times: the value
returned. -/
def varAddAccessFrom (data : List DataT) (type : VarType) (x : VarXs) :
    ℕ → ℤ → List VarT → Option (List VarT × ℤ)
  | reloops, delta, vars =>
    match accessLoop delta type x vars with
    | some vars => some (vars, 1)
    | none =>
      match dataGetFunFor data x.addr with
      | none => some (vars, 0)
      | some (from_, to_) => (autoVar delta).bind fun (varname, delta) =>
        let vars := (varAdd vars from_ to_ delta .local_ int32Text varname 1).1
        match reloops with
        | 0 => some (vars, 0)
        | reloops + 1 => varAddAccessFrom data type x reloops delta vars

/-- `var_add_access`. -/
def varAddAccess (data : List DataT) (vars : List VarT) (addr : ut64) (delta : ℤ)
    (type : VarType) (set : ℤ) : Option (List VarT × ℤ) :=
  varAddAccessFrom data type ⟨addr, set⟩ 1 delta vars

/-! ## What it is for -/

/-- A variable without its accesses. -/
def VarT.bare (v : VarT) : VarT := { v with access := [] }

/-- All accesses stored, each with its variable. -/
def accesses (vars : List VarT) : List (VarT × VarXs) :=
  vars.flatMap fun v => v.access.map fun x => (v.bare, x)

/-- The variable lies in the function. -/
def VarT.Of (v : VarT) (fn : ut64 × ut64) : Prop := fn.1 ≤ v.addr ∧ v.eaddr ≤ fn.2

instance decidableVarOf (v : VarT) (fn : ut64 × ut64) : Decidable (v.Of fn) :=
  inferInstanceAs (Decidable (_ ∧ _))

/-- One access more is stored, on a variable of the function that is what was
asked for. -/
def AccessRecorded (data : List DataT) (vars : List VarT) (addr : ut64) (delta : ℤ)
    (type : VarType) (set : ℤ) : Prop :=
  ∃ vars' v fn, varAddAccess data vars addr delta type set = some (vars', 1) ∧
    (accesses vars').Perm ((v, ⟨addr, set⟩) :: accesses vars) ∧ v ∈ vars'.map VarT.bare ∧
    v.type = type ∧ v.delta = delta ∧ dataGetFunFor data addr = some fn ∧ v.Of fn

variable {data : List DataT} {vars vars' pre post : List VarT} {v : VarT} {x : VarXs}
variable {addr from_ to_ : ut64} {fn : ut64 × ut64} {delta set : ℤ} {type : VarType} {name : List u8}

/-! ## The search -/

/-- **The first variable that fits** has the access, if there is one. -/
theorem accessLoop_eq (delta : ℤ) (type : VarType) (x : VarXs) (vars : List VarT) :
    match vars.find? (·.Fits x.addr delta type) with
    | none => accessLoop delta type x vars = none
    | some v => ∃ pre post, vars = pre ++ v :: post ∧
        accessLoop delta type x vars = some (pre ++ v.accessed x :: post) := by
  induction vars with
  | nil => rfl
  | cons u vars ih =>
    rw [accessLoop]
    by_cases hu : u.Fits x.addr delta type
    · rw [List.find?_cons_of_pos (by simpa using hu), if_pos hu]
      exact ⟨[], vars, rfl, rfl⟩
    · rw [List.find?_cons_of_neg (by simpa using hu), if_neg hu]
      split at ih
      · rw [ih]
        rfl
      · obtain ⟨pre, post, rfl, hloop⟩ := ih
        rw [hloop]
        exact ⟨u :: pre, post, rfl, rfl⟩

theorem accesses_append (pre post : List VarT) :
    accesses (pre ++ post) = accesses pre ++ accesses post :=
  List.flatMap_append

/-- The access is the only one more. -/
theorem accesses_accessed (pre post : List VarT) (v : VarT) (x : VarXs) :
    (accesses (pre ++ v.accessed x :: post)).Perm
      ((v.bare, x) :: accesses (pre ++ v :: post)) := by
  have hcons : accesses (v.accessed x :: post) = (v.bare, x) :: accesses (v :: post) := rfl
  rw [accesses_append, accesses_append, hcons]
  exact List.perm_middle

theorem perm_cons_inj {α : Type*} {a b : α} {l : List α} (h : (a :: l).Perm (b :: l)) : a = b := by
  have hsing : ([a] ++ l).Perm ([b] ++ l) := h
  exact List.singleton_perm_singleton.mp ((List.perm_append_right_iff l).mp hsing)

/-! ## The function and the variable made -/

/-- **A function that has the address inside is found**, if there is one. -/
theorem dataGetFunFor_isSome (h : ∃ d ∈ data, d.type = .fun_ ∧ d.from_ < addr ∧ addr < d.to_) :
    ∃ fn, dataGetFunFor data addr = some fn ∧ fn.1 < addr ∧ addr < fn.2 := by
  have hloop : ∀ rd : Option DataT, (∀ r ∈ rd, r.from_ < addr ∧ addr < r.to_) →
      (rd.isSome ∨ ∃ d ∈ data, d.type = .fun_ ∧ d.from_ < addr ∧ addr < d.to_) →
      ∃ r, data.foldl (fun rd d => if d.type = .fun_ ∧ d.from_ < addr ∧ addr < d.to_
        then some d else rd) rd = some r ∧ r.from_ < addr ∧ addr < r.to_ := by
    clear h
    induction data with
    | nil =>
      intro rd hrd hsome
      obtain ⟨r, rfl⟩ := Option.isSome_iff_exists.mp
        (hsome.resolve_right fun ⟨d, hd, _⟩ => by cases hd)
      exact ⟨r, rfl, hrd r rfl⟩
    | cons d data ih =>
      intro rd hrd hsome
      rw [List.foldl_cons]
      by_cases hd : d.type = .fun_ ∧ d.from_ < addr ∧ addr < d.to_
      · rw [if_pos hd]
        exact ih _ (fun r hr => Option.some.inj hr ▸ hd.2) (Or.inl rfl)
      · rw [if_neg hd]
        refine ih rd hrd (hsome.imp_right fun ⟨e, he, hin⟩ => ⟨e, ?_, hin⟩)
        exact (List.mem_cons.mp he).resolve_left fun heq => hd (heq ▸ hin)
  obtain ⟨r, hr, hin⟩ := hloop none (fun r hr => by cases hr) (Or.inr h)
  exact ⟨(r.from_, r.to_), by rw [dataGetFunFor, hr]; rfl, hin⟩

/-- What is made has no access. -/
theorem accesses_varAdd (vars : List VarT) (from_ to_ : ut64) (delta : ℤ) (name : List u8) :
    accesses (varAdd vars from_ to_ delta .local_ int32Text name 1).1 = accesses vars := by
  unfold varAdd
  split_ifs <;> rfl

/-- A variable is made, unless there is a local one of that name there. -/
theorem find?_varAdd (hnone : vars.find? (·.Fits addr delta type) = none)
    (hname : 32 ∉ name) (hin : from_ < addr ∧ addr < to_) :
    ((varAdd vars from_ to_ delta .local_ int32Text name 1).1.find? (·.Fits addr delta type)) =
      if type = .local_ ∧ ∀ u ∈ vars, u.addr = from_ → u.type = .local_ → u.text ≠ name then
        some ⟨.local_, from_, to_, delta, 1, name.take 128, int32Text.take 128, []⟩
      else none := by
  have hblank : ¬(32 ∈ name ∨ 32 ∈ int32Text) := fun h => h.elim hname (by decide)
  unfold varAdd
  rw [if_neg hblank]
  by_cases hdup : vars.any (fun u => from_ = u.addr ∧ VarType.local_ = u.type ∧ name = u.text) = true
  · obtain ⟨u, hu, hsame⟩ := List.any_eq_true.mp hdup
    obtain ⟨haddr, htype, htext⟩ := of_decide_eq_true hsame
    rw [if_pos hdup, if_neg fun h => h.2 u hu haddr.symm htype.symm htext.symm]
    exact hnone
  · have hfree : ∀ u ∈ vars, u.addr = from_ → u.type = .local_ → u.text ≠ name := by
      intro u hu haddr htype htext
      exact hdup (List.any_eq_true.mpr
        ⟨u, hu, decide_eq_true ⟨haddr.symm, htype.symm, htext.symm⟩⟩)
    rw [if_neg hdup]
    by_cases htype : type = .local_
    · rw [if_pos ⟨htype, hfree⟩, List.find?_cons_of_pos]
      simpa [VarT.Fits] using ⟨⟨hin.1.le, hin.2.le⟩, htype⟩
    · rw [if_neg fun h => htype h.1, List.find?_cons_of_neg, hnone]
      simpa [VarT.Fits] using fun _ _ => htype

/-! ## The result -/

/-- The pass of the search, once it has found one. -/
theorem varAddAccessFrom_found (data : List DataT) (x : VarXs) (reloops : ℕ)
    (hfind : vars.find? (·.Fits x.addr delta type) = some v) :
    ∃ vars', varAddAccessFrom data type x reloops delta vars = some (vars', 1) ∧
      (accesses vars').Perm ((v.bare, x) :: accesses vars) ∧ v.bare ∈ vars'.map VarT.bare := by
  have hloop := accessLoop_eq delta type x vars
  rw [hfind] at hloop
  obtain ⟨pre, post, rfl, hloop⟩ := hloop
  refine ⟨pre ++ v.accessed x :: post, ?_, accesses_accessed pre post v x, ?_⟩
  · rw [varAddAccessFrom, hloop]
  · exact List.mem_map.mpr ⟨v.accessed x, List.mem_append_right _ List.mem_cons_self, rfl⟩

/-- The pass of the search that finds none. -/
theorem varAddAccessFrom_none (x : VarXs) (reloops : ℕ)
    (hfind : vars.find? (·.Fits x.addr delta type) = none)
    (hfn : dataGetFunFor data x.addr = some fn) :
    varAddAccessFrom data type x reloops delta vars =
      (autoVar delta).bind fun (varname, delta) =>
        let vars := (varAdd vars fn.1 fn.2 delta .local_ int32Text varname 1).1
        match reloops with
        | 0 => some (vars, 0)
        | reloops + 1 => varAddAccessFrom data type x reloops delta vars := by
  have hloop := accessLoop_eq delta type x vars
  rw [hfind] at hloop
  rw [varAddAccessFrom, hloop, hfn]

/-- What is asked for is found: the first variable that fits lies in the
function; or there is none, and a local one is asked for, with a number that is
not negative, and the name for it is free at the start of the function. -/
def AccessFits (vars : List VarT) (fn : ut64 × ut64) (addr : ut64) (delta : ℤ) (type : VarType) :
    Prop :=
  match vars.find? (·.Fits addr delta type) with
  | some v => v.Of fn
  | none => type = .local_ ∧ 0 ≤ delta ∧ ∀ u ∈ vars, u.addr = fn.1 → u.type = .local_ →
      u.text ≠ [118, 97, 114, 95] ++ decText 0 delta.toNat

/-- The variable that has the access is the only one it can be. -/
theorem accessRecorded_of_found {l : List VarT} (hfn : dataGetFunFor data addr = some fn)
    (hresult : varAddAccess data vars addr delta type set = some (l, 1))
    (hperm : (accesses l).Perm ((v, ⟨addr, set⟩) :: accesses vars)) (hmem : v ∈ l.map VarT.bare) :
    AccessRecorded data vars addr delta type set ↔ v.type = type ∧ v.delta = delta ∧ v.Of fn := by
  constructor
  · rintro ⟨l', w, fn', hresult', hperm', -, htype, hdelta, hfn', hof⟩
    obtain rfl := congrArg Prod.fst (Option.some.inj (hresult.symm.trans hresult'))
    obtain rfl := Option.some.inj (hfn.symm.trans hfn')
    obtain rfl := congrArg Prod.fst (perm_cons_inj (hperm.symm.trans hperm'))
    exact ⟨htype, hdelta, hof⟩
  · rintro ⟨htype, hdelta, hof⟩
    exact ⟨l, v, fn, hresult, hperm, hmem, htype, hdelta, hfn, hof⟩

theorem not_accessRecorded {r : Option (List VarT × ℤ)}
    (hresult : varAddAccess data vars addr delta type set = r) (hr : ∀ l, r ≠ some (l, 1)) :
    ¬AccessRecorded data vars addr delta type set := by
  rintro ⟨l, w, fn', h, -⟩
  exact hr l (hresult.symm.trans h)

/-- Once more without a variable that fits, there is no access. -/
theorem varAddAccessFrom_zero (x : VarXs) (hfind : vars.find? (·.Fits x.addr delta type) = none)
    (hfn : dataGetFunFor data x.addr = some fn) (l : List VarT) :
    varAddAccessFrom data type x 0 delta vars ≠ some (l, 1) := by
  rw [varAddAccessFrom_none x 0 hfind hfn]
  intro h
  obtain ⟨⟨name, d⟩, -, hzero⟩ := Option.bind_eq_some_iff.mp h
  cases hzero

/-- **A number that is not negative**: the search finds the variable made, if it
is the one asked for. -/
theorem accessRecorded_made (hfind : vars.find? (·.Fits addr delta type) = none)
    (hfn : dataGetFunFor data addr = some fn) (hin : fn.1 < addr ∧ addr < fn.2) (hpos : 0 ≤ delta) :
    AccessRecorded data vars addr delta type set ↔
      type = .local_ ∧ ∀ u ∈ vars, u.addr = fn.1 → u.type = .local_ →
        u.text ≠ [118, 97, 114, 95] ++ decText 0 delta.toNat := by
  have hname : 32 ∉ [118, 97, 114, 95] ++ decText 0 delta.toNat := by
    intro h
    rcases List.mem_append.mp h with h | h
    · exact absurd h (by decide)
    · exact absurd (of_mem_decText h) (by decide)
  have hauto : autoVar delta = some ([118, 97, 114, 95] ++ decText 0 delta.toNat, delta) :=
    if_neg (by omega)
  have hmade := find?_varAdd hfind hname hin
  have hrun : varAddAccess data vars addr delta type set = _ :=
    varAddAccessFrom_none ⟨addr, set⟩ 1 hfind hfn
  rw [hauto, Option.bind_some] at hrun
  dsimp only at hrun
  split_ifs at hmade with hfree
  · obtain ⟨l, hl, hperm, hmem⟩ := varAddAccessFrom_found data ⟨addr, set⟩ 0 hmade
    rw [accesses_varAdd] at hperm
    rw [accessRecorded_of_found hfn (hrun.trans hl) hperm hmem, iff_true_right hfree]
    exact ⟨hfree.1.symm, rfl, le_rfl, le_rfl⟩
  · refine iff_of_false (not_accessRecorded hrun ?_) hfree
    exact varAddAccessFrom_zero ⟨addr, set⟩ hmade hfn

/-- **A number below zero**: any access is on a variable with the other sign. -/
theorem not_accessRecorded_neg (hfind : vars.find? (·.Fits addr delta type) = none)
    (hfn : dataGetFunFor data addr = some fn) (hneg : delta < 0) :
    ¬AccessRecorded data vars addr delta type set := by
  have hrun : varAddAccess data vars addr delta type set = _ :=
    varAddAccessFrom_none ⟨addr, set⟩ 1 hfind hfn
  by_cases hleast : delta = -2 ^ 31
  · have hauto : autoVar delta = none := by
      rw [autoVar, if_pos hneg, if_pos hleast]
    rw [hauto] at hrun
    exact not_accessRecorded hrun fun l h => by cases h
  · have hauto : autoVar delta = some ([97, 114, 103, 95] ++ decText 0 (-delta).toNat, -delta) := by
      rw [autoVar, if_pos hneg, if_neg hleast]
    rw [hauto, Option.bind_some] at hrun
    dsimp only at hrun
    generalize hmade : (varAdd vars fn.1 fn.2 (-delta) .local_ int32Text
      ([97, 114, 103, 95] ++ decText 0 (-delta).toNat) 1).1 = made at hrun
    have hsame : accesses made = accesses vars := hmade ▸ accesses_varAdd _ _ _ _ _
    cases hfound : made.find? (·.Fits addr (-delta) type) with
    | none => exact not_accessRecorded hrun (varAddAccessFrom_zero ⟨addr, set⟩ hfound hfn)
    | some v =>
      obtain ⟨l, hl, hperm, hmem⟩ := varAddAccessFrom_found data ⟨addr, set⟩ 0 hfound
      rw [hsame] at hperm
      have hother : v.delta = -delta := by
        have hfits := List.find?_some hfound
        exact (of_decide_eq_true hfits).2.1.symm
      rw [accessRecorded_of_found hfn (hrun.trans hl) hperm hmem]
      rintro ⟨-, hdelta, -⟩
      have hdelta : v.delta = delta := hdelta
      omega

/-- **When an access is recorded**: for an address inside a function, if and only
if the first variable that fits lies in the function, or there is none and one
that fits can be made. -/
theorem varAddAccess_iff (data : List DataT) (vars : List VarT) (addr : ut64) (delta : ℤ)
    (type : VarType) (set : ℤ)
    (hfun : ∃ d ∈ data, d.type = .fun_ ∧ d.from_ < addr ∧ addr < d.to_) :
    ∃ fn, dataGetFunFor data addr = some fn ∧
      (AccessRecorded data vars addr delta type set ↔ AccessFits vars fn addr delta type) := by
  obtain ⟨fn, hfn, hin⟩ := dataGetFunFor_isSome hfun
  refine ⟨fn, hfn, ?_⟩
  unfold AccessFits
  split
  · rename_i v hfind
    obtain ⟨l, hl, hperm, hmem⟩ := varAddAccessFrom_found data ⟨addr, set⟩ 1 hfind
    rw [accessRecorded_of_found hfn hl hperm hmem]
    obtain ⟨-, hdelta, htype⟩ : v.Fits addr delta type := by simpa using List.find?_some hfind
    exact ⟨fun h => h.2.2, fun h => ⟨htype.symm, hdelta.symm, h⟩⟩
  · rename_i hfind
    rcases lt_or_ge delta 0 with hneg | hpos
    · exact iff_of_false (not_accessRecorded_neg hfind hfn hneg) fun h => by omega
    · rw [accessRecorded_made hfind hfn hin hpos, and_iff_right hpos]

/-- A function at `0x1000`, and no variable. -/
def oneFunction : List DataT := [⟨0x1000, 0x1010, .fun_, 0x10, []⟩]

/-- The first access of a local variable is recorded. -/
theorem varAddAccess_local : AccessRecorded oneFunction [] 0x1004 4 .local_ 1 := by
  obtain ⟨fn, -, hiff⟩ := varAddAccess_iff oneFunction [] 0x1004 4 .local_ 1 (by decide)
  exact hiff.mpr ⟨rfl, by decide, nofun⟩

/-- The variable made for an argument is a local one, and there is no access. -/
theorem arg_not_recorded :
    (∃ d ∈ oneFunction, d.type = .fun_ ∧ d.from_ < 0x1004 ∧ 0x1004 < d.to_) ∧
      ¬AccessRecorded oneFunction [] 0x1004 4 .arg 1 := by
  refine ⟨by decide, fun ⟨l, w, fn, h, _⟩ => ?_⟩
  have hzero : (varAddAccess oneFunction [] 0x1004 4 .arg 1).map Prod.snd = some 0 := by decide
  rw [h] at hzero
  cases hzero

end Radare
