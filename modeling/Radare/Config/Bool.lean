import Radare.Config.Map
/-!
# Boolean options

An option created with `true` or `false` is read as a truth value by
`config_get` and as a number by `config_get_i`. `config_set` keeps it one;
`config_set_i` takes the flag away that says so, and from then on
`config_get` gives its text, which is never NULL. When the two getters
still agree is `getters_agree_iff`.
-/

namespace Radare

/-- `true` or `false`. -/
def boolText (b : Bool) : List u8 := if b then trueText else falseText

/-- The values that `config_set` takes for true. -/
def isTrue (value : List u8) : Bool := value = trueText ∨ value = [49]

/-- An option to be created as a boolean one, in a configuration where it
is not found. -/
structure BoolOption where
  config : ConfigNew
  name : List u8
  value : Bool
  named : name ≠ []
  unlocked : config.lock = false
  fresh : configNodeGet [] config name = none

/-- A call on an option, with what texts mean to the program then. -/
inductive OptionCall where
  | set (env : ConfigEnv) (value : List u8)
  | setI (env : ConfigEnv) (i : ut64)

def OptionCall.apply (name : List u8) (c : ConfigNew) : OptionCall → ConfigNew
  | .set env value => configSet env c name (some value)
  | .setI env i => configSetI env [] c name i

/-- The configuration after the option is created, and after the calls. -/
def BoolOption.run (o : BoolOption) (env : ConfigEnv) (calls : List OptionCall) : ConfigNew :=
  calls.foldl (fun c call => call.apply o.name c)
    (configSet env o.config o.name (some (boolText o.value)))

/-! ## When the getters agree -/

def OptionCall.isSetI : OptionCall → Bool
  | .set _ _ => false
  | .setI _ _ => true

/-- The number `config_set` stores with a text. -/
def ConfigEnv.number (env : ConfigEnv) (value : List u8) : ut64 :=
  if 37 ∈ value then 0 else if 47 ∈ value then env.getOffset value else env.getMath value

/-- What a boolean option is after a call of `config_set`. -/
def OptionCall.truth (b : Bool) : OptionCall → Bool
  | .set _ value => isTrue value
  | .setI _ _ => b

/-- What an option that is no longer boolean stands for after its last
call: the number stored, or else the number in the text stored. The text
of a zero is `false` the first time and `0` later. -/
def OptionCall.left (env : ConfigEnv) (before : List OptionCall) : OptionCall → ut64
  | .set env' value => if env'.number value ≠ 0 then env'.number value else env.getMath value
  | .setI _ i =>
    if i ≠ 0 then i
    else env.getMath (if before.any isSetI then longText 0 else falseText)

/-- The option is still boolean and is true, or the text `false` is no
number; or it is not, and its last call has left a number other than 0. -/
def Agrees (env : ConfigEnv) (value : Bool) (calls : List OptionCall) : Prop :=
  if calls.any OptionCall.isSetI then
    ∃ before call, calls = before ++ [call] ∧ call.left env before ≠ 0
  else calls.foldl OptionCall.truth value = true ∨ env.getMath falseText = 0

/-! ## The node -/

variable {o : BoolOption} {env : ConfigEnv} {calls : List OptionCall} {call : OptionCall}
variable {c : ConfigNew} {node : ConfigNode} {name : List u8}

/-- The node of the option, while it is boolean. -/
structure ConfigNode.IsBool (b : Bool) (node : ConfigNode) : Prop where
  flags : node.flags = cnRw ||| cnStr ||| cnBool
  callback : node.callback = none
  value : node.value = boolText b
  iValue : node.iValue = if b then 1 else 0

/-- The node once it is not, with what the last call has left. -/
structure ConfigNode.IsText (before : List OptionCall) (call : OptionCall) (node : ConfigNode) :
    Prop where
  flags : node.flags = cnRw ||| cnInt
  callback : node.callback = none
  left : ∀ env, (if node.iValue ≠ 0 then node.iValue else env.getMath node.value) =
    call.left env before

/-- What the calls so far have made of the node. -/
def ConfigNode.After (value : Bool) (calls : List OptionCall) (node : ConfigNode) : Prop :=
  if calls.any OptionCall.isSetI then
    ∃ before call, calls = before ++ [call] ∧ node.IsText before call
  else node.IsBool (calls.foldl OptionCall.truth value)

theorem ConfigNode.IsBool.bool {b : Bool} (h : node.IsBool b) : node.flags &&& cnBool ≠ 0 := by
  rw [h.flags]
  decide

theorem flags_text : (cnRw ||| cnInt) &&& cnBool = 0 ∧ (cnRw ||| cnInt) &&& cnRo = 0 := by decide

/-- `config_set` leaves a boolean node one. -/
theorem ConfigNode.IsBool.assign {b : Bool} (h : node.IsBool b) (env : ConfigEnv)
    (value : List u8) : (node.assign env (some value)).IsBool (isTrue value) := by
  unfold ConfigNode.assign
  rw [if_pos h.bool]
  have hval : decide (some value = some trueText ∨ some value = some [49]) = isTrue value := by
    unfold isTrue
    simp
  dsimp only
  rw [hval]
  exact ⟨h.flags, h.callback, rfl, rfl⟩

/-- `config_set_i` does not. -/
theorem ConfigNode.IsBool.assignI {b : Bool} {before : List OptionCall} (h : node.IsBool b)
    (hbefore : ¬before.any OptionCall.isSetI = true) (env : ConfigEnv) (i : ut64) :
    (node.assignI i).IsText before (.setI env i) := by
  unfold ConfigNode.assignI
  rw [if_pos h.bool]
  refine ⟨rfl, h.callback, fun env => ?_⟩
  dsimp only [OptionCall.left]
  rw [if_neg hbefore]
  by_cases hi : i ≠ 0
  · rw [if_pos hi, if_pos hi]
  · rw [if_neg hi, if_neg hi, if_neg hi]

theorem ConfigNode.IsText.assign {before : List OptionCall} (h : node.IsText before call)
    (before' : List OptionCall) (env : ConfigEnv) (value : List u8) :
    (node.assign env (some value)).IsText before' (.set env value) := by
  have hbool : ¬node.flags &&& cnBool ≠ 0 := by
    rw [h.flags]
    exact not_not.mpr flags_text.1
  unfold ConfigNode.assign
  rw [if_neg hbool]
  refine ⟨?_, h.callback, fun _ => rfl⟩
  dsimp only
  rw [h.flags]
  decide

theorem ConfigNode.IsText.assignI {before before' : List OptionCall} (h : node.IsText before call)
    (hbefore : before'.any OptionCall.isSetI = true) (env : ConfigEnv) (i : ut64) :
    (node.assignI i).IsText before' (.setI env i) := by
  have hbool : ¬node.flags &&& cnBool ≠ 0 := by
    rw [h.flags]
    exact not_not.mpr flags_text.1
  unfold ConfigNode.assignI
  rw [if_neg hbool]
  refine ⟨rfl, h.callback, fun env => ?_⟩
  dsimp only [OptionCall.left]
  rw [if_pos hbefore]
  by_cases hi : i ≠ 0
  · rw [if_pos hi, if_pos hi]
  · rw [if_neg hi, if_neg hi, not_not.mp hi]

/-- What a call writes to the node. -/
def OptionCall.write : OptionCall → ConfigNode → ConfigNode
  | .set env value, node => node.assign env (some value)
  | .setI _ i, node => node.assignI i

theorem hash_write (call : OptionCall) (bt : ConfigNode) : (call.write bt).hash = bt.hash := by
  cases call with
  | set env value => exact hash_assign env (some value) bt
  | setI env i => rfl

theorem isSetI_concat :
    (calls ++ [call]).any OptionCall.isSetI = (calls.any OptionCall.isSetI || call.isSetI) := by
  simp

theorem ConfigNode.IsText.after {value : Bool} (h : node.IsText calls call)
    (hset : (calls ++ [call]).any OptionCall.isSetI = true) :
    node.After value (calls ++ [call]) := by
  unfold ConfigNode.After
  rw [if_pos hset]
  exact ⟨calls, call, rfl, h⟩

/-- **One call more**, on the node. -/
theorem ConfigNode.After.write {value : Bool} (h : node.After value calls) (call : OptionCall) :
    (call.write node).After value (calls ++ [call]) := by
  unfold ConfigNode.After at h
  by_cases hset : calls.any OptionCall.isSetI = true
  · rw [if_pos hset] at h
    obtain ⟨before, last, -, htext⟩ := h
    have hany : (calls ++ [call]).any OptionCall.isSetI = true := by
      rw [isSetI_concat, hset, Bool.true_or]
    cases call with
    | set env v => exact (htext.assign calls env v).after hany
    | setI env i => exact (htext.assignI hset env i).after hany
  · rw [if_neg hset] at h
    cases call with
    | set env v =>
      have hany : ¬(calls ++ [OptionCall.set env v]).any OptionCall.isSetI = true := by
        rwa [isSetI_concat, show (OptionCall.set env v).isSetI = false from rfl, Bool.or_false]
      unfold ConfigNode.After
      rw [if_neg hany, List.foldl_append]
      exact h.assign env v
    | setI env i =>
      have hany : (calls ++ [OptionCall.setI env i]).any OptionCall.isSetI = true := by
        rw [isSetI_concat, show (OptionCall.setI env i).isSetI = true from rfl, Bool.or_true]
      exact (h.assignI hset env i).after hany

theorem ConfigNode.After.callback {value : Bool} (h : node.After value calls) :
    node.callback = none := by
  unfold ConfigNode.After at h
  split_ifs at h
  · obtain ⟨before, last, -, htext⟩ := h
    exact htext.callback
  · exact h.callback

theorem ConfigNode.After.not_ro {value : Bool} (h : node.After value calls) :
    ¬node.flags &&& cnRo ≠ 0 := by
  unfold ConfigNode.After at h
  split_ifs at h
  · obtain ⟨before, last, -, htext⟩ := h
    rw [htext.flags]
    exact not_not.mpr flags_text.2
  · rw [h.flags]
    decide

/-! ## The run -/

/-- The option has a node, as the calls have left it. -/
def ConfigNew.Holds (c : ConfigNew) (o : BoolOption) (calls : List OptionCall) : Prop :=
  ∃ node, nodeOf (strhash [] o.name) c.nodes = some node ∧ node.After o.value calls

/-- The option is created. -/
theorem BoolOption.holds_create (o : BoolOption) (env : ConfigEnv) :
    (o.run env []).Holds o [] := by
  have hset : o.run env [] = env.notify (configCreate o.name (some (boolText o.value)))
      { o.config with
          nodes := o.config.nodes ++ [configCreate o.name (some (boolText o.value))] } := by
    unfold BoolOption.run configSet
    rw [List.foldl_nil, if_neg o.named, o.fresh]
    dsimp only
    rw [o.unlocked, if_neg Bool.false_ne_true]
  have hnode : (configCreate o.name (some (boolText o.value))).IsBool o.value ∧
      (configCreate o.name (some (boolText o.value))).hash = strhash [] o.name := by
    cases o.value <;> exact ⟨⟨rfl, rfl, rfl, rfl⟩, rfl⟩
  refine ⟨_, ?_, hnode.1⟩
  rw [hset]
  unfold ConfigEnv.notify
  rw [hnode.1.callback]
  dsimp only
  rw [nodeOf_concat, if_pos hnode.2]

/-- What a call makes of a configuration with the node. -/
theorem OptionCall.apply_eq (call : OptionCall) (o : BoolOption)
    (hget : nodeOf (strhash [] o.name) c.nodes = some node) (hro : ¬node.flags &&& cnRo ≠ 0)
    (hcallback : (call.write node).callback = none) :
    call.apply o.name c =
      { c with nodes := nodeUpdate (strhash [] o.name) call.write c.nodes } := by
  have hget' : configNodeGet [] c o.name = some node := by rw [configNodeGet_eq, hget]
  cases call with
  | set env value =>
    change configSet env c o.name (some value) = _
    unfold configSet
    rw [if_neg o.named, hget']
    dsimp only
    rw [if_neg hro]
    unfold ConfigEnv.notify
    rw [show (node.assign env (some value)).callback = none from hcallback]
    rfl
  | setI env i =>
    change configSetI env [] c o.name i = _
    unfold configSetI
    rw [hget']
    dsimp only
    rw [if_neg hro]
    unfold ConfigEnv.notify
    rw [show (node.assignI i).callback = none from hcallback]
    rfl

/-- **And in the configuration.** -/
theorem ConfigNew.Holds.apply (h : c.Holds o calls) (call : OptionCall) :
    (call.apply o.name c).Holds o (calls ++ [call]) := by
  obtain ⟨node, hget, hafter⟩ := h
  have hwrite := hafter.write call
  refine ⟨call.write node, ?_, hwrite⟩
  rw [call.apply_eq o hget hafter.not_ro hwrite.callback]
  dsimp only
  rw [nodeOf_nodeUpdate (hash_write call), if_pos rfl, hget, Option.map_some]

theorem BoolOption.holds (o : BoolOption) (env : ConfigEnv) (calls : List OptionCall) :
    (o.run env calls).Holds o calls := by
  induction calls using List.reverseRecOn with
  | nil => exact o.holds_create env
  | append_singleton calls call ih =>
    have hrun : o.run env (calls ++ [call]) = call.apply o.name (o.run env calls) := by
      unfold BoolOption.run
      rw [List.foldl_append]
      rfl
    rw [hrun]
    exact ih.apply call

/-- **When the getters agree**: after any calls on an option that was
created boolean, `config_get` is not NULL if and only if `config_get_i` is
not 0, exactly if the option is still boolean and is true or `false` is no
number, or its last call has left a number other than 0. -/
theorem getters_agree_iff (o : BoolOption) (env env' : ConfigEnv) (behind : List u8)
    (calls : List OptionCall) :
    ((configGet behind (o.run env calls) o.name).1 ≠ .null ↔
        configGetI env' behind (o.run env calls) o.name ≠ 0) ↔
      Agrees env' o.value calls := by
  obtain ⟨node, hget, hafter⟩ := o.holds env calls
  have hhash : strhash behind o.name = strhash [] o.name := by
    obtain ⟨b, l, hname⟩ := List.exists_cons_of_ne_nil o.named
    rw [hname]
    rfl
  unfold configGet configGetI
  rw [configNodeGet_eq, hhash, hget]
  dsimp only
  unfold ConfigNode.After at hafter
  unfold Agrees
  by_cases hset : calls.any OptionCall.isSetI = true
  · rw [if_pos hset] at hafter ⊢
    obtain ⟨before, call, hcalls, htext⟩ := hafter
    have hbool : ¬node.flags &&& cnBool ≠ 0 := by
      rw [htext.flags]
      exact not_not.mpr flags_text.1
    rw [if_neg hbool, htext.left]
    constructor
    · exact fun h => ⟨before, call, hcalls, h.mp ConfigValue.noConfusion⟩
    · rintro ⟨before', call', hcalls', hleft⟩
      obtain ⟨rfl, hlast⟩ := List.append_inj' (hcalls.symm.trans hcalls') rfl
      obtain rfl := List.singleton_inj.mp hlast
      exact iff_of_true ConfigValue.noConfusion hleft
  · rw [if_neg hset] at hafter ⊢
    rw [if_pos hafter.bool, hafter.value, hafter.iValue]
    cases calls.foldl OptionCall.truth o.value with
    | true =>
      have hone : (if (1 : ut64) ≠ 0 then 1 else env'.getMath trueText) ≠ 0 := by
        rw [if_pos (by decide)]
        decide
      exact iff_of_true (iff_of_true (by decide) hone) (Or.inl rfl)
    | false =>
      have hnull : ¬((ConfigValue.null, false).1 ≠ .null) := fun h => h rfl
      rw [show boolText false = falseText from rfl]
      constructor
      · intro h
        refine Or.inr ?_
        by_contra hne
        exact hnull (h.mpr hne)
      · rintro (h | h)
        · cases h
        · exact iff_of_false hnull (not_not.mpr h)

/-- **A boolean option set to 0 by number**: it is not NULL, and 0. -/
theorem boolean_set_by_number :
    let o : BoolOption := ⟨{}, [97], true, by decide, rfl, rfl⟩
    let env : ConfigEnv := ⟨fun _ => 0, fun _ => 0, fun _ _ c => c⟩
    (configGet [] (o.run env [.setI env 0]) [97]).1 = .str falseText ∧
      configGetI env [] (o.run env [.setI env 0]) [97] = 0 := by
  decide

end Radare
