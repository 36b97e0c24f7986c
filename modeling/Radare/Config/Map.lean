import Radare.Config.Model
import Mathlib.Data.List.Induction
/-!
# The configuration as a map

`config_set` and `config_get` tell names apart by their hashes. So what a
name gives is the value last set under any name of its hash, and the table
is a map of names as far as no two of them share one (`configGet_is_map`).
-/

namespace Radare

variable {env : ConfigEnv} {behind name : List u8} {value : Option (List u8)} {h hash : UInt32}
variable {nodes : List ConfigNode} {node : ConfigNode} {f : ConfigNode → ConfigNode}

/-- A call of `config_set`. -/
structure Setting where
  name : List u8
  value : Option (List u8)

/-- Calls with names that are not boolean: the first value of a name is not
`true` or `false`. -/
structure Settings where
  sets : List Setting
  plain : ∀ pre s post, sets = pre ++ s :: post → (∀ r ∈ pre, r.name ≠ s.name) →
    s.value ≠ some trueText ∧ s.value ≠ some falseText

/-- The configuration after the calls, from an empty one that is not
locked. -/
def configRun (env : ConfigEnv) (sets : List Setting) : ConfigNew :=
  sets.foldl (fun c s => configSet env c s.name s.value) {}

/-- The value of the last call of a kind. -/
def lastValue (p : Setting → Bool) (sets : List Setting) : Option (List u8) :=
  (sets.findRev? p).map fun s => s.value.getD []

variable {p : Setting → Bool} {sets : List Setting} {s : Setting} {c : ConfigNew}

theorem lastValue_concat :
    lastValue p (sets ++ [s]) = if p s then some (s.value.getD []) else lastValue p sets := by
  unfold lastValue
  rw [List.findRev?_eq_find?_reverse, List.findRev?_eq_find?_reverse, List.reverse_append]
  change (List.find? p (s :: sets.reverse)).map _ = _
  rw [List.find?_cons]
  cases p s <;> rfl

theorem lastValue_isSome (hs : s ∈ sets) (hp : p s) : (lastValue p sets).isSome := by
  unfold lastValue
  rw [Option.isSome_map, List.findRev?_eq_find?_reverse, List.find?_isSome]
  exact ⟨s, List.mem_reverse.mpr hs, hp⟩

/-! ## Nodes -/

/-- The node of a hash, the last one in the list. -/
def nodeOf (hash : UInt32) (nodes : List ConfigNode) : Option ConfigNode :=
  nodes.findRev? fun bt => bt.hash = hash

theorem configNodeGet_eq :
    configNodeGet behind c name = nodeOf (strhash behind name) c.nodes := rfl

theorem nodeOf_cons :
    nodeOf hash (node :: nodes) =
      (nodeOf hash nodes).or (if node.hash = hash then some node else none) := by
  unfold nodeOf
  rw [List.findRev?_eq_find?_reverse, List.findRev?_eq_find?_reverse, List.reverse_cons,
    List.find?_append, List.find?_singleton]
  simp only [decide_eq_true_eq]

theorem nodeOf_concat :
    nodeOf hash (nodes ++ [node]) = if node.hash = hash then some node else nodeOf hash nodes := by
  unfold nodeOf
  rw [List.findRev?_eq_find?_reverse, List.findRev?_eq_find?_reverse, List.reverse_append]
  change List.find? _ (node :: nodes.reverse) = _
  rw [List.find?_cons]
  by_cases hnode : node.hash = hash <;> simp [hnode]

theorem nodeOf_eq_none_iff :
    nodeOf hash nodes = none ↔ ¬(nodes.any fun bt => bt.hash = hash) = true := by
  unfold nodeOf
  rw [List.findRev?_eq_find?_reverse, List.find?_eq_none, List.any_eq_true]
  simp

/-- **The node of a hash rewritten**, and no other. -/
theorem nodeOf_nodeUpdate (hf : ∀ bt, (f bt).hash = bt.hash) :
    nodeOf h (nodeUpdate hash f nodes) =
      if h = hash then (nodeOf h nodes).map f else nodeOf h nodes := by
  induction nodes with
  | nil => simp [nodeUpdate, nodeOf]
  | cons bt nodes ih =>
    unfold nodeUpdate
    by_cases hany : (nodes.any fun bt => bt.hash = hash) = true
    · -- a node of the hash is behind this one
      rw [if_pos hany, nodeOf_cons, nodeOf_cons, ih]
      by_cases hh : h = hash
      · subst hh
        obtain ⟨node, hnode⟩ : ∃ node, nodeOf h nodes = some node :=
          Option.ne_none_iff_exists'.mp fun hnone => nodeOf_eq_none_iff.mp hnone hany
        rw [if_pos rfl, if_pos rfl, hnode]
        rfl
      · rw [if_neg hh, if_neg hh]
    · have hnone := nodeOf_eq_none_iff.mpr hany
      rw [if_neg hany, nodeOf_cons, nodeOf_cons]
      by_cases hh : h = hash
      · subst hh
        rw [if_pos rfl, hnone, Option.none_or, Option.none_or]
        by_cases hbt : bt.hash = h
        · rw [if_pos hbt, if_pos hbt, hf, if_pos hbt, Option.map_some]
        · rw [if_neg hbt, if_neg hbt, Option.map_none]
      · rw [if_neg hh]
        by_cases hbt : bt.hash = hash
        · rw [if_pos hbt, hf, hbt, if_neg (Ne.symm hh), if_neg (Ne.symm hh)]
        · rw [if_neg hbt]

theorem hash_assign (env : ConfigEnv) (value : Option (List u8)) (bt : ConfigNode) :
    (bt.assign env value).hash = bt.hash := by
  unfold ConfigNode.assign
  by_cases hbool : bt.flags &&& cnBool ≠ 0
  · rw [if_pos hbool]
  · rw [if_neg hbool]
    cases value <;> rfl

/-! ## Plain nodes -/

/-- A node that is not boolean, can be written, and has no callback. -/
structure ConfigNode.Plain (node : ConfigNode) : Prop where
  flags : node.flags = cnRw ||| cnStr ∨ node.flags = cnRw ||| cnStr ||| cnInt
  callback : node.callback = none

theorem ConfigNode.Plain.not_bool (h : node.Plain) : ¬node.flags &&& cnBool ≠ 0 := by
  rcases h.flags with h | h <;> rw [h] <;> decide

theorem ConfigNode.Plain.not_ro (h : node.Plain) : ¬node.flags &&& cnRo ≠ 0 := by
  rcases h.flags with h | h <;> rw [h] <;> decide

/-- What `config_set` makes of a plain node. -/
theorem ConfigNode.Plain.assign (h : node.Plain) (env : ConfigEnv) (value : Option (List u8)) :
    (node.assign env value).Plain ∧ (node.assign env value).value = value.getD [] := by
  unfold ConfigNode.assign
  rw [if_neg h.not_bool]
  cases value with
  | none => exact ⟨⟨h.flags, h.callback⟩, rfl⟩
  | some value =>
    refine ⟨⟨Or.inr ?_, h.callback⟩, rfl⟩
    dsimp only
    rcases h.flags with h | h
    · rw [h]
    · rw [h]
      decide

/-- And of a name that has none. -/
theorem configCreate_plain (hvalue : value ≠ some trueText ∧ value ≠ some falseText) :
    configCreate name value = configNodeNew name value ∧ (configNodeNew name value).Plain :=
  ⟨if_neg (not_or.mpr hvalue), ⟨Or.inl rfl, rfl⟩⟩

theorem ConfigNode.Plain.notify (h : node.Plain) (env : ConfigEnv) (c : ConfigNew) :
    env.notify node c = c := by
  unfold ConfigEnv.notify
  rw [h.callback]

/-! ## The run -/

/-- The names of a hash that `config_set` takes. -/
def ofHash (hash : UInt32) (s : Setting) : Bool := s.name ≠ [] ∧ strhash [] s.name = hash

/-- What holds after the calls: the nodes are plain, and the node of a hash
has the value last set under a name of it. -/
structure ConfigNew.Follows (c : ConfigNew) (sets : List Setting) : Prop where
  lock : c.lock = false
  plain : ∀ node ∈ c.nodes, node.Plain
  value : ∀ hash, (nodeOf hash c.nodes).map ConfigNode.value = lastValue (ofHash hash) sets

theorem mem_of_nodeOf (hnode : nodeOf hash nodes = some node) : node ∈ nodes := by
  unfold nodeOf at hnode
  rw [List.findRev?_eq_find?_reverse] at hnode
  exact List.mem_reverse.mp (List.mem_of_find?_eq_some hnode)

theorem mem_nodeUpdate {P : ConfigNode → Prop} (hP : ∀ bt ∈ nodes, P bt)
    (hf : ∀ bt ∈ nodes, P (f bt)) : ∀ bt ∈ nodeUpdate hash f nodes, P bt := by
  induction nodes with
  | nil => exact hP
  | cons bt nodes ih =>
    have hrest := ih (fun b hb => hP b (List.mem_cons_of_mem _ hb))
      fun b hb => hf b (List.mem_cons_of_mem _ hb)
    unfold nodeUpdate
    intro b hb
    split_ifs at hb
    · rcases List.mem_cons.mp hb with rfl | hb
      · exact hP b List.mem_cons_self
      · exact hrest b hb
    · rcases List.mem_cons.mp hb with rfl | hb
      · exact hf bt List.mem_cons_self
      · exact hP b (List.mem_cons_of_mem _ hb)
    · rcases List.mem_cons.mp hb with rfl | hb
      · exact hP b List.mem_cons_self
      · exact hP b (List.mem_cons_of_mem _ hb)

/-- **One call**, the first of its name with a value that is not boolean. -/
theorem ConfigNew.Follows.set (hc : c.Follows sets)
    (hplain : (∀ r ∈ sets, r.name ≠ s.name) → s.value ≠ some trueText ∧ s.value ≠ some falseText) :
    (configSet env c s.name s.value).Follows (sets ++ [s]) := by
  unfold configSet
  by_cases hname : s.name = []
  · -- a name that is empty is not taken
    rw [if_pos hname]
    refine ⟨hc.lock, hc.plain, fun hash => ?_⟩
    rw [hc.value, lastValue_concat, if_neg (by simp [ofHash, hname])]
  · rw [if_neg hname, configNodeGet_eq]
    have hof : ∀ hash, ofHash hash s = true ↔ strhash [] s.name = hash := fun hash => by
      simp [ofHash, hname]
    cases hget : nodeOf (strhash [] s.name) c.nodes with
    | some node =>
      have hnode := hc.plain node (mem_of_nodeOf hget)
      dsimp only
      rw [if_neg hnode.not_ro, (hnode.assign env s.value).1.notify]
      refine ⟨hc.lock, mem_nodeUpdate hc.plain fun bt hbt =>
        ((hc.plain bt hbt).assign env s.value).1, fun hash => ?_⟩
      dsimp only
      rw [nodeOf_nodeUpdate (hash_assign env s.value), lastValue_concat]
      by_cases hh : hash = strhash [] s.name
      · rw [if_pos hh, if_pos ((hof hash).mpr hh.symm), hh, hget]
        exact congrArg some (hnode.assign env s.value).2
      · rw [if_neg hh, if_neg fun h => hh ((hof hash).mp h).symm, hc.value]
    | none =>
      -- no name of this hash was set, so this one was not
      have hfirst : ∀ r ∈ sets, r.name ≠ s.name := by
        intro r hr hrs
        have hlast := hc.value (strhash [] s.name)
        rw [hget, Option.map_none] at hlast
        have hsome := lastValue_isSome (p := ofHash (strhash [] s.name)) hr
          (by simp [ofHash, hrs, hname])
        rw [← hlast] at hsome
        cases hsome
      have hcreate : configCreate s.name s.value = configNodeNew s.name s.value :=
        (configCreate_plain (hplain hfirst)).1
      have hnode : (configNodeNew s.name s.value).Plain := (configCreate_plain (hplain hfirst)).2
      dsimp only
      rw [hc.lock, if_neg Bool.false_ne_true, hcreate, hnode.notify]
      refine ⟨rfl, ?_, fun hash => ?_⟩
      · intro bt hbt
        rcases List.mem_append.mp hbt with hbt | hbt
        · exact hc.plain bt hbt
        · rw [List.mem_singleton.mp hbt]
          exact hnode
      · have hhash : (configNodeNew s.name s.value).hash = strhash [] s.name := rfl
        dsimp only
        rw [nodeOf_concat, lastValue_concat, hhash]
        by_cases hh : strhash [] s.name = hash
        · rw [if_pos ((hof hash).mpr hh), if_pos hh]
          rfl
        · rw [if_neg fun h => hh ((hof hash).mp h), if_neg hh, hc.value]

/-- The invariant over the calls. -/
theorem Settings.follows (ss : Settings) (env : ConfigEnv) :
    (configRun env ss.sets).Follows ss.sets := by
  obtain ⟨sets, hplain⟩ := ss
  dsimp only
  induction sets using List.reverseRecOn with
  | nil => exact ⟨rfl, fun node hnode => absurd hnode List.not_mem_nil, fun _ => rfl⟩
  | append_singleton sets s ih =>
    have hlast : configRun env (sets ++ [s]) =
        configSet env (configRun env sets) s.name s.value := by
      unfold configRun
      rw [List.foldl_append]
      rfl
    rw [hlast]
    refine (ih fun pre r post heq => hplain pre r (post ++ [s]) ?_).set (hplain sets s [] rfl)
    rw [heq, List.append_assoc, List.cons_append]

/-- What `config_get` is to return: a value, or that there is none. -/
def answer : Option (List u8) → ConfigValue × Bool
  | some value => (.str value, false)
  | none => (.null, true)

theorem answer_inj {a b : Option (List u8)} : answer a = answer b ↔ a = b := by
  constructor
  · cases a <;> cases b <;> simp [answer]
  · rintro rfl
    rfl

/-- What it does return. -/
theorem configGet_eq (ss : Settings) (env : ConfigEnv) (behind name : List u8) :
    configGet behind (configRun env ss.sets) name =
      answer (lastValue (ofHash (strhash behind name)) ss.sets) := by
  have hc := ss.follows env
  unfold configGet
  rw [configNodeGet_eq, ← hc.value]
  cases hget : nodeOf (strhash behind name) (configRun env ss.sets).nodes with
  | none => rfl
  | some node =>
    dsimp only
    rw [if_neg (hc.plain node (mem_of_nodeOf hget)).not_bool]
    rfl

/-- **When the configuration is a map**: a name gives the value last set
under it, and one never set is not found, if and only if of all the names
with its hash the one last set had that value. -/
theorem configGet_is_map (env : ConfigEnv) (behind : List u8) (ss : Settings) (name : List u8) :
    configGet behind (configRun env ss.sets) name =
        answer (lastValue (fun s => s.name = name) ss.sets) ↔
      lastValue (ofHash (strhash behind name)) ss.sets =
        lastValue (fun s => s.name = name) ss.sets := by
  rw [configGet_eq, answer_inj]

/-- **Two names of one hash**: `0c` was never set, and has the value of
`ab`. -/
theorem unset_name_found :
    let ss : Settings := ⟨[⟨[97, 98], some [49]⟩], fun pre s post heq _ => by
      rcases pre with _ | ⟨r, pre⟩
      · obtain ⟨rfl, -⟩ := List.cons.inj heq
        decide
      · simp at heq⟩
    lastValue (fun s => s.name = [48, 99]) ss.sets = none ∧
      configGet [] (configRun ⟨fun _ => 1, fun _ => 1, fun _ _ c => c⟩ ss.sets) [48, 99] =
        (.str [49], false) := by
  decide

end Radare
