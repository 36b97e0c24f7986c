import Radare.Data.Reading
import Radare.Utils.Level
/-!
# Sums of numbers

The loop of `get_math` takes a text apart where it stands, with a NUL over
each operator. Of a text with no operator but `+` it makes the sum of what
stands between them (`run_mathLoop_sum`). So the texts that the lines of the
tables are read from have the values in `get_math` that they have here
(`getMath_eq_getMathText`), and the numbers of section lines those that they
have there (`getMath_eq_getMath`).
-/

namespace Radare

open Common

namespace Utils

variable {env : MathEnv} {f : Ask → Unit → Option (ut64 × Unit)} {vals : List u8 → ut64}
variable {m : MathState} {pre tok rest behind text : List u8} {t : ut64} {n : ℕ}

/-! ## The memory -/

theorem cstr_append (h : 0 ∉ rest) : cstr (pre ++ rest ++ 0 :: behind) pre.length = rest := by
  unfold cstr
  rw [List.append_assoc, List.drop_left, takeWhile_ne_cons h]

theorem set_append (c : u8) :
    (pre ++ (tok ++ c :: rest) ++ behind).set (pre.length + tok.length) 0 =
      (pre ++ tok ++ [0]) ++ rest ++ behind := by
  have hassoc : pre ++ (tok ++ c :: rest) ++ behind = (pre ++ tok) ++ c :: (rest ++ behind) := by simp
  rw [hassoc, ← List.length_append, List.set_append_right _ _ le_rfl, Nat.sub_self, List.set_cons_zero]
  simp

theorem takeWhile_operators (h : ∀ c ∈ tok, c ∉ operators)
    (hrest : ∀ c ∈ rest.head?, c ∈ operators) :
    ((tok ++ rest).takeWhile fun c => ¬operators.contains c) = tok := by
  rw [List.takeWhile_append_of_pos fun c hc => by simpa using h c hc]
  cases rest with
  | nil => exact List.append_nil tok
  | cons c rest =>
    rw [List.takeWhile_cons_of_neg (by simpa using hrest c rfl), List.append_nil]

/-! ## One turn -/

/-- What an operator makes of the value so far and the number behind it. -/
def stepOff (oop : u8) (acc t : ut64) : ut64 :=
  match oop with
  | 37 => if t = 0 then acc else acc % t
  | 47 => if t = 0 then acc else acc / t
  | 60 => acc <<< t
  | 62 => acc >>> t
  | 45 => acc - t
  | 42 => acc * t
  | _ => acc + t

/-- **The switch**, behind an operator that is none of a comparison, a bracket
and a backslash. -/
theorem mathSwitch_step (hoop : m.oop ∉ [33, 61, 91, 92]) (tok : List u8) (tmp : Option ℕ) :
    mathSwitch env m tok tmp = getOffset env tok >>= fun t =>
      pure ({ m with newOff := stepOff m.oop m.newOff t }, tmp) := by
  obtain ⟨txt, txt2, ptr, newOff, cmpOff, isCmp, op, oop⟩ := m
  dsimp only at hoop ⊢
  unfold mathSwitch
  dsimp only
  split
  · exact absurd List.mem_cons_self hoop
  · exact absurd (by decide) hoop
  · exact absurd (by decide) hoop
  · exact absurd (by decide) hoop
  · refine congrArg (getOffset env tok >>= ·) (funext fun t => ?_)
    unfold stepOff
    split
    · split_ifs <;> rfl
    · split_ifs <;> rfl
    · rfl
    · rfl
    · rfl
    · rfl
    · -- the same operators are excluded on both sides
      simp only [*]

/-- **A turn of the loop** at a token with an operator behind it. The operator
is left for the next one. -/
theorem mathLoop_turn {op : u8} (htok : ∀ c ∈ tok, c ∉ operators) (hop : op ∈ operators)
    (hzero : 0 ∉ tok ++ op :: rest) (htxt : m.txt = pre ++ (tok ++ op :: rest) ++ 0 :: behind)
    (hptr : m.ptr = pre.length) :
    mathLoop env (n + 1) m =
      mathSwitch env { m with txt := (pre ++ tok ++ [0]) ++ rest ++ 0 :: behind, op := op } tok
        (some pre.length) >>= fun (m, tmp) =>
          match tmp with
          | none => pure m
          | some tmp =>
            mathLoop env n { m with ptr := tmp + (cstr m.txt tmp).length + 1, oop := m.op } := by
  have htext : cstr m.txt m.ptr = tok ++ op :: rest := by
    rw [htxt, hptr]
    exact cstr_append hzero
  have hne : ¬tok ++ op :: rest = [] := List.append_ne_nil_of_right_ne_nil _ (List.cons_ne_nil _ _)
  have hcut : ((tok ++ op :: rest).takeWhile fun c => ¬operators.contains c) = tok :=
    takeWhile_operators htok fun c hc => Option.some.inj hc ▸ hop
  have hdelim : (tok ++ op :: rest)[tok.length]? = some op := by simp
  have hset : m.txt.set (m.ptr + tok.length) 0 = (pre ++ tok ++ [0]) ++ rest ++ 0 :: behind := by
    rw [htxt, hptr]
    exact set_append op
  conv_lhs => unfold mathLoop
  dsimp only
  rw [htext, if_neg hne, hcut, hdelim]
  dsimp only [Option.map_some]
  rw [hset]
  exact hptr ▸ rfl

/-- Where the next token is. -/
theorem next_token (h : 0 ∉ tok) :
    pre.length + (cstr ((pre ++ tok ++ [0]) ++ rest ++ 0 :: behind) pre.length).length + 1 =
      (pre ++ tok ++ [0]).length := by
  have hcstr : cstr ((pre ++ tok ++ [0]) ++ rest ++ 0 :: behind) pre.length = tok := by
    rw [List.append_assoc, List.append_assoc, List.append_assoc, List.singleton_append,
      ← List.append_assoc]
    exact cstr_append h
  rw [hcstr, List.length_append, List.length_append, List.length_singleton]

/-- **The last turn**, at a token with none behind it. -/
theorem mathLoop_last (htok : ∀ c ∈ tok, c ∉ operators) (hne : tok ≠ []) (hzero : 0 ∉ tok)
    (htxt : m.txt = pre ++ tok ++ 0 :: behind) (hptr : m.ptr = pre.length) :
    mathLoop env (n + 1) m =
      mathSwitch env m tok none >>= fun (m, tmp) =>
        match tmp with
        | none => pure m
        | some tmp =>
          mathLoop env n { m with ptr := tmp + (cstr m.txt tmp).length + 1, oop := m.op } := by
  have htext : cstr m.txt m.ptr = tok := by
    rw [htxt, hptr]
    exact cstr_append hzero
  have hcut : (tok.takeWhile fun c => ¬operators.contains c) = tok := by
    have h : ((tok ++ []).takeWhile fun c => ¬operators.contains c) = tok :=
      takeWhile_operators htok fun c hc => by cases hc
    rwa [List.append_nil] at h
  conv_lhs => unfold mathLoop
  dsimp only
  rw [htext, if_neg hne, hcut, List.getElem?_eq_none le_rfl]
  rfl

/-- **A turn that calculates.** -/
theorem mathLoop_step {op : u8} (hoop : m.oop ∉ [33, 61, 91, 92]) (htok : ∀ c ∈ tok, c ∉ operators)
    (hop : op ∈ operators) (hzero : 0 ∉ tok ++ op :: rest)
    (htxt : m.txt = pre ++ (tok ++ op :: rest) ++ 0 :: behind) (hptr : m.ptr = pre.length) :
    mathLoop env (n + 1) m = getOffset env tok >>= fun t =>
      mathLoop env n
        { m with
          txt := (pre ++ tok ++ [0]) ++ rest ++ 0 :: behind
          ptr := (pre ++ tok ++ [0]).length
          newOff := stepOff m.oop m.newOff t
          op := op
          oop := op } := by
  have htok0 : 0 ∉ tok := fun h => hzero (List.mem_append_left _ h)
  rw [mathLoop_turn htok hop hzero htxt hptr, mathSwitch_step (by exact hoop), bind_assoc]
  refine congrArg (getOffset env tok >>= ·) (funext fun t => ?_)
  rw [pure_bind]
  dsimp only
  rw [next_token htok0]

/-- **The last turn that calculates.** -/
theorem mathLoop_step_last (hoop : m.oop ∉ [33, 61, 91, 92]) (htok : ∀ c ∈ tok, c ∉ operators)
    (hne : tok ≠ []) (hzero : 0 ∉ tok) (htxt : m.txt = pre ++ tok ++ 0 :: behind)
    (hptr : m.ptr = pre.length) :
    mathLoop env (n + 1) m = getOffset env tok >>= fun t =>
      pure { m with newOff := stepOff m.oop m.newOff t } := by
  rw [mathLoop_last htok hne hzero htxt hptr, mathSwitch_step hoop, bind_assoc]
  rfl

/-! ## The loop -/

/-- **The loop of `get_math` sums up** what is between the operators, if all
of them are `+`. -/
theorem run_mathLoop_sum (hops : ∀ c ∈ rest, c = 43 ∨ c ∉ operators) (hzero : 0 ∉ rest)
    (hvals : ∀ t ∈ rest.splitOn 43, (getOffset env t).run f () = some (vals t, ()))
    (hn : rest.length < n) (htxt : m.txt = pre ++ rest ++ 0 :: behind) (hptr : m.ptr = pre.length)
    (hoop : m.oop = 0 ∨ m.oop = 43) :
    ∃ m', (mathLoop env n m).run f () = some (m', ()) ∧ m'.isCmp = m.isCmp ∧
      m'.newOff = ((rest.splitOn 43).map vals).foldl (· + ·) m.newOff := by
  induction n generalizing m pre rest with
  | zero => omega
  | succ n ih =>
    -- behind nothing and behind a `+`, a number is added
    have hnone : m.oop ∉ [33, 61, 91, 92] := by
      rcases hoop with h | h <;> (rw [h]; decide)
    have hadd : ∀ t, stepOff m.oop m.newOff t = m.newOff + t := by
      intro t
      rcases hoop with h | h <;> (rw [h]; rfl)
    by_cases hnil : rest = []
    · -- nothing is added for what is behind the last `+`
      subst hnil
      have hempty : vals [] = 0 := (congrArg Prod.fst (Option.some.inj (hvals [] (by simp)))).symm
      have htext : cstr m.txt m.ptr = [] := by
        rw [htxt, hptr]
        exact cstr_append hzero
      refine ⟨m, ?_, rfl, ?_⟩
      · unfold mathLoop
        dsimp only
        rw [htext, if_pos rfl]
        rfl
      · rw [List.splitOn_nil, List.map_singleton, List.foldl_cons, List.foldl_nil, hempty,
          UInt64.add_zero]
    · by_cases hplus : 43 ∈ rest
      · obtain ⟨tok, rest, rfl, htok⟩ := List.eq_append_cons_of_mem hplus
        have hplain : ∀ c ∈ tok, c ∉ operators := by
          intro c hc
          refine (hops c (List.mem_append_left _ hc)).resolve_left ?_
          rintro rfl
          exact htok hc
        have hsplit : (tok ++ 43 :: rest).splitOn 43 = tok :: rest.splitOn 43 :=
          List.splitOn_append_cons_self_of_not_mem htok rest
        rw [hsplit] at hvals ⊢
        rw [mathLoop_step hnone hplain (by decide) hzero htxt hptr,
          Prog.run_bind_of (hvals tok List.mem_cons_self), List.map_cons, List.foldl_cons, ← hadd]
        refine ih (fun c hc => hops c (List.mem_append_right _ (List.mem_cons_of_mem _ hc)))
          (fun h => hzero (List.mem_append_right _ (List.mem_cons_of_mem _ h)))
          (fun t ht => hvals t (List.mem_cons_of_mem _ ht)) ?_ rfl rfl (Or.inr rfl)
        rw [List.length_append, List.length_cons] at hn
        omega
      · have hplain : ∀ c ∈ rest, c ∉ operators := by
          intro c hc
          refine (hops c hc).resolve_left ?_
          rintro rfl
          exact hplus hc
        rw [List.splitOn_eq_singleton hplus] at hvals ⊢
        rw [mathLoop_step_last hnone hplain hnil hzero htxt hptr,
          Prog.run_bind_of (hvals rest List.mem_cons_self)]
        refine ⟨_, rfl, rfl, ?_⟩
        rw [List.map_singleton, List.foldl_cons, List.foldl_nil, ← hadd]

/-- What is returned behind the loop. -/
def MathState.result (m : MathState) : ut64 :=
  if m.isCmp > 0 then m.newOff - m.cmpOff
  else if m.isCmp < 0 then if m.newOff - m.cmpOff = 0 then 1 else 0
  else m.newOff

/-- The variables in front of the loop, of a text that starts with no sign. -/
def MathState.start (env : MathEnv) (txt : List u8) : MathState where
  txt := txt ++ 0 :: env.behind
  txt2 := txt ++ 0 :: env.behind2
  newOff := 0

/-- **The body of `get_math`**, of a text that starts with no sign. -/
theorem mathBody_unsigned
    (hsigned : ¬((squeeze text).head? = some 43 ∨ (squeeze text).head? = some 45)) :
    mathBody env text =
      mathLoop env ((squeeze text ++ 0 :: env.behind).length + 1)
        (MathState.start env (squeeze text)) >>= fun m => pure m.result := by
  unfold mathBody
  dsimp only
  rw [decide_eq_false hsigned, if_neg Bool.false_ne_true]
  refine congrArg (mathLoop env _ _ >>= ·) (funext fun m => ?_)
  unfold MathState.result
  split_ifs <;> rfl

/-- **`get_math`**, by what the loop makes of a text that starts with no sign
and compares nothing. -/
theorem getMath_of_run {v : ut64} (htext : text ≠ [])
    (hsigned : ¬((squeeze text).head? = some 43 ∨ (squeeze text).head? = some 45))
    (hrun : ∀ f n (m : MathState), (squeeze text).length < n →
      m.txt = [] ++ squeeze text ++ 0 :: env.behind → m.ptr = 0 → m.newOff = 0 → m.oop = 0 →
      ∃ m', (mathLoop env n m).run f () = some (m', ()) ∧ m'.isCmp = m.isCmp ∧ m'.newOff = v) :
    getMath env text 0 = (v, 0) := by
  have hlen : (squeeze text).length < (squeeze text ++ 0 :: env.behind).length + 1 := by
    rw [List.length_append]
    omega
  obtain ⟨m, hrun, hcmp, hoff⟩ :=
    hrun (fun _ _ => none) _ (MathState.start env (squeeze text)) hlen rfl rfl rfl rfl
  have hresult : m.result = v := by
    have hzero : m.isCmp = 0 := hcmp
    rw [MathState.result, hzero]
    exact hoff
  have hbody : (mathBody env text).run (fun _ _ => none) () = some (v, ()) := by
    rw [mathBody_unsigned hsigned, Prog.run_bind_of hrun, hresult]
    rfl
  -- nothing is asked for
  have hwithin : mathWithin env (fun _ _ _ => true) 6 (.math text) env.disk =
      some (v, env.disk) := by
    rw [mathWithin, if_neg htext]
    exact Prog.inside_of_silent hbody
  exact getMath_of_within hwithin

/-- **`get_math` of a sum.** -/
theorem getMath_sum (htext : text ≠ []) (hhead : (squeeze text).head? ≠ some 43)
    (hops : ∀ c ∈ squeeze text, c = 43 ∨ c ∉ operators) (hzero : 0 ∉ squeeze text)
    (hvals : ∀ f, ∀ t ∈ (squeeze text).splitOn 43, (getOffset env t).run f () = some (vals t, ())) :
    getMath env text 0 = ((((squeeze text).splitOn 43).map vals).foldl (· + ·) 0, 0) := by
  have hsigned : ¬((squeeze text).head? = some 43 ∨ (squeeze text).head? = some 45) := by
    rintro (h | h)
    · exact hhead h
    · exact (hops 45 (List.mem_of_mem_head? h)).elim (by decide) fun hnot => hnot (by decide)
  refine getMath_of_run htext hsigned fun f n m hn htxt hptr hoff hoop => ?_
  rw [← hoff]
  exact run_mathLoop_sum hops hzero (hvals f) hn htxt hptr (Or.inl hoop)

/-! ## Numbers -/

theorem numberOffset_hex (env : MathEnv) (ret : ut64) (word rest : List u8) :
    numberOffset env ret (48 :: 120 :: word)
      ((48 :: 120 :: word ++ rest).set (48 :: 120 :: word).length 0) 1 =
        (scanBase 16 word).getD ret := rfl

theorem numberOffset_dec (env : MathEnv) (ret : ut64) (hne : tok ≠ [])
    (htok : ∀ c ∈ tok, 48 ≤ c ∧ c ≤ 57) :
    numberOffset env ret tok ((tok ++ rest).set tok.length 0) 1 = (scanDec tok).getD ret := by
  have hsecond : ¬(((tok ++ rest).set tok.length 0).getD 1 0 = 120 ∧
      ((tok ++ rest).set tok.length 0).getD (1 - 1) 0 = 48) := by
    rintro ⟨h, -⟩
    match tok, hne with
    | [c], _ => cases rest <;> cases h
    | c :: d :: tok, _ =>
      have hd : d = 120 := h
      exact absurd (htok d (by simp)) (by rw [hd]; decide)
  have hlast : ∀ c, tok.getLast? = some c → 48 ≤ c ∧ c ≤ 57 := fun c hc =>
    htok c (List.mem_of_getLast? hc)
  obtain ⟨c, hc⟩ : ∃ c, tok.getLast? = some c := ⟨_, List.getLast?_eq_some_getLast hne⟩
  have hdigit := hlast c hc
  unfold numberOffset
  rw [if_neg hsecond, hc, Option.getD_some]
  dsimp only
  split <;> first | rfl | exact absurd hdigit (by decide)

/-- The word is a number. -/
def IsWordNumber (tok : List u8) : Prop :=
  tok.take 2 = [48, 120] ∨ tok ≠ [] ∧ ∀ c ∈ tok, 48 ≤ c ∧ c ≤ 57

theorem IsWordNumber.head (h : IsWordNumber tok) : ∃ c w, tok = c :: w ∧ 48 ≤ c ∧ c ≤ 57 := by
  cases tok with
  | nil =>
    rcases h with hhex | ⟨hne, -⟩
    · cases hhex
    · exact absurd rfl hne
  | cons c w =>
    refine ⟨c, w, rfl, ?_⟩
    rcases h with hhex | ⟨-, hdec⟩
    · have hc : c = 48 := (List.cons.inj hhex).1
      rw [hc]
      decide
    · exact hdec c List.mem_cons_self

/-- There is no `$` behind its first character. -/
theorem IsWordNumber.second (h : IsWordNumber tok) (hrest : ∀ c ∈ rest.head?, c = 32) :
    (tok ++ rest).getD 1 0 ≠ 36 := by
  match tok, h with
  | [], h =>
    rcases h with hhex | ⟨hne, -⟩
    · cases hhex
    · exact absurd rfl hne
  | [c], _ =>
    cases rest with
    | nil => exact fun heq => by cases heq
    | cons d rest =>
      have hd : d = 32 := hrest d rfl
      rw [hd]
      exact fun heq => by cases heq
  | c :: d :: w, h =>
    intro heq
    have hd : d = 36 := heq
    rcases h with hhex | ⟨-, hdec⟩
    · rw [hd] at hhex
      cases hhex
    · have hdigit := hdec d (by simp)
      rw [hd] at hdigit
      exact absurd hdigit (by decide)

theorem IsWordNumber.value (h : IsWordNumber tok) (env : MathEnv) (ret : ut64) (rest : List u8) :
    numberOffset env ret tok ((tok ++ rest).set tok.length 0) 1 =
      (if decide (tok.take 2 = [48, 120]) then scanBase 16 (tok.drop 2) else scanDec tok).getD ret := by
  by_cases hhex : tok.take 2 = [48, 120]
  · rw [if_pos (decide_eq_true hhex)]
    match tok, hhex with
    | a :: b :: w, hhex =>
      obtain ⟨rfl, hb⟩ := List.cons.inj hhex
      obtain ⟨rfl, -⟩ := List.cons.inj hb
      exact numberOffset_hex env ret w rest
  · obtain ⟨hne, hdec⟩ := h.resolve_left hhex
    rw [decide_eq_false hhex, if_neg Bool.false_ne_true]
    exact numberOffset_dec env ret hne hdec

end Utils

variable {nums : Numbers} {s : State} {env : Utils.MathEnv} {t text : List u8}
variable {f : Utils.Ask → Unit → Option (ut64 × Unit)}

/-- The text starts with a number, and has no bracket. -/
def IsNumber (orig : List u8) : Prop :=
  let arg := orig.dropWhile (· = 32)
  91 ∉ arg ∧ Utils.IsWordNumber (arg.takeWhile (· ≠ 32))

/-- The option of a name is what it is taken for, and no flag that is found
starts with a digit. -/
structure Utils.MathEnv.Agrees (env : Utils.MathEnv) (nums : Numbers) (t : List u8) : Prop where
  config : ∀ f, (Utils.configGetI env (t.dropWhile (· = 32))).run f () =
    some (nums.configGetI (t.dropWhile (· = 32)), ())
  flag : ∀ c name, 48 ≤ c ∧ c ≤ 57 → env.flagGet (c :: name) = none

/-- So it is where there is no option of the name. -/
theorem agrees_of_no_option
    (hnode : configNodeGet env.behindName env.config (t.dropWhile (· = 32)) = none)
    (hzero : nums.configGetI (t.dropWhile (· = 32)) = 0)
    (hflag : ∀ c name, 48 ≤ c ∧ c ≤ 57 → env.flagGet (c :: name) = none) : env.Agrees nums t := by
  refine ⟨fun f => ?_, hflag⟩
  unfold Utils.configGetI
  rw [hnode, hzero]
  rfl

theorem toUInt32_ne_zero_iff {ret : ut64} : ret.toUInt32 ≠ 0 ↔ ret.toNat % 2 ^ 32 ≠ 0 := by
  rw [Ne, Ne, ← UInt32.toNat_inj, UInt64.toNat_toUInt32]
  rfl

/-- **`get_offset` of a word** that starts with a digit: it is asked for as an
option, and then it is taken for a number. -/
theorem getOffset_word {arg word : List u8} (harg : t.dropWhile (· = 32) = arg)
    (hword : arg.takeWhile (· ≠ 32) = word) (hhead : ∃ c w, word = c :: w ∧ 48 ≤ c ∧ c ≤ 57)
    (hbracket : 91 ∉ arg) (hsecond : arg.getD 1 0 ≠ 36)
    (hdigit : ∀ c name, 48 ≤ c ∧ c ≤ 57 → env.flagGet (c :: name) = none) :
    Utils.getOffset env t = Utils.configGetI env arg >>= fun ret =>
      pure (if ret.toUInt32 ≠ 0 then ret
        else Utils.numberOffset env ret word (arg.set word.length 0) 1) := by
  obtain ⟨c, w, rfl, hc⟩ := hhead
  have hsplit : arg.takeWhile (· ≠ 32) ++ arg.dropWhile (· ≠ 32) = arg :=
    List.takeWhile_append_dropWhile
  rw [hword, List.cons_append] at hsplit
  have hnot : ∀ d : u8, ¬(48 ≤ d ∧ d ≤ 57) → arg.head? ≠ some d := by
    intro d hd heq
    rw [← hsplit] at heq
    exact hd (Option.some.inj heq ▸ hc)
  have hlen : (arg.takeWhile (· = 92)).length + 1 = 1 := by
    have h92 : ¬decide (c = 92) = true := by
      intro h
      rw [of_decide_eq_true h] at hc
      exact absurd hc (by decide)
    rw [← hsplit, List.takeWhile_cons_of_neg (p := fun x => decide (x = 92)) h92]
    rfl
  have hne : ¬t = [] := by
    rintro rfl
    rw [← harg] at hsplit
    cases hsplit
  obtain ⟨n, hn⟩ : ∃ n, t.length = n + 1 := ⟨_, (Nat.succ_pred (by simpa using hne)).symm⟩
  unfold Utils.getOffset
  rw [hn, Utils.offsetAux, if_neg hne]
  dsimp only
  rw [harg, if_neg fun h => hnot 39 (by decide) h.1, if_neg (hnot 46 (by decide)), if_neg hbracket,
    hlen, hword, hdigit c w hc]
  refine congrArg (Utils.configGetI env arg >>= ·) (funext fun ret => ?_)
  by_cases hret : ret.toUInt32 ≠ 0
  · rw [if_pos hret, if_pos hret]
  · rw [if_neg hret, if_neg hret, if_neg hsecond]

/-- **`get_offset` of a number.** -/
theorem getOffset_number (hnumber : IsNumber t)
    (hdigit : ∀ c name, 48 ≤ c ∧ c ≤ 57 → env.flagGet (c :: name) = none) :
    let arg := t.dropWhile (· = 32)
    let word := arg.takeWhile (· ≠ 32)
    Utils.getOffset env t = Utils.configGetI env arg >>= fun ret =>
      pure (if ret.toUInt32 ≠ 0 then ret
        else (if decide (word.take 2 = [48, 120]) then Utils.scanBase 16 (word.drop 2)
          else Utils.scanDec word).getD ret) := by
  obtain ⟨hbracket, hword⟩ := hnumber
  dsimp only at hbracket hword ⊢
  generalize harg : t.dropWhile (· = 32) = arg at hbracket hword ⊢
  have hsplit : arg.takeWhile (· ≠ 32) ++ arg.dropWhile (· ≠ 32) = arg :=
    List.takeWhile_append_dropWhile
  have htail : ∀ c ∈ (arg.dropWhile (· ≠ 32)).head?, c = 32 := by
    intro c hc
    have hfalse := List.head?_dropWhile_not (fun c : u8 => decide (c ≠ 32)) arg
    rw [hc] at hfalse
    simpa using hfalse
  have hsecond := hword.second htail
  rw [hsplit] at hsecond
  rw [getOffset_word harg rfl hword.head hbracket hsecond hdigit]
  refine congrArg (Utils.configGetI env arg >>= ·) (funext fun ret => ?_)
  have hvalue := hword.value env ret (arg.dropWhile (· ≠ 32))
  rw [hsplit] at hvalue
  rw [hvalue]

/-- **`get_offset` of a number**, in a run in which the option of its name is
what it is taken for. -/
theorem run_getOffset_of (hnumber : IsNumber t)
    (hconfig : (Utils.configGetI env (t.dropWhile (· = 32))).run f () =
      some (nums.configGetI (t.dropWhile (· = 32)), ()))
    (hdigit : ∀ c name, 48 ≤ c ∧ c ≤ 57 → env.flagGet (c :: name) = none) :
    (Utils.getOffset env t).run f () = some (getOffsetText nums s t, ()) := by
  rw [getOffset_number hnumber hdigit, Prog.run_bind_of hconfig]
  obtain ⟨hbracket, hword⟩ := hnumber
  unfold getOffsetText
  dsimp only at hbracket hword ⊢
  generalize harg : t.dropWhile (· = 32) = arg at hbracket hword ⊢
  have hform : ¬(91 ∈ arg ∨ (!(decide ((arg.takeWhile (· ≠ 32)).take 2 = [48, 120]) ||
      decide (arg.takeWhile (· ≠ 32) ≠ [] ∧ ∀ c ∈ arg.takeWhile (· ≠ 32), 48 ≤ c ∧ c ≤ 57))) = true) := by
    rintro (h | h)
    · exact hbracket h
    · rw [Bool.not_eq_true', Bool.or_eq_false_iff, decide_eq_false_iff_not, decide_eq_false_iff_not] at h
      exact hword.elim h.1 h.2
  have hne : ¬t = [] := by
    rintro rfl
    obtain ⟨c, w, hcw, -⟩ := hword.head
    rw [← harg] at hcw
    cases hcw
  rw [if_neg hne, if_neg hform]
  by_cases hret : (nums.configGetI arg).toUInt32 ≠ 0
  · rw [if_pos hret, if_pos (toUInt32_ne_zero_iff.mp hret)]
    rfl
  · rw [if_neg hret, if_neg (mt toUInt32_ne_zero_iff.mpr hret)]
    rfl

/-- So it is in every run if the option is the same in all of them. -/
theorem run_getOffset (hnumber : IsNumber t) (h : env.Agrees nums t) :
    (Utils.getOffset env t).run f () = some (getOffsetText nums s t, ()) :=
  run_getOffset_of hnumber (h.config f) h.flag

/-- **The value of a sum here is the one in `get_math`.** -/
theorem getMath_eq_getMathText (htext : text ≠ []) (hhead : (squeeze text).head? ≠ some 43)
    (hops : ∀ c ∈ squeeze text, c = 43 ∨ c ∉ operators) (hzero : 0 ∉ squeeze text)
    (h : ∀ t ∈ (squeeze text).splitOn 43, t ≠ [] → IsNumber t ∧ env.Agrees nums t) :
    Utils.getMath env text 0 = (getMathText nums s text, 0) := by
  have hvals : ∀ f, ∀ t ∈ (squeeze text).splitOn 43,
      (Utils.getOffset env t).run f () = some (getOffsetText nums s t, ()) := by
    intro f t ht
    by_cases hnil : t = []
    · rw [hnil]
      rfl
    · exact run_getOffset (h t ht hnil).1 (h t ht hnil).2
  have hplain : ¬((squeeze text).head? = some 43 ∨
      (squeeze text).any (fun c => c ≠ 43 ∧ operators.contains c) = true) := by
    rintro (h | h)
    · exact hhead h
    · obtain ⟨c, hc, hop⟩ := List.any_eq_true.mp h
      obtain ⟨hne, hop⟩ := of_decide_eq_true hop
      exact (hops c hc).resolve_left hne (List.contains_iff_mem.mp hop)
  rw [Utils.getMath_sum htext hhead hops hzero hvals]
  unfold getMathText
  rw [if_neg htext]
  dsimp only
  rw [if_neg hplain]

/-! ## The texts of lines -/

variable {u v : List u8} {n : ut64} {k : ℕ} {l : Label}

/-- A text that is one number, in `get_math`. -/
theorem getMath_one (ht : text ≠ []) (hu : squeeze text = u) (hchar : ∀ c ∈ u, c ∉ operators ∧ c ≠ 0)
    (hnumber : IsNumber u) (h : env.Agrees nums u) :
    Utils.getMath env text 0 = (getMathText nums s text, 0) := by
  have hplus : 43 ∉ u := fun hc => (hchar 43 hc).1 (by decide)
  refine getMath_eq_getMathText ht ?_ ?_ ?_ ?_ <;> rw [hu]
  · exact fun hc => hplus (List.mem_of_mem_head? hc)
  · exact fun c hc => Or.inr (hchar c hc).1
  · exact fun hc => (hchar 0 hc).2 rfl
  · intro t ht _
    rw [List.splitOn_eq_singleton hplus, List.mem_singleton] at ht
    rw [ht]
    exact ⟨hnumber, h⟩

/-- The text starts with a hexadecimal number, and has no bracket. -/
def IsHexNumber (orig : List u8) : Prop :=
  let arg := orig.dropWhile (· = 32)
  let word := arg.takeWhile (· ≠ 32)
  91 ∉ arg ∧ word.take 2 = [48, 120] ∧ (hexValue (word.drop 2)).isSome

/-- The numbers of section lines are those of listings. -/
theorem getOffset_eq_getOffsetText (hnumber : IsHexNumber t) :
    getOffset nums s t = getOffsetText nums s t := by
  obtain ⟨hbracket, hhex, hvalue⟩ := hnumber
  obtain ⟨n, hn⟩ := Option.isSome_iff_exists.mp hvalue
  have hne : ¬t = [] := by
    rintro rfl
    cases hhex
  have hform : ¬(91 ∈ t.dropWhile (· = 32) ∨ (!(decide
      (((t.dropWhile (· = 32)).takeWhile (· ≠ 32)).take 2 = [48, 120]) || decide
      ((t.dropWhile (· = 32)).takeWhile (· ≠ 32) ≠ [] ∧
        ∀ c ∈ (t.dropWhile (· = 32)).takeWhile (· ≠ 32), 48 ≤ c ∧ c ≤ 57))) = true) := by
    rintro (h | h)
    · exact hbracket h
    · rw [decide_eq_true hhex, Bool.true_or] at h
      cases h
  unfold getOffset getOffsetText
  dsimp only
  rw [if_pos ⟨hhex, hbracket⟩, hn, if_neg hne, if_neg hform, decide_eq_true hhex, if_pos rfl,
    scanBase_hexValue hn]
  rfl

/-- **A hexadecimal number of a section line**, in `get_math`. -/
theorem getMath_eq_getMath (ht : text ≠ []) (hu : squeeze text = u)
    (hchar : ∀ c ∈ u, c ∉ operators ∧ c ≠ 0) (hnumber : IsHexNumber u) (h : env.Agrees nums u) :
    Utils.getMath env text 0 = (getMath nums s text, 0) := by
  have hop : ¬u.any (operators.contains ·) = true := by
    intro hany
    obtain ⟨c, hc, hcop⟩ := List.any_eq_true.mp hany
    exact (hchar c hc).1 (List.contains_iff_mem.mp hcop)
  have hone : getMathText nums s text = getOffsetText nums s u :=
    getMathText_one ht hu fun c hc => (hchar c hc).1
  rw [getMath_one (s := s) ht hu hchar ⟨hnumber.1, .inl hnumber.2.1⟩ h, hone]
  unfold getMath
  dsimp only
  rw [if_neg ht, hu, if_neg hop, getOffset_eq_getOffsetText hnumber]

/-- A text that is two numbers, in `get_math`. -/
theorem getMath_two (ht : text ≠ []) (hu : squeeze text = u ++ 43 :: v) (hne : u ≠ [])
    (hchar : ∀ c ∈ u, c ∉ operators ∧ c ≠ 0) (hchar' : ∀ c ∈ v, c ∉ operators ∧ c ≠ 0)
    (hnumber : IsNumber u) (hnumber' : IsNumber v) (h : env.Agrees nums u) (h' : env.Agrees nums v) :
    Utils.getMath env text 0 = (getMathText nums s text, 0) := by
  have hplus : 43 ∉ u := fun hc => (hchar 43 hc).1 (by decide)
  have hplus' : 43 ∉ v := fun hc => (hchar' 43 hc).1 (by decide)
  refine getMath_eq_getMathText ht ?_ ?_ ?_ ?_ <;> rw [hu]
  · rw [List.head?_append_of_ne_nil _ hne]
    exact fun hc => hplus (List.mem_of_mem_head? hc)
  · intro c hc
    rcases List.mem_append.mp hc with hc | hc
    · exact Or.inr (hchar c hc).1
    · exact (List.mem_cons.mp hc).imp id fun hc => (hchar' c hc).1
  · intro hc
    rcases List.mem_append.mp hc with hc | hc
    · exact (hchar 0 hc).2 rfl
    · exact (hchar' 0 ((List.mem_cons.mp hc).resolve_left (by decide))).2 rfl
  · intro t ht _
    rw [List.splitOn_append_cons_self_of_not_mem hplus, List.splitOn_eq_singleton hplus'] at ht
    rcases List.mem_pair.mp ht with rfl | rfl
    · exact ⟨hnumber, h⟩
    · exact ⟨hnumber', h'⟩

theorem isNumber_hexText {rest : List u8} (hrest : 91 ∉ rest) :
    IsNumber ([48, 120] ++ hexText k n ++ rest) := by
  refine ⟨fun h => ?_, Or.inl rfl⟩
  have h : 91 ∈ [48, 120] ++ hexText k n ++ rest := h
  rcases List.mem_append.mp h with h | h
  · exact absurd (of_mem_number h) (by decide)
  · exact hrest h

theorem isNumber_length (hn : n < 2 ^ 63) : IsNumber (longText n ++ [32]) := by
  unfold IsNumber Utils.IsWordNumber
  dsimp only
  rw [dropWhile_length hn, takeWhile_length hn]
  exact ⟨bracket_not_mem_length hn, Or.inr ⟨longText_ne_nil hn, fun c hc => of_mem_longText hn hc⟩⟩

/-- The characters of a number. -/
theorem number_char {c : u8} (hc : 48 ≤ c ∧ c ≤ 57 ∨ 97 ≤ c ∧ c ≤ 122) : c ∉ operators ∧ c ≠ 0 := by
  refine ⟨not_operator_of_digit hc, ?_⟩
  rintro rfl
  exact absurd hc (by decide)

/-- **An argument.** -/
theorem getMath_argument (h : env.Agrees nums (hexWord n ++ [32])) :
    Utils.getMath env (32 :: (hexWord n ++ [32])) 0 = (nums.read 1 n, 0) := by
  have hsqueeze : squeeze (32 :: (hexWord n ++ [32])) = hexWord n ++ [32] :=
    squeeze_hexWord (Nat.le_refl 1)
  have hchar : ∀ c ∈ hexWord n ++ [32], c ∉ operators ∧ c ≠ 0 := by
    intro c hc
    rcases List.mem_append.mp hc with hc | hc
    · exact number_char (of_mem_hexWord hc)
    · rw [List.mem_singleton.mp hc]
      decide
  rw [← getMathText_argument (s := openFile [] 1 1)]
  exact getMath_one (List.cons_ne_nil _ _) hsqueeze hchar (isNumber_hexText (by decide)) h

/-- **A length.** -/
theorem getMath_length (hn : n < 2 ^ 63) (h : env.Agrees nums (longText n ++ [32])) :
    Utils.getMath env (longText n ++ [32]) 0 = (nums.named (longText n ++ [32]) n, 0) := by
  have hchar : ∀ c ∈ longText n ++ [32], c ∉ operators ∧ c ≠ 0 := by
    intro c hc
    rcases List.mem_append.mp hc with hc | hc
    · exact number_char (Or.inl (of_mem_longText hn hc))
    · rw [List.mem_singleton.mp hc]
      decide
  have hne : longText n ++ [32] ≠ [] := List.append_ne_nil_of_right_ne_nil _ (List.cons_ne_nil _ _)
  rw [← getMathText_length (s := openFile [] 1 1) hn]
  exact getMath_one hne (squeeze_length hn) hchar (isNumber_length hn) h

/-- **An address with its label.** -/
theorem getMath_address (hl : l.Plain) (h : env.Agrees nums (hexWord n ++ 59 :: l.name))
    (hdelta : ∀ d ∈ l.delta, env.Agrees nums (deltaText d)) :
    Utils.getMath env (addressText n l) 0 = (nums.address n l, 0) := by
  have hname : ∀ c ∈ hexWord n ++ 59 :: l.name, c ∉ operators ∧ c ≠ 0 := by
    intro c hc
    refine ⟨hl.not_operator hc, ?_⟩
    rintro rfl
    rcases List.mem_append.mp hc with hc | hc
    · exact absurd (of_mem_hexWord hc) (by decide)
    · exact absurd (hl.name ((List.mem_cons.mp hc).resolve_left (by decide))).2.2 (by decide)
  have hnumber : IsNumber (hexWord n ++ 59 :: l.name) :=
    isNumber_hexText fun hc => (hl.not_blank hc).2 rfl
  have hsqueeze : squeeze (addressText n l) = hexWord n ++ 59 :: l.text := squeeze_addressText hl
  have hne : addressText n l ≠ [] := List.cons_ne_nil _ _
  rw [← getMathText_address (s := openFile [] 1 1) hl]
  unfold Label.text at hsqueeze
  cases hd : l.delta with
  | none =>
    rw [hd, List.append_nil] at hsqueeze
    exact getMath_one hne hsqueeze hname hnumber h
  | some d =>
    have hassoc : hexWord n ++ 59 :: (l.name ++ 43 :: deltaText d) =
        (hexWord n ++ 59 :: l.name) ++ 43 :: deltaText d := by simp
    have hnumber' : IsNumber (deltaText d) := by
      have h : IsNumber (deltaText d ++ []) := isNumber_hexText List.not_mem_nil
      rwa [List.append_nil] at h
    rw [hd] at hsqueeze
    exact getMath_two hne (hsqueeze.trans hassoc) (List.cons_ne_nil _ _) hname
      (fun c hc => number_char (of_mem_deltaText hc)) hnumber hnumber' h (hdelta d hd)

end Radare
