import Mathlib.Data.List.Nodup
import Mathlib.Data.List.TakeWhile
import Radare.Dbg.Parser
/-!
# What a stop condition means

A condition joins terms by `and` and `or`, and a term is a token or a
condition in brackets. Read from the left, each operator joins what is in
front of it to the next term; `eval_cond` ends where what it has decides the
operator behind it, and takes this for the value of all the rest. The two
agree if and only if no condition has both operators
(`evalCond_leftToRight_iff`).
-/

namespace Radare

variable {env : ParserEnv} {truth truth' : CondTok → Bool}

/-! ## Conditions and their texts -/

mutual

/-- A token, or a condition in brackets. -/
inductive CondTerm where
  | atom (t : CondTok)
  | group (g : CondGroup)

/-- Terms and the operators between them. -/
inductive CondGroup where
  | one (t : CondTerm)
  | op (g : CondGroup) (o : LogOp) (t : CondTerm)

end

mutual

/-- What a text starts with, and what is behind it. -/
def CondTerm.Spells (env : ParserEnv) : CondTerm → List u8 → List u8 → Prop
  | .atom t, c, rest => getTok env c = some (t, rest)
  | .group g, c, rest =>
    ∃ c' rest', c = 40 :: c' ∧ g.Spells env c' rest' ∧ skipChars rest' = 41 :: rest

def CondGroup.Spells (env : ParserEnv) : CondGroup → List u8 → List u8 → Prop
  | .one t, c, rest => t.Spells env (skipChars c) rest
  | .op g o t, c, rest =>
    ∃ c' c'', g.Spells env c c' ∧ skipChars c' = o.text ++ c'' ∧ t.Spells env (skipChars c'') rest

end

/-- `and` and `or`. -/
def LogOp.apply : LogOp → Bool → Bool → Bool
  | .and, a, b => a && b
  | .or, a, b => a || b

mutual

/-- The value of a condition, read from the left. -/
def CondTerm.leftToRight (truth : CondTok → Bool) : CondTerm → Bool
  | .atom t => truth t
  | .group g => g.leftToRight truth

def CondGroup.leftToRight (truth : CondTok → Bool) : CondGroup → Bool
  | .one t => t.leftToRight truth
  | .op g o t => o.apply (g.leftToRight truth) (t.leftToRight truth)

end

/-- The operators of a condition, but none in brackets. -/
def CondGroup.ops : CondGroup → List LogOp
  | .one _ => []
  | .op g o _ => o :: g.ops

mutual

/-- No condition within has both operators. -/
def CondTerm.Uniform : CondTerm → Prop
  | .atom _ => True
  | .group g => g.Uniform

def CondGroup.Uniform : CondGroup → Prop
  | .one t => t.Uniform
  | .op g o t => (∀ o' ∈ g.ops, o' = o) ∧ g.Uniform ∧ t.Uniform

end

mutual

/-- The tokens of a condition. -/
def CondTerm.atoms : CondTerm → List CondTok
  | .atom t => [t]
  | .group g => g.atoms

def CondGroup.atoms : CondGroup → List CondTok
  | .one t => t.atoms
  | .op g _ t => g.atoms ++ t.atoms

end

mutual

/-- What the parser makes of it. -/
def CondTerm.tok : CondTerm → Tok
  | .atom t => .atom t none
  | .group g => .group g.toks none

def CondGroup.toks : CondGroup → List Tok
  | .one t => [t.tok]
  | .op g o t => t.tok :: setLogOp o g.toks

end

variable {t : CondTerm} {g : CondGroup} {o : LogOp} {c rest : List u8} {list : List Tok}

/-! ## Texts -/

theorem length_skipChars_le (c : List u8) : (skipChars c).length ≤ c.length :=
  (List.dropWhile_suffix _).length_le

/-- A text that is not blank in front. -/
theorem skipChars_cons {ch : u8} (hch : ch ≠ 32 ∧ ch ≠ 9) : skipChars (ch :: c) = ch :: c := by
  refine List.dropWhile_cons_of_neg ?_
  simp [hch]

theorem length_readOp {op : CmpOp} (h : readOp c = some (op, rest)) : rest.length ≤ c.length := by
  unfold readOp at h
  split at h
  · split_ifs at h <;> cases h
    · exact (List.drop_suffix 1 _).length_le.trans (Nat.le_succ _)
    · exact Nat.le_succ _
  · cases h
    exact Nat.le_succ _
  · split_ifs at h <;> cases h
    · exact Nat.le_succ _
    · exact (List.drop_suffix 1 _).length_le.trans (Nat.le_succ _)
    · exact (List.drop_suffix 1 _).length_le.trans (Nat.le_succ _)
  · cases h

theorem length_getTokOp {type : ℤ} {op : CmpOp} (h : getTokOp type c = some (op, rest)) :
    rest.length ≤ c.length :=
  length_readOp (Option.filter_eq_some_iff.mp h).1

theorem length_dropWhile_lt {p : u8 → Bool} (h : c.takeWhile p ≠ []) :
    (c.dropWhile p).length < c.length := by
  have hsplit := congrArg List.length (List.takeWhile_append_dropWhile (p := p) (l := c))
  have hpos := List.length_pos_iff.mpr h
  rw [List.length_append] at hsplit
  omega

/-- A value takes some of the text. -/
theorem length_getTokValue {type : TokType} {val : TokVal} {len : ℕ}
    (h : getTokValue env type c = some (val, len, rest)) : rest.length < c.length := by
  unfold getTokValue at h
  dsimp only at h
  split_ifs at h with hhex hlarge htype hdigits <;> cases h
  all_goals
    first
    | exact length_dropWhile_lt fun hnil => hdigits (.inl hnil)
    | have hlt : ((c.drop 2).dropWhile isHexa).length < (c.drop 2).length :=
        length_dropWhile_lt fun hnil => hlarge (.inl (congrArg List.length hnil))
      have hle := (List.drop_suffix 2 c).length_le
      omega

theorem getTokReg_spec {pos : ℕ} {a : CondTok} (h : getTokReg env pos c = some (a, rest))
    (hc : c ≠ []) : rest.length < c.length ∧ a.pos = pos := by
  obtain ⟨⟨name, off⟩, -, h⟩ := Option.bind_eq_some_iff.mp h
  obtain ⟨⟨op, r₁⟩, hop, h⟩ := Option.bind_eq_some_iff.mp h
  obtain ⟨⟨val, len, r₂⟩, hval, h⟩ := Option.bind_eq_some_iff.mp h
  cases h
  have hop := length_getTokOp hop
  have hval := length_getTokValue hval
  have h₁ := length_skipChars_le r₁
  have h₂ := length_skipChars_le (c.drop (name.length + 1))
  have hpos := List.length_pos_iff.mpr hc
  rw [List.length_drop] at h₂
  exact ⟨by omega, rfl⟩

theorem getTokMem_spec {pos : ℕ} {a : CondTok} (h : getTokMem env pos c = some (a, rest))
    (hc : c ≠ []) : rest.length < c.length ∧ a.pos = pos := by
  unfold getTokMem at h
  dsimp only at h
  split_ifs at h
  obtain ⟨⟨op, r₁⟩, hop, h⟩ := Option.bind_eq_some_iff.mp h
  obtain ⟨⟨val, len, r₂⟩, hval, h⟩ := Option.bind_eq_some_iff.mp h
  cases h
  have hop := length_getTokOp hop
  have hval := length_getTokValue hval
  have h₁ := length_skipChars_le r₁
  have h₂ := length_skipChars_le
    ((skipChars (((skipChars (c.drop 1)).drop 2).dropWhile isHexa)).drop 1)
  have h₃ := length_skipChars_le (((skipChars (c.drop 1)).drop 2).dropWhile isHexa)
  have h₄ := (List.dropWhile_suffix isHexa (l := (skipChars (c.drop 1)).drop 2)).length_le
  have h₅ := length_skipChars_le (c.drop 1)
  have hpos := List.length_pos_iff.mpr hc
  simp only [List.length_drop] at h₂ h₄ h₅
  dsimp only at hval ⊢
  exact ⟨by omega, rfl⟩

/-- **A token** starts with a `%` or a `[`, and takes some of the text. -/
theorem getTok_spec {a : CondTok} (h : getTok env c = some (a, rest)) :
    ((skipChars c).head? = some 37 ∨ (skipChars c).head? = some 91) ∧
      rest.length < (skipChars c).length ∧ a.pos = (skipChars c).length := by
  unfold getTok at h
  dsimp only at h
  have hne : ∀ {ch : u8}, (skipChars c).head? = some ch → skipChars c ≠ [] := by
    intro ch hch hnil
    rw [hnil] at hch
    cases hch
  split_ifs at h with hreg hmem
  · obtain ⟨⟨t, r⟩, ht, h⟩ := Option.bind_eq_some_iff.mp h
    obtain ⟨hlen, hpos⟩ := getTokReg_spec ht (hne hreg)
    dsimp only at h
    split_ifs at h with hbracket
    · -- replaced by the token behind it
      have hr : r ≠ [] := fun hnil => by rw [hnil] at hbracket; cases hbracket
      obtain ⟨hlen', hpos'⟩ := getTokMem_spec h hr
      exact ⟨Or.inl hreg, hlen'.trans hlen, hpos'⟩
    · cases h
      exact ⟨Or.inl hreg, hlen, hpos⟩
  · obtain ⟨hlen, hpos⟩ := getTokMem_spec h (hne hmem)
    exact ⟨Or.inr hmem, hlen, hpos⟩

/-! ## Parsing -/

/-- An operator, and what stands in front of it. -/
theorem getLogOp_op (o : LogOp) (c : List u8) (list : List Tok) :
    getLogOp (o.text ++ c) list true = some (c, setLogOp o list) := by
  cases o
  · rfl
  · rfl

/-- Text that starts with none. -/
theorem getLogOp_of_head {f : Bool} (h : c.head? ≠ some 97 ∧ c.head? ≠ some 111) :
    getLogOp c list f = some (c, list) := by
  cases c with
  | nil => rfl
  | cons ch c =>
    have hand : ¬LogOp.and.text.isPrefixOf (ch :: c) := by
      intro hpre
      have := List.isPrefixOf_iff_prefix.mp hpre
      obtain ⟨rfl, -⟩ := List.cons_prefix_cons.mp this
      exact h.1 rfl
    have hor : ¬LogOp.or.text.isPrefixOf (ch :: c) := by
      intro hpre
      have := List.isPrefixOf_iff_prefix.mp hpre
      obtain ⟨rfl, -⟩ := List.cons_prefix_cons.mp this
      exact h.2 rfl
    unfold getLogOp
    rw [if_neg hand, if_neg hor]

theorem skipChars_idem (c : List u8) : skipChars (skipChars c) = skipChars c := by
  unfold skipChars
  exact List.dropWhile_eq_self_iff.mpr fun hl => List.dropWhile_get_zero_not _ _ hl

/-- The characters a term starts with. -/
def TermHead (c : List u8) : Prop := c.head? = some 37 ∨ c.head? = some 91 ∨ c.head? = some 40

theorem TermHead.ne_nil (h : TermHead c) : c ≠ [] := by
  rintro rfl
  rcases h with h | h | h <;> cases h

theorem TermHead.no_op (h : TermHead c) : c.head? ≠ some 97 ∧ c.head? ≠ some 111 := by
  rcases h with h | h | h <;> rw [h] <;> decide

theorem TermHead.no_close (h : TermHead c) : c.head? ≠ some 41 := by
  rcases h with h | h | h <;> rw [h] <;> decide

theorem CondTerm.Spells.head (h : t.Spells env (skipChars c) rest) : TermHead (skipChars c) := by
  cases t with
  | atom a =>
    obtain ⟨h, -, -⟩ := getTok_spec h
    rw [skipChars_idem] at h
    exact h.imp_right Or.inl
  | group g =>
    obtain ⟨c', rest', hc, -, -⟩ := h
    exact Or.inr (Or.inr (by rw [hc]; rfl))

/-- A turn of the loop that reads a term. -/
theorem condLoop_item {n : ℕ} {top f : Bool} {c' : List u8} {list' : List Tok} {tok : Tok}
    (hc : c ≠ []) (hop : getLogOp (skipChars c) list f = some (c', list'))
    (hhead : TermHead (skipChars c'))
    (hitem : condItem env (condLoop env n false false []) (skipChars c') = some (tok, rest)) :
    condLoop env (n + 1) top f list c = condLoop env n top true (tok :: list') rest := by
  rw [condLoop, if_neg hc, hop]
  simp only [Option.bind_eq_bind, Option.bind_some, if_neg hhead.no_close, hitem]

/-- One that ends a group in brackets. -/
theorem condLoop_close {n : ℕ} {f : Bool} (hc : skipChars c = 41 :: rest) :
    condLoop env (n + 1) false f list c = some (list, 41 :: rest) := by
  have hne : c ≠ [] := by
    rintro rfl
    cases hc
  have hop : getLogOp (41 :: rest) list f = some (41 :: rest, list) :=
    getLogOp_of_head ⟨by rw [List.head?_cons]; decide, by rw [List.head?_cons]; decide⟩
  have hskip : skipChars (41 :: rest) = 41 :: rest := skipChars_cons (by decide)
  rw [condLoop, if_neg hne, hc, hop]
  simp only [Option.bind_eq_bind, Option.bind_some, hskip, List.head?_cons, if_true,
    Bool.false_eq_true, if_false]

mutual

theorem CondTerm.Spells.length (t : CondTerm) {c rest : List u8}
    (h : t.Spells env (skipChars c) rest) : rest.length < (skipChars c).length := by
  cases t with
  | atom a =>
    have hlen := (getTok_spec h).2.1
    rwa [skipChars_idem] at hlen
  | group g =>
    obtain ⟨c', rest', hc, hg, hclose⟩ := h
    have hlen := CondGroup.Spells.length g hg
    have hskip := length_skipChars_le rest'
    rw [hclose] at hskip
    rw [hc]
    simp only [List.length_cons] at hskip ⊢
    omega

theorem CondGroup.Spells.length (g : CondGroup) {c rest : List u8}
    (h : g.Spells env c rest) : rest.length < c.length := by
  cases g with
  | one t => exact (CondTerm.Spells.length t h).trans_le (length_skipChars_le c)
  | op g o t =>
    obtain ⟨c', c'', hg, hop, ht⟩ := h
    have hlen := CondGroup.Spells.length g hg
    have hlen' := CondTerm.Spells.length t ht
    have h₁ := length_skipChars_le c'
    have h₂ := length_skipChars_le c''
    rw [hop, List.length_append] at h₁
    omega

end

mutual

/-- **A term is read as it is spelled.** -/
theorem CondTerm.Spells.parse (t : CondTerm) {c rest : List u8} {n : ℕ}
    (h : t.Spells env (skipChars c) rest) (hn : (skipChars c).length ≤ n) :
    condItem env (condLoop env n false false []) (skipChars c) = some (t.tok, rest) := by
  cases t with
  | atom a =>
    obtain ⟨hhead, -, -⟩ := getTok_spec h
    rw [skipChars_idem] at hhead
    have hopen : (skipChars c).head? ≠ some 40 := by
      rcases hhead with hhead | hhead <;> rw [hhead] <;> decide
    unfold condItem
    rw [if_neg hopen, h]
    rfl
  | group g =>
    obtain ⟨c', rest', hc, hg, hclose⟩ := h
    rw [hc] at hn ⊢
    obtain ⟨m, hm, hloop⟩ := CondGroup.Spells.parse g false hg hn
    obtain ⟨k, rfl⟩ : ∃ k, m = k + 1 := Nat.exists_eq_succ_of_ne_zero (by omega)
    rw [condLoop_close hclose] at hloop
    unfold condItem
    rw [List.head?_cons, if_pos rfl, List.drop_one, List.tail_cons, hloop]
    rfl

/-- **And a condition**, with turns of the loop left for what is behind
it. -/
theorem CondGroup.Spells.parse (g : CondGroup) {c rest : List u8} {n : ℕ} (top : Bool)
    (h : g.Spells env c rest) (hn : c.length < n) :
    ∃ m, rest.length < m ∧
      condLoop env n top false [] c = condLoop env m top true g.toks rest := by
  cases g with
  | one t =>
    obtain ⟨m, rfl⟩ : ∃ m, n = m + 1 := Nat.exists_eq_succ_of_ne_zero (by omega)
    have hskip := length_skipChars_le c
    have hlen := CondTerm.Spells.length t h
    have hhead := CondTerm.Spells.head h
    have hne : c ≠ [] := by
      rintro rfl
      exact hhead.ne_nil rfl
    have hitem := CondTerm.Spells.parse t (n := m) h (by omega)
    rw [← skipChars_idem c] at hhead hitem
    refine ⟨m, by omega, condLoop_item hne ?_ hhead hitem⟩
    exact getLogOp_of_head (skipChars_idem c ▸ hhead).no_op
  | op g o t =>
    obtain ⟨c', c'', hg, hop, ht⟩ := h
    obtain ⟨m, hm, hloop⟩ := CondGroup.Spells.parse g top hg hn
    obtain ⟨k, rfl⟩ : ∃ k, m = k + 1 := Nat.exists_eq_succ_of_ne_zero (by omega)
    have h₁ := length_skipChars_le c'
    have h₂ := length_skipChars_le c''
    rw [hop, List.length_append] at h₁
    have hlen := CondTerm.Spells.length t ht
    have htext : 0 < o.text.length := by cases o <;> decide
    have hne : c' ≠ [] := by
      rintro rfl
      simp only [List.length_nil] at h₁
      omega
    refine ⟨k, by omega, hloop.trans ?_⟩
    refine condLoop_item hne ?_ ht.head (CondTerm.Spells.parse t ht (by omega))
    rw [hop]
    exact getLogOp_op o c'' g.toks

end

/-- The whole of a text. -/
theorem parseCond_of_spells (h : g.Spells env c []) : parseCond env c = some g.toks := by
  obtain ⟨m, hm, hloop⟩ := CondGroup.Spells.parse g true h (Nat.lt_succ_self c.length)
  obtain ⟨k, rfl⟩ : ∃ k, m = k + 1 := Nat.exists_eq_succ_of_ne_zero (by omega)
  unfold parseCond
  rw [hloop, condLoop, if_pos rfl]
  rfl

/-! ## Evaluation -/

variable {a : LogOp} {b : Bool}

theorem decides_apply (o : LogOp) (v e : Bool) : (if o.decides v then v else e) = o.apply v e := by
  cases o <;> cases v <;> rfl

/-- What `eval_cond` makes of a term behind others. -/
theorem evalGroup_cons (truth : CondTok → Bool) (t : CondTerm) (list : List Tok) :
    evalGroup truth (t.tok :: list) =
      if (evalGroup truth list).1.any (·.decides (evalGroup truth list).2) then evalGroup truth list
      else ((evalGroup truth list).1, evalTok truth t.tok) := by
  cases t <;> rfl

theorem evalGroup_setLogOp_cons (truth : CondTok → Bool) (t : CondTerm) (list : List Tok)
    (o : LogOp) :
    evalGroup truth (setLogOp o (t.tok :: list)) =
      if (evalGroup truth list).1.any (·.decides (evalGroup truth list).2) then evalGroup truth list
      else (some o, evalTok truth t.tok) := by
  cases t <;> rfl

/-- **A condition with one operator** has it where the next term is met,
with the value so far. -/
theorem evalGroup_uniform (truth : CondTok → Bool) (g : CondGroup) (h : ∀ o ∈ g.ops, o = a) :
    evalGroup truth (setLogOp a g.toks) = (some a, evalCond truth g.toks) := by
  cases g with
  | one t => exact evalGroup_setLogOp_cons truth t [] a
  | op g o t =>
    have ho : a = o := (h o List.mem_cons_self).symm
    subst ho
    have ih := evalGroup_uniform truth g fun o' ho' => h o' (List.mem_cons_of_mem _ ho')
    unfold evalCond
    rw [CondGroup.toks, evalGroup_setLogOp_cons, evalGroup_cons, ih]
    dsimp only [Option.any_some]
    split_ifs <;> rfl

/-- So its value is that of its parts. -/
theorem evalCond_op (truth : CondTok → Bool) (t : CondTerm) (h : ∀ o ∈ g.ops, o = a) :
    evalCond truth (CondGroup.op g a t).toks =
      a.apply (evalCond truth g.toks) (evalTok truth t.tok) := by
  change (evalGroup truth (CondGroup.op g a t).toks).2 = _
  rw [← decides_apply, CondGroup.toks, evalGroup_cons, evalGroup_uniform truth g h]
  dsimp only [Option.any_some]
  split_ifs <;> rfl

mutual

theorem CondTerm.Uniform.eval (t : CondTerm) (h : t.Uniform) (truth : CondTok → Bool) :
    evalTok truth t.tok = t.leftToRight truth := by
  cases t with
  | atom a => rfl
  | group g => exact CondGroup.Uniform.eval g h truth

/-- **Without both operators, the value is that from the left.** -/
theorem CondGroup.Uniform.eval (g : CondGroup) (h : g.Uniform) (truth : CondTok → Bool) :
    evalCond truth g.toks = g.leftToRight truth := by
  cases g with
  | one t => exact CondTerm.Uniform.eval t h truth
  | op g o t =>
    obtain ⟨hops, hg, ht⟩ := h
    rw [evalCond_op truth t hops, CondGroup.Uniform.eval g hg truth,
      CondTerm.Uniform.eval t ht truth]
    rfl

end

/-! ## Truths that tell them apart -/

mutual

/-- The value is read off the tokens within. -/
theorem CondTerm.eval_congr (t : CondTerm) (h : ∀ x ∈ t.atoms, truth x = truth' x) :
    evalTok truth t.tok = evalTok truth' t.tok ∧
      t.leftToRight truth = t.leftToRight truth' := by
  cases t with
  | atom a => exact ⟨h a List.mem_cons_self, h a List.mem_cons_self⟩
  | group g =>
    obtain ⟨heval, -, hltr⟩ := CondGroup.eval_congr g h
    exact ⟨congrArg Prod.snd heval, hltr⟩

theorem CondGroup.eval_congr (g : CondGroup) (h : ∀ x ∈ g.atoms, truth x = truth' x) :
    evalGroup truth g.toks = evalGroup truth' g.toks ∧
      (∀ o, evalGroup truth (setLogOp o g.toks) = evalGroup truth' (setLogOp o g.toks)) ∧
      g.leftToRight truth = g.leftToRight truth' := by
  cases g with
  | one t =>
    obtain ⟨heval, hltr⟩ := CondTerm.eval_congr t h
    refine ⟨?_, fun o => ?_, hltr⟩
    · rw [CondGroup.toks, evalGroup_cons, evalGroup_cons, heval]
      rfl
    · rw [CondGroup.toks, evalGroup_setLogOp_cons, evalGroup_setLogOp_cons, heval]
      rfl
  | op g o t =>
    obtain ⟨-, hg, hgltr⟩ := CondGroup.eval_congr g fun x hx => h x (List.mem_append_left _ hx)
    obtain ⟨ht, htltr⟩ := CondTerm.eval_congr t fun x hx => h x (List.mem_append_right _ hx)
    refine ⟨?_, fun o' => ?_, ?_⟩
    · rw [CondGroup.toks, evalGroup_cons, evalGroup_cons, hg o, ht]
    · rw [CondGroup.toks, evalGroup_setLogOp_cons, evalGroup_setLogOp_cons, hg o, ht]
    · rw [CondGroup.leftToRight, CondGroup.leftToRight, hgltr, htltr]

end

mutual

/-- Tokens of one value give their value. -/
theorem CondTerm.eval_const (t : CondTerm) (h : ∀ x ∈ t.atoms, truth x = b) :
    evalTok truth t.tok = b ∧ t.leftToRight truth = b := by
  cases t with
  | atom a => exact ⟨h a List.mem_cons_self, h a List.mem_cons_self⟩
  | group g =>
    obtain ⟨heval, -, hltr⟩ := CondGroup.eval_const g h
    exact ⟨heval, hltr⟩

theorem CondGroup.eval_const (g : CondGroup) (h : ∀ x ∈ g.atoms, truth x = b) :
    evalCond truth g.toks = b ∧ (∀ o, (evalGroup truth (setLogOp o g.toks)).2 = b) ∧
      g.leftToRight truth = b := by
  cases g with
  | one t =>
    obtain ⟨heval, hltr⟩ := CondTerm.eval_const t h
    refine ⟨?_, fun o => ?_, hltr⟩
    · exact (congrArg Prod.snd (evalGroup_cons truth t [])).trans heval
    · exact (congrArg Prod.snd (evalGroup_setLogOp_cons truth t [] o)).trans heval
  | op g o t =>
    obtain ⟨-, hg, hgltr⟩ := CondGroup.eval_const g fun x hx => h x (List.mem_append_left _ hx)
    obtain ⟨ht, htltr⟩ := CondTerm.eval_const t fun x hx => h x (List.mem_append_right _ hx)
    refine ⟨?_, fun o' => ?_, ?_⟩
    · unfold evalCond
      rw [CondGroup.toks, evalGroup_cons]
      split_ifs
      · exact hg o
      · exact ht
    · rw [CondGroup.toks, evalGroup_setLogOp_cons]
      split_ifs
      · exact hg o
      · exact ht
    · rw [CondGroup.leftToRight, hgltr, htltr]
      cases o <;> cases b <;> rfl

end

/-- The first term. -/
def CondGroup.first : CondGroup → CondTerm
  | .one t => t
  | .op g _ _ => g.first

/-- The first operator, if there is one. -/
def CondGroup.firstOp : CondGroup → Option LogOp
  | .one _ => none
  | .op g o _ => some (g.firstOp.getD o)

/-- The tokens behind the first term. -/
def CondGroup.later : CondGroup → List CondTok
  | .one _ => []
  | .op g _ t => g.later ++ t.atoms

theorem CondGroup.atoms_eq (g : CondGroup) : g.atoms = g.first.atoms ++ g.later := by
  cases g with
  | one t => exact (List.append_nil _).symm
  | op g o t =>
    rw [CondGroup.atoms, CondGroup.atoms_eq g, List.append_assoc]
    rfl

/-- **The first term decides the first operator, and the others are
against it**: `eval_cond` ends there, and from the left the value turns at
the first operator of the other kind. -/
theorem CondGroup.eval_first (g : CondGroup) (hfirst : ∀ x ∈ g.first.atoms, truth x = b)
    (hlater : ∀ x ∈ g.later, truth x = !b) (ha : g.firstOp = some a) (hb : a.decides b) :
    (∀ o, evalGroup truth (setLogOp o g.toks) = (some a, b)) ∧ evalCond truth g.toks = b ∧
      ((∀ o ∈ g.ops, o = a) → g.leftToRight truth = b) ∧
      ((¬∀ o ∈ g.ops, o = a) → g.leftToRight truth = !b) := by
  cases g with
  | one t => cases ha
  | op g o t =>
    have ht := CondTerm.eval_const t fun x hx => hlater x (List.mem_append_right _ hx)
    -- the value in front of the last operator decides the first one
    have hprev : evalGroup truth (setLogOp o g.toks) = (some a, b) ∧
        ((∀ o ∈ g.ops, o = a) → g.leftToRight truth = b) ∧
        ((¬∀ o ∈ g.ops, o = a) → g.leftToRight truth = !b) := by
      cases hop : g.firstOp with
      | none =>
        cases g with
        | one t₁ =>
          have ho : o = a := Option.some.inj ha
          obtain ⟨heval, hltr⟩ := CondTerm.eval_const t₁ hfirst
          refine ⟨?_, fun _ => hltr, fun hops => ?_⟩
          swap
          · exact absurd (fun o ho => absurd ho List.not_mem_nil) hops
          rw [CondGroup.toks, evalGroup_setLogOp_cons, heval, ho]
          rfl
        | op g₁ o₁ t₁ => cases hop
      | some a' =>
        have ha' : g.firstOp = some a := by
          rw [CondGroup.firstOp, hop] at ha
          rw [hop, ← ha]
          rfl
        have ih := CondGroup.eval_first g hfirst
          (fun x hx => hlater x (List.mem_append_left _ hx)) ha' hb
        exact ⟨ih.1 o, ih.2.2⟩
    obtain ⟨hgroup, hall, hmixed⟩ := hprev
    have hany : (some a).any (·.decides b) = true := hb
    refine ⟨fun o' => ?_, ?_, fun hops => ?_, fun hops => ?_⟩
    · rw [CondGroup.toks, evalGroup_setLogOp_cons, hgroup, if_pos hany]
    · unfold evalCond
      rw [CondGroup.toks, evalGroup_cons, hgroup, if_pos hany]
    · have ho := hops o List.mem_cons_self
      rw [CondGroup.leftToRight, hall fun o' ho' => hops o' (List.mem_cons_of_mem _ ho'), ho,
        ← decides_apply, if_pos hb]
    · rw [CondGroup.leftToRight, ht.2]
      by_cases hg : ∀ o ∈ g.ops, o = a
      · -- the operator of the other kind
        have ho : o ≠ a := fun ho => hops fun o' ho' =>
          (List.mem_cons.mp ho').elim (fun h => h.trans ho) (hg o')
        rw [hall hg]
        cases o <;> cases a <;> cases b <;> 
          first | rfl | exact absurd rfl ho | exact absurd hb (by decide)
      · rw [hmixed hg]
        cases o <;> cases b <;> rfl

/-- A value that leaves the other side of the operator as it is. -/
def LogOp.neutral : LogOp → Bool
  | .and => true
  | .or => false

theorem apply_neutral (o : LogOp) (b : Bool) :
    o.apply b o.neutral = b ∧ o.apply o.neutral b = b := by
  cases o <;> cases b <;> exact ⟨rfl, rfl⟩

/-- One truth for some tokens, and another for the others. -/
def splitTruth (l : List CondTok) (truth truth' : CondTok → Bool) (x : CondTok) : Bool :=
  if x ∈ l then truth x else truth' x

theorem splitTruth_of_mem {l : List CondTok} {x : CondTok} (hx : x ∈ l) :
    splitTruth l truth truth' x = truth x := if_pos hx

theorem splitTruth_of_disjoint {l l' : List CondTok} (hd : List.Disjoint l l') {x : CondTok}
    (hx : x ∈ l') : splitTruth l truth truth' x = truth' x := if_neg fun hl => hd hl hx

theorem CondGroup.firstOp_eq_none (g : CondGroup) (h : g.firstOp = none) : g.ops = [] := by
  cases g with
  | one t => rfl
  | op g o t => cases h

/-- A condition with both operators. -/
theorem CondGroup.exists_ne_of_mixed (hn : g.atoms.Nodup) (hops : ¬∃ a, ∀ o ∈ g.ops, o = a) :
    ∃ truth, evalCond truth g.toks ≠ g.leftToRight truth := by
  obtain ⟨a, ha⟩ : ∃ a, g.firstOp = some a := Option.ne_none_iff_exists'.mp fun hnone =>
    hops ⟨.or, fun o ho => by rw [g.firstOp_eq_none hnone] at ho; exact absurd ho List.not_mem_nil⟩
  rw [g.atoms_eq] at hn
  have hb : a.decides (!a.neutral) := by cases a <;> rfl
  have hfirst : ∀ x ∈ g.first.atoms,
      splitTruth g.first.atoms (fun _ => !a.neutral) (fun _ => !!a.neutral) x = !a.neutral :=
    fun x hx => splitTruth_of_mem hx
  have hlater : ∀ x ∈ g.later,
      splitTruth g.first.atoms (fun _ => !a.neutral) (fun _ => !!a.neutral) x = !!a.neutral :=
    fun x hx => splitTruth_of_disjoint (List.disjoint_of_nodup_append hn) hx
  obtain ⟨-, heval, -, hltr⟩ := g.eval_first hfirst hlater ha hb
  refine ⟨splitTruth g.first.atoms (fun _ => !a.neutral) fun _ => !!a.neutral, fun heq => ?_⟩
  rw [heval, hltr fun hall => hops ⟨a, hall⟩] at heq
  exact Bool.self_ne_not _ heq

mutual

theorem CondTerm.exists_ne (t : CondTerm) (hn : t.atoms.Nodup) (hu : ¬t.Uniform) :
    ∃ truth, evalTok truth t.tok ≠ t.leftToRight truth := by
  cases t with
  | atom a => exact absurd trivial hu
  | group g => exact CondGroup.exists_ne g hn hu

/-- **Where a condition within has both operators, some truth tells the two
values apart.** -/
theorem CondGroup.exists_ne (g : CondGroup) (hn : g.atoms.Nodup) (hu : ¬g.Uniform) :
    ∃ truth, evalCond truth g.toks ≠ g.leftToRight truth := by
  by_cases hops : ∃ a, ∀ o ∈ g.ops, o = a
  · cases g with
    | one t => exact CondTerm.exists_ne t hn hu
    | op g o t =>
      obtain ⟨a, ha⟩ := hops
      have hall : ∀ o' ∈ g.ops, o' = o := fun o' ho' =>
        (ha o' (List.mem_cons_of_mem _ ho')).trans (ha o List.mem_cons_self).symm
      have hd := List.disjoint_of_nodup_append hn
      have hng := hn.of_append_left
      have hnt := hn.of_append_right
      by_cases hg : g.Uniform
      · -- the term behind the last operator, the others neutral
        obtain ⟨truth, hne⟩ := CondTerm.exists_ne t hnt fun ht => hu ⟨hall, hg, ht⟩
        have hin : ∀ x ∈ t.atoms, splitTruth t.atoms truth (fun _ => o.neutral) x = truth x :=
          fun x hx => splitTruth_of_mem hx
        have hout : ∀ x ∈ g.atoms, splitTruth t.atoms truth (fun _ => o.neutral) x = o.neutral :=
          fun x hx => splitTruth_of_disjoint hd.symm hx
        refine ⟨splitTruth t.atoms truth fun _ => o.neutral, ?_⟩
        obtain ⟨ht, htl⟩ := t.eval_congr hin
        obtain ⟨hg, -, hgl⟩ := g.eval_const hout
        rw [evalCond_op _ t hall, CondGroup.leftToRight, ht, htl, hg, hgl, (apply_neutral o _).2,
          (apply_neutral o _).2]
        exact hne
      · obtain ⟨truth, hne⟩ := CondGroup.exists_ne g hng hg
        have hin : ∀ x ∈ g.atoms, splitTruth g.atoms truth (fun _ => o.neutral) x = truth x :=
          fun x hx => splitTruth_of_mem hx
        have hout : ∀ x ∈ t.atoms, splitTruth g.atoms truth (fun _ => o.neutral) x = o.neutral :=
          fun x hx => splitTruth_of_disjoint hd hx
        refine ⟨splitTruth g.atoms truth fun _ => o.neutral, ?_⟩
        obtain ⟨hg, -, hgl⟩ := g.eval_congr hin
        obtain ⟨ht, htl⟩ := t.eval_const hout
        have hg' : evalCond _ g.toks = evalCond truth g.toks := congrArg Prod.snd hg
        rw [evalCond_op _ t hall, CondGroup.leftToRight, ht, htl, hg', hgl, (apply_neutral o _).1,
          (apply_neutral o _).1]
        exact hne
  · exact CondGroup.exists_ne_of_mixed hn hops

end

/-! ## The tokens of a text -/

mutual

/-- They are where they stand, and none is there twice. -/
theorem CondTerm.Spells.atoms (t : CondTerm) {c rest : List u8}
    (h : t.Spells env (skipChars c) rest) :
    (∀ x ∈ t.atoms, rest.length < x.pos ∧ x.pos ≤ (skipChars c).length) ∧ t.atoms.Nodup := by
  cases t with
  | atom a =>
    obtain ⟨-, hlen, hpos⟩ := getTok_spec h
    rw [skipChars_idem] at hlen hpos
    refine ⟨fun x hx => ?_, List.nodup_singleton a⟩
    rw [List.mem_singleton.mp hx, hpos]
    exact ⟨hlen, le_rfl⟩
  | group g =>
    obtain ⟨c', rest', hc, hg, hclose⟩ := h
    obtain ⟨hpos, hn⟩ := CondGroup.Spells.atoms g hg
    have hskip := length_skipChars_le rest'
    rw [hclose, List.length_cons] at hskip
    refine ⟨fun x hx => ?_, hn⟩
    have := hpos x hx
    rw [hc, List.length_cons]
    omega

theorem CondGroup.Spells.atoms (g : CondGroup) {c rest : List u8} (h : g.Spells env c rest) :
    (∀ x ∈ g.atoms, rest.length < x.pos ∧ x.pos ≤ c.length) ∧ g.atoms.Nodup := by
  cases g with
  | one t =>
    obtain ⟨hpos, hn⟩ := CondTerm.Spells.atoms t h
    have hskip := length_skipChars_le c
    refine ⟨fun x hx => ?_, hn⟩
    have := hpos x hx
    omega
  | op g o t =>
    obtain ⟨c', c'', hg, hop, ht⟩ := h
    obtain ⟨hgpos, hgn⟩ := CondGroup.Spells.atoms g hg
    obtain ⟨htpos, htn⟩ := CondTerm.Spells.atoms t ht
    have hglen := CondGroup.Spells.length g hg
    have htlen := CondTerm.Spells.length t ht
    have h₁ := length_skipChars_le c'
    have h₂ := length_skipChars_le c''
    rw [hop, List.length_append] at h₁
    refine ⟨fun x hx => ?_, hgn.append htn fun x hx hx' => ?_⟩
    · rcases List.mem_append.mp hx with hx | hx
      · have := hgpos x hx
        omega
      · have := htpos x hx
        omega
    · have := hgpos x hx
      have := htpos x hx'
      omega

end

/-! ## The result -/

/-- **When `eval_cond` reads a condition from the left**: under every truth
of its tokens, if and only if no condition within has both operators. -/
theorem evalCond_leftToRight_iff (env : ParserEnv) (cond : List u8) (g : CondGroup)
    (h : g.Spells env cond []) :
    ∃ group, parseCond env cond = some group ∧
      ((∀ truth, evalCond truth group = g.leftToRight truth) ↔ g.Uniform) := by
  refine ⟨g.toks, parseCond_of_spells h, fun hall => ?_, fun hu truth => hu.eval g truth⟩
  by_contra hu
  obtain ⟨truth, hne⟩ := CondGroup.exists_ne g (CondGroup.Spells.atoms g h).2 hu
  exact hne (hall truth)

/-- The parser with the registers of the `i386` that the texts below name,
which have one digit for a number. -/
def i386Env : ParserEnv where
  roff := [([101, 97, 120], 24), ([101, 98, 120], 0), ([101, 99, 120], 4)]
  longSize := 4
  fresh _ := 0
  getMath text := (text.headD 48 - 48).toUInt64
  hexstr2binstr text := text

/-- A register that is 1, at a place of the text. -/
def isOne (pos : ℕ) (off : ut64) : CondTerm := .atom ⟨pos, .reg, off, .eq, .long 1, 4⟩

/-- `%eax=1 or %ebx=1 and %ecx=1`. -/
def orAndText : List u8 :=
  [37, 101, 97, 120, 61, 49, 32, 111, 114, 32, 37, 101, 98, 120, 61, 49, 32, 97, 110, 100, 32,
    37, 101, 99, 120, 61, 49]

def orAndCond : CondGroup := .op (.op (.one (isOne 27 24)) .or (isOne 17 0)) .and (isOne 6 4)

theorem orAndText_spells : orAndCond.Spells i386Env orAndText [] := by
  refine ⟨orAndText.drop 16, orAndText.drop 20, ⟨orAndText.drop 6, orAndText.drop 9, ?_, ?_, ?_⟩,
    ?_, ?_⟩
  · change getTok i386Env (skipChars orAndText) = some (_, orAndText.drop 6)
    decide
  · decide
  · change getTok i386Env (skipChars (orAndText.drop 9)) = some (_, orAndText.drop 16)
    decide
  · decide
  · change getTok i386Env (skipChars (orAndText.drop 20)) = some (_, [])
    decide

theorem evalCond_orAndText :
    ∃ group, parseCond i386Env orAndText = some group ∧
      ¬∀ truth, evalCond truth group = orAndCond.leftToRight truth := by
  obtain ⟨group, hparse, hiff⟩ :=
    evalCond_leftToRight_iff i386Env orAndText orAndCond orAndText_spells
  refine ⟨group, hparse, fun hall => ?_⟩
  have hsame : LogOp.or = .and := (hiff.mp hall).1 .or (by simp [CondGroup.ops])
  cases hsame

/-- **`or` and then `and`**: the condition holds by its first token, and is
false from the left with the last. -/
theorem or_ends_before_and :
    orAndCond.Spells i386Env orAndText [] ∧
      (parseCond i386Env orAndText).map (evalCond fun t => t.pos = 27) = some true ∧
      orAndCond.leftToRight (fun t => t.pos = 27) = false :=
  ⟨orAndText_spells, by decide, by decide⟩

end Radare
