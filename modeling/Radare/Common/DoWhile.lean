import Mathlib.Logic.Relation
import Mathlib.Tactic.Common
/-!
# Jumps back to the nearest mark

A code has plain instructions, marks that do nothing, and jumps that go back
behind the nearest mark before them while a test of the state holds. Between
two marks such a code is a body of loops that all begin at its first place and
are done at least once, one in the other (`Body`).

A run of the code from its first place to its last is what the bodies do one
after another (`goes_iff`).
-/

namespace Radare

namespace Common

/-- An instruction. -/
inductive Instr (ι : Type*) where
  | plain (i : ι)
  | mark
  | back

/-- What is between two marks. -/
inductive Body (ι : Type*) where
  | nil
  | plain (b : Body ι) (i : ι)
  /-- The body again, while the test holds. -/
  | loop (b : Body ι)

variable {ι σ : Type*}

/-- The instructions of a body. -/
def Body.code : Body ι → List (Instr ι)
  | .nil => []
  | .plain b i => b.code ++ [.plain i]
  | .loop b => b.code ++ [.back]

/-- There is no jump in it. -/
def Body.Straight : Body ι → Prop
  | .nil => True
  | .plain b _ => b.Straight
  | .loop _ => False

/-- The code of bodies with marks between them. -/
def codeOf (b : Body ι) (bs : List (Body ι)) : List (Instr ι) :=
  b.code ++ bs.flatMap fun b => .mark :: b.code

/-- The bodies of a code, with what there is of the first one. -/
def bodiesFrom : Body ι → List (Instr ι) → Body ι × List (Body ι)
  | b, [] => (b, [])
  | b, .plain i :: code => bodiesFrom (.plain b i) code
  | b, .back :: code => bodiesFrom (.loop b) code
  | b, .mark :: code => (b, (bodiesFrom .nil code).1 :: (bodiesFrom .nil code).2)

/-- The nearest mark before a place. -/
def nearestMark (code : List (Instr ι)) : ℕ → Option ℕ
  | 0 => none
  | pc + 1 =>
    match code[pc]? with
    | some .mark => some pc
    | _ => nearestMark code pc

variable (act : ι → σ → Option σ) (again : σ → Bool)

/-- An instruction is done. -/
def turn (code : List (Instr ι)) (pc : ℕ) (s : σ) : Option (ℕ × σ) :=
  match code[pc]? with
  | none => none
  | some (.plain i) => (act i s).map fun t => (pc + 1, t)
  | some .mark => some (pc + 1, s)
  | some .back =>
    if again s then (nearestMark code pc).map fun mark => (mark + 1, s) else some (pc + 1, s)

/-- The code goes from one place and state to another. -/
def Goes (code : List (Instr ι)) : ℕ × σ → ℕ × σ → Prop :=
  Relation.ReflTransGen fun x y => turn act again code x.1 x.2 = some y

/-- What a body does. -/
inductive Body.Does : Body ι → σ → σ → Prop
  | nil (s : σ) : Body.Does .nil s s
  | plain {b : Body ι} {i : ι} {s t u : σ} (hb : Body.Does b s t) (hi : act i t = some u) :
      Body.Does (.plain b i) s u
  | last {b : Body ι} {s t : σ} (hb : Body.Does b s t) (hlast : again t = false) :
      Body.Does (.loop b) s t
  | again {b : Body ι} {s t u : σ} (hb : Body.Does b s t) (hagain : again t = true)
      (hrest : Body.Does (.loop b) t u) : Body.Does (.loop b) s u

/-- What bodies do one after another. -/
def DoesAll : List (Body ι) → σ → σ → Prop
  | [], s, t => s = t
  | b :: bs, s, t => ∃ u, b.Does act again s u ∧ DoesAll bs u t

/-- What a body does from a place in it on. -/
def Body.DoesFrom : Body ι → ℕ → σ → σ → Prop
  | .nil, _, s, t => s = t
  | .plain b i, k, s, t =>
    if k ≤ b.code.length then ∃ u, b.DoesFrom k s u ∧ act i u = some t else s = t
  | .loop b, k, s, t =>
    if k ≤ b.code.length then
      ∃ u, b.DoesFrom k s u ∧
        ((again u = false ∧ u = t) ∨ (again u = true ∧ Body.Does act again (.loop b) u t))
    else s = t

variable {act again} {b : Body ι} {bs : List (Body ι)} {code : List (Instr ι)} {s t u : σ}
variable {start pc k mark : ℕ}

theorem Body.doesFrom_end : b.DoesFrom act again b.code.length s s := by
  cases b with
  | nil => rfl
  | plain b i =>
    have hend : ¬ (b.plain i).code.length ≤ b.code.length := by
      rw [Body.code, List.length_append, List.length_singleton]
      omega
    rw [Body.DoesFrom, if_neg hend]
  | loop b =>
    have hend : ¬ b.loop.code.length ≤ b.code.length := by
      rw [Body.code, List.length_append, List.length_singleton]
      omega
    rw [Body.DoesFrom, if_neg hend]

theorem Body.doesFrom_zero_iff : b.DoesFrom act again 0 s t ↔ b.Does act again s t := by
  induction b generalizing t with
  | nil =>
    constructor
    · rintro rfl
      exact .nil s
    · rintro ⟨⟩
      rfl
  | plain b i ih =>
    rw [Body.DoesFrom, if_pos (Nat.zero_le _)]
    constructor
    · rintro ⟨u, hu, hi⟩
      exact .plain (ih.mp hu) hi
    · intro h
      cases h with
      | plain hb hi => exact ⟨_, ih.mpr hb, hi⟩
  | loop b ih =>
    rw [Body.DoesFrom, if_pos (Nat.zero_le _)]
    constructor
    · rintro ⟨u, hu, ⟨hlast, rfl⟩ | ⟨hagain, hrest⟩⟩
      · exact .last (ih.mp hu) hlast
      · exact .again (ih.mp hu) hagain hrest
    · intro h
      cases h with
      | last hb hlast => exact ⟨_, ih.mpr hb, .inl ⟨hlast, rfl⟩⟩
      | again hb hagain hrest => exact ⟨_, ih.mpr hb, .inr ⟨hagain, hrest⟩⟩

/-! ## A body in a code -/

/-- The body stands at a place, behind a mark if it has jumps. -/
structure Body.Placed (code : List (Instr ι)) (start : ℕ) (b : Body ι) : Prop where
  here : ∀ k < b.code.length, code[start + k]? = b.code[k]?
  behind : b.Straight ∨ ∃ mark, start = mark + 1 ∧ code[mark]? = some .mark

theorem Body.Placed.plain {i : ι} (h : (b.plain i).Placed code start) : b.Placed code start where
  here := by
    intro k hk
    rw [h.here k (by rw [Body.code, List.length_append]; omega), Body.code,
      List.getElem?_append_left hk]
  behind := h.behind

theorem Body.Placed.loop (h : b.loop.Placed code start) : b.Placed code start where
  here := by
    intro k hk
    rw [h.here k (by rw [Body.code, List.length_append]; omega), Body.code,
      List.getElem?_append_left hk]
  behind := h.behind.imp False.elim id

theorem Body.not_mark (b : Body ι) : b.code[k]? ≠ some .mark := by
  induction b with
  | nil => exact nofun
  | plain b i ih =>
    rw [Body.code]
    rcases Nat.lt_or_ge k b.code.length with hlt | hge
    · rwa [List.getElem?_append_left hlt]
    · rw [List.getElem?_append_right hge]
      intro h
      have := List.mem_singleton.mp (List.mem_of_getElem? h)
      cases this
  | loop b ih =>
    rw [Body.code]
    rcases Nat.lt_or_ge k b.code.length with hlt | hge
    · rwa [List.getElem?_append_left hlt]
    · rw [List.getElem?_append_right hge]
      intro h
      have := List.mem_singleton.mp (List.mem_of_getElem? h)
      cases this

/-- **The nearest mark** of a place in a body is the one before the body. -/
theorem Body.Placed.nearestMark (h : b.Placed code (mark + 1))
    (hmark : code[mark]? = some .mark) (hk : k ≤ b.code.length) :
    nearestMark code (mark + 1 + k) = some mark := by
  induction k with
  | zero => rw [Nat.add_zero, Common.nearestMark, hmark]
  | succ k ih =>
    have hget := h.here k (by omega)
    have hnot : code[mark + 1 + k]? ≠ some .mark := by
      rw [hget]
      exact b.not_mark
    rw [← Nat.add_assoc, Common.nearestMark]
    split
    · rename_i heq
      exact absurd heq hnot
    · exact ih (by omega)

/-- **The jump** at the end of a loop. -/
theorem Body.Placed.turn_back (h : b.loop.Placed code start) (s : σ) :
    turn act again code (start + b.code.length) s =
      if again s then some (start, s) else some (start + b.code.length + 1, s) := by
  have hback : code[start + b.code.length]? = some .back := by
    rw [h.here _ (by rw [Body.code, List.length_append, List.length_singleton]; omega), Body.code,
      List.getElem?_append_right (Nat.le_refl _), Nat.sub_self]
    rfl
  obtain ⟨mark, rfl, hmark⟩ := h.behind.resolve_left id
  have hnear := h.loop.nearestMark hmark (Nat.le_refl _)
  unfold turn
  rw [hback]
  dsimp only
  rw [hnear]
  rfl

theorem Body.Placed.turn_plain {i : ι} (h : (b.plain i).Placed code start) (s : σ) :
    turn act again code (start + b.code.length) s =
      (act i s).map fun t => (start + b.code.length + 1, t) := by
  have hplain : code[start + b.code.length]? = some (.plain i) := by
    rw [h.here _ (by rw [Body.code, List.length_append, List.length_singleton]; omega), Body.code,
      List.getElem?_append_right (Nat.le_refl _), Nat.sub_self]
    rfl
  unfold turn
  rw [hplain]

theorem length_plain (b : Body ι) (i : ι) : (b.plain i).code.length = b.code.length + 1 := by
  rw [Body.code, List.length_append, List.length_singleton]

theorem length_loop (b : Body ι) : b.loop.code.length = b.code.length + 1 := by
  rw [Body.code, List.length_append, List.length_singleton]

/-- **What a body does, the code does.** -/
theorem Body.Does.goes (h : b.Does act again s t) (hb : b.Placed code start) :
    Goes act again code (start, s) (start + b.code.length, t) := by
  induction h with
  | nil s => exact .refl
  | @plain b i s t u _ hi ih =>
    have hlast : turn act again code (start + b.code.length) t =
        (act i t).map fun u => (start + b.code.length + 1, u) := hb.turn_plain t
    rw [hi] at hlast
    rw [length_plain]
    exact (ih hb.plain).tail hlast
  | @last b s t _ hlast ih =>
    have hturn : turn act again code (start + b.code.length) t =
        if again t then some (start, t) else some (start + b.code.length + 1, t) := hb.turn_back t
    rw [hlast] at hturn
    rw [length_loop]
    exact (ih hb.loop).tail hturn
  | @again b s t u _ hagain _ ih ihrest =>
    have hturn : turn act again code (start + b.code.length) t =
        if again t then some (start, t) else some (start + b.code.length + 1, t) := hb.turn_back t
    rw [hagain] at hturn
    exact ((ih hb.loop).tail hturn).trans (ihrest hb)

/-- **A turn in a body**, told from its end. -/
theorem Body.Placed.turn (h : b.Placed code start) (hk : k < b.code.length) {pc' : ℕ}
    (hturn : turn act again code (start + k) s = some (pc', u)) :
    ∃ k' ≤ b.code.length, pc' = start + k' ∧
      ∀ t, b.DoesFrom act again k' u t → b.DoesFrom act again k s t := by
  induction b generalizing pc' u with
  | nil => exact absurd hk (Nat.not_lt_zero k)
  | plain b i ih =>
    rw [length_plain] at hk
    rcases Nat.lt_or_ge k b.code.length with hlt | hge
    · obtain ⟨k', hk', hpc, hdoes⟩ := ih h.plain hlt hturn
      refine ⟨k', by rw [length_plain]; omega, hpc, fun t ht => ?_⟩
      rw [Body.DoesFrom, if_pos hk'] at ht
      obtain ⟨v, hv, hi⟩ := ht
      rw [Body.DoesFrom, if_pos (Nat.le_of_lt hlt)]
      exact ⟨v, hdoes v hv, hi⟩
    · obtain rfl : k = b.code.length := by omega
      rw [h.turn_plain] at hturn
      obtain ⟨v, hv, heq⟩ := Option.map_eq_some_iff.mp hturn
      cases heq
      refine ⟨b.code.length + 1, Nat.le_of_eq (length_plain b i).symm, rfl, fun t ht => ?_⟩
      rw [Body.DoesFrom, if_neg (by omega)] at ht
      rw [Body.DoesFrom, if_pos (Nat.le_refl _)]
      exact ⟨s, Body.doesFrom_end, ht ▸ hv⟩
  | loop b ih =>
    rw [length_loop] at hk
    rcases Nat.lt_or_ge k b.code.length with hlt | hge
    · obtain ⟨k', hk', hpc, hdoes⟩ := ih h.loop hlt hturn
      refine ⟨k', by rw [length_loop]; omega, hpc, fun t ht => ?_⟩
      rw [Body.DoesFrom, if_pos hk'] at ht
      obtain ⟨v, hv, hrest⟩ := ht
      rw [Body.DoesFrom, if_pos (Nat.le_of_lt hlt)]
      exact ⟨v, hdoes v hv, hrest⟩
    · obtain rfl : k = b.code.length := by omega
      rw [h.turn_back] at hturn
      split_ifs at hturn with hagain
      · cases hturn
        refine ⟨0, Nat.zero_le _, rfl, fun t ht => ?_⟩
        rw [Body.DoesFrom, if_pos (Nat.le_refl _)]
        exact ⟨s, Body.doesFrom_end, .inr ⟨hagain, Body.doesFrom_zero_iff.mp ht⟩⟩
      · cases hturn
        refine ⟨b.code.length + 1, Nat.le_of_eq (length_loop b).symm, rfl, fun t ht => ?_⟩
        rw [Body.DoesFrom, if_neg (by omega)] at ht
        rw [Body.DoesFrom, if_pos (Nat.le_refl _)]
        exact ⟨s, Body.doesFrom_end, .inl ⟨Bool.eq_false_iff.mpr hagain, ht⟩⟩

/-- **Out of a body**: a run to the end of the code leaves the body at its
end, and has done what is left of it. -/
theorem Body.Placed.leave (h : b.Placed code start)
    (hfit : start + b.code.length ≤ code.length) {x : ℕ × σ}
    (hgo : Goes act again code x (code.length, t)) (hk : k ≤ b.code.length)
    (hx : x.1 = start + k) :
    ∃ u, b.DoesFrom act again k x.2 u ∧
      Goes act again code (start + b.code.length, u) (code.length, t) := by
  induction hgo using Relation.ReflTransGen.head_induction_on generalizing k with
  | refl =>
    obtain rfl : k = b.code.length := by
      dsimp only at hx
      omega
    refine ⟨t, Body.doesFrom_end, ?_⟩
    dsimp only at hx
    rw [← hx]
    exact .refl
  | @head x y hturn hrest ih =>
    obtain ⟨pc, s⟩ := x
    obtain ⟨pc', s'⟩ := y
    dsimp only at hx hturn ih ⊢
    rcases Nat.lt_or_ge k b.code.length with hlt | hge
    · rw [hx] at hturn
      obtain ⟨k', hk', hpc, hdoes⟩ := h.turn hlt hturn
      obtain ⟨u, hu, hgo⟩ := ih hk' hpc
      exact ⟨u, hdoes u hu, hgo⟩
    · obtain rfl : k = b.code.length := by omega
      refine ⟨s, Body.doesFrom_end, ?_⟩
      rw [← hx]
      exact .head hturn hrest

/-! ## A whole code -/

theorem codeOf_cons (b b' : Body ι) (bs : List (Body ι)) :
    codeOf b (b' :: bs) = b.code ++ .mark :: codeOf b' bs := by
  unfold codeOf
  rw [List.flatMap_cons, List.cons_append]

/-- Every code is one of bodies. -/
theorem codeOf_bodiesFrom (b : Body ι) (code : List (Instr ι)) :
    codeOf (bodiesFrom b code).1 (bodiesFrom b code).2 = b.code ++ code := by
  induction code generalizing b with
  | nil => rfl
  | cons i code ih =>
    cases i with
    | plain i => rw [bodiesFrom, ih, Body.code, List.append_assoc, List.singleton_append]
    | back => rw [bodiesFrom, ih, Body.code, List.append_assoc, List.singleton_append]
    | mark =>
      rw [bodiesFrom, codeOf_cons, ih, Body.code, List.nil_append]

/-- The first body behind what is in front stands at its place. -/
theorem placed_codeOf {front : List (Instr ι)} (bs : List (Body ι))
    (hfirst : b.Straight ∨ ∃ mark, front.length = mark + 1 ∧ front[mark]? = some .mark) :
    b.Placed (front ++ codeOf b bs) front.length where
  here := by
    intro k hk
    unfold codeOf
    rw [List.getElem?_append_right (Nat.le_add_right _ _), Nat.add_sub_cancel_left,
      List.getElem?_append_left hk]
  behind := by
    refine hfirst.imp id ?_
    rintro ⟨mark, hmark, hget⟩
    refine ⟨mark, hmark, ?_⟩
    rw [List.getElem?_append_left (by omega), hget]

/-- What is in front, the first body and its mark stand before the next. -/
theorem front_mark (front : List (Instr ι)) (b : Body ι) :
    (front ++ b.code ++ [.mark])[(front ++ b.code).length]? = some .mark := by
  rw [List.getElem?_append_right (Nat.le_refl _), Nat.sub_self]
  rfl

theorem goes_codeOf (front : List (Instr ι))
    (hfirst : b.Straight ∨ ∃ mark, front.length = mark + 1 ∧ front[mark]? = some .mark) :
    Goes act again (front ++ codeOf b bs) (front.length, s) ((front ++ codeOf b bs).length, t) ↔
      DoesAll act again (b :: bs) s t := by
  induction bs generalizing front b s with
  | nil =>
    have hplaced := placed_codeOf [] hfirst
    have hlen : (front ++ codeOf b []).length = front.length + b.code.length := by
      unfold codeOf
      rw [List.flatMap_nil, List.append_nil, List.length_append]
    constructor
    · intro hgo
      obtain ⟨u, hu, hrest⟩ := hplaced.leave (Nat.le_of_eq hlen.symm) hgo (Nat.zero_le _) rfl
      rw [hlen] at hrest
      have hsame : u = t := by
        rcases Relation.ReflTransGen.cases_head hrest with heq | ⟨y, hturn, -⟩
        · exact congrArg Prod.snd heq
        · unfold turn at hturn
          rw [List.getElem?_eq_none (Nat.le_of_eq hlen)] at hturn
          cases hturn
      exact ⟨t, Body.doesFrom_zero_iff.mp (hsame ▸ hu), rfl⟩
    · rintro ⟨u, hu, rfl⟩
      rw [hlen]
      exact hu.goes hplaced
  | cons b' bs ih =>
    have hplaced := placed_codeOf (b' :: bs) hfirst
    have hsplit : front ++ codeOf b (b' :: bs) = (front ++ b.code ++ [.mark]) ++ codeOf b' bs := by
      rw [codeOf_cons, List.append_assoc, List.append_assoc]
      rfl
    have hlen : (front ++ b.code ++ [Instr.mark]).length = front.length + b.code.length + 1 := by
      rw [List.length_append, List.length_append]
      rfl
    have hnext : (b'.Straight ∨ ∃ mark, (front ++ b.code ++ [Instr.mark]).length = mark + 1 ∧
        (front ++ b.code ++ [Instr.mark])[mark]? = some .mark) := by
      exact .inr ⟨(front ++ b.code).length, List.length_append, front_mark front b⟩
    have hmark : ∀ u, turn act again (front ++ codeOf b (b' :: bs))
        (front.length + b.code.length) u = some (front.length + b.code.length + 1, u) := by
      intro u
      have hget : (front ++ codeOf b (b' :: bs))[front.length + b.code.length]? = some .mark := by
        rw [hsplit, List.getElem?_append_left (by omega), ← List.length_append]
        exact front_mark front b
      unfold turn
      rw [hget]
    have hfit : front.length + b.code.length + 1 ≤ (front ++ codeOf b (b' :: bs)).length := by
      have htotal : (front ++ b.code ++ [Instr.mark] ++ codeOf b' bs).length =
          (front ++ b.code ++ [Instr.mark]).length + (codeOf b' bs).length := List.length_append
      rw [hsplit, htotal, hlen]
      omega
    constructor
    · intro hgo
      obtain ⟨u, hu, hrest⟩ := hplaced.leave (by omega) hgo (Nat.zero_le _) rfl
      refine ⟨u, Body.doesFrom_zero_iff.mp hu, ?_⟩
      rcases Relation.ReflTransGen.cases_head hrest with heq | ⟨y, hturn, hrest⟩
      · have := congrArg Prod.fst heq
        dsimp only at this
        omega
      · rw [hmark u] at hturn
        cases hturn
        rw [hsplit, ← hlen] at hrest
        exact (ih _ hnext).mp hrest
    · rintro ⟨u, hu, hrest⟩
      have hfirstGo := hu.goes hplaced
      have hrestGo := (ih _ hnext).mpr hrest
      rw [← hsplit, hlen] at hrestGo
      exact (hfirstGo.tail (hmark u)).trans hrestGo

/-- What the code does by its bodies. -/
def CodeDoes (act : ι → σ → Option σ) (again : σ → Bool) (code : List (Instr ι)) : σ → σ → Prop :=
  DoesAll act again ((bodiesFrom .nil code).1 :: (bodiesFrom .nil code).2)

/-- Every jump has a mark before it. -/
def Marked (code : List (Instr ι)) : Prop :=
  ∀ pc : ℕ, code[pc]? = some .back → ∃ mark < pc, code[mark]? = some .mark

theorem marked_cons {i : Instr ι} (hi : i ≠ .back) (hmark : i ≠ .mark) :
    Marked (i :: code) ↔ Marked code := by
  constructor
  · intro h pc hpc
    obtain ⟨mark, hlt, hget⟩ := h (pc + 1) hpc
    cases mark with
    | zero => exact absurd (Option.some.inj hget) hmark
    | succ mark => exact ⟨mark, Nat.lt_of_succ_lt_succ hlt, hget⟩
  · intro h pc hpc
    cases pc with
    | zero => exact absurd (Option.some.inj hpc) hi
    | succ pc =>
      obtain ⟨mark, hlt, hget⟩ := h pc hpc
      exact ⟨mark + 1, Nat.succ_lt_succ hlt, hget⟩

theorem straight_bodiesFrom (b : Body ι) (code : List (Instr ι)) :
    (bodiesFrom b code).1.Straight ↔ b.Straight ∧ Marked code := by
  induction code generalizing b with
  | nil => exact ⟨fun h => ⟨h, nofun⟩, fun h => h.1⟩
  | cons i code ih =>
    cases i with
    | plain i =>
      have hcons : Marked (.plain i :: code) ↔ Marked code := marked_cons nofun nofun
      rw [bodiesFrom, ih, hcons, Body.Straight]
    | back =>
      rw [bodiesFrom, ih]
      constructor
      · exact fun h => h.1.elim
      · rintro ⟨-, h⟩
        obtain ⟨mark, hlt, -⟩ := h 0 rfl
        exact absurd hlt (Nat.not_lt_zero mark)
    | mark =>
      rw [bodiesFrom]
      refine ⟨fun h => ⟨h, fun pc hpc => ?_⟩, fun h => h.1⟩
      cases pc with
      | zero => cases hpc
      | succ pc => exact ⟨0, Nat.succ_pos pc, rfl⟩

/-- **What a code does**, if every jump has a mark before it: what its bodies
do, one after another. -/
theorem goes_iff (hcode : Marked code) :
    Goes act again code (0, s) (code.length, t) ↔ CodeDoes act again code s t := by
  have hb : (bodiesFrom .nil code).1.Straight :=
    (straight_bodiesFrom .nil code).mpr ⟨trivial, hcode⟩
  have h : Goes act again (codeOf (bodiesFrom .nil code).1 (bodiesFrom .nil code).2) (0, s)
      ((codeOf (bodiesFrom .nil code).1 (bodiesFrom .nil code).2).length, t) ↔
        CodeDoes act again code s t := goes_codeOf [] (.inl hb)
  rwa [codeOf_bodiesFrom] at h

theorem nearestMark_some (h : nearestMark code pc = some mark) :
    mark < pc ∧ code[mark]? = some .mark ∧ ∀ k, mark < k → k < pc → code[k]? ≠ some .mark := by
  induction pc with
  | zero => cases h
  | succ pc ih =>
    rw [nearestMark] at h
    split at h
    · rename_i hget
      obtain rfl := Option.some.inj h
      exact ⟨Nat.lt_succ_self pc, hget, fun k _ _ => by omega⟩
    · rename_i hnot
      obtain ⟨hlt, hget, hbetween⟩ := ih h
      refine ⟨by omega, hget, fun k hk hkpc => ?_⟩
      rcases Nat.lt_succ_iff_lt_or_eq.mp hkpc with hkpc | rfl
      · exact hbetween k hk hkpc
      · exact hnot

/-- A turn ends inside the code or at its end. -/
theorem turn_le {pc' : ℕ} (hpc : pc < code.length)
    (h : turn act again code pc s = some (pc', t)) : pc' ≤ code.length := by
  unfold turn at h
  split at h
  · cases h
  · obtain ⟨u, -, heq⟩ := Option.map_eq_some_iff.mp h
    cases heq
    exact hpc
  · cases h
    exact hpc
  · split_ifs at h
    · obtain ⟨mark, hmark, heq⟩ := Option.map_eq_some_iff.mp h
      cases heq
      have := (nearestMark_some hmark).1
      omega
    · cases h
      exact hpc

theorem nearestMark_of_lt (hlt : mark < pc) (hget : code[mark]? = some .mark) :
    ∃ mark', nearestMark code pc = some mark' := by
  induction pc with
  | zero => exact absurd hlt (Nat.not_lt_zero mark)
  | succ pc ih =>
    rw [nearestMark]
    split
    · exact ⟨pc, rfl⟩
    · rename_i hnot
      refine ih ?_
      rcases Nat.lt_succ_iff_lt_or_eq.mp hlt with hlt | rfl
      · exact hlt
      · exact absurd hget hnot

end Common

end Radare
