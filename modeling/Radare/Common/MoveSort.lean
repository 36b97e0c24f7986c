import Mathlib.Data.List.Basic
import Mathlib.Data.List.Nodup
import Mathlib.Data.Finset.Max
import Mathlib.Order.Defs.LinearOrder
import Mathlib.Tactic.Linarith
/-!
# Sorting by moving nodes

Two nested iterations over one linked list, each holding the next node it
will visit: the inner one moves the outer one's node behind every node of
a smaller key, so behind the last of them. The list both iterate changes
under them. A node is an element of a duplicate-free list, its key a
function of it.

`innerLoop_spec` says what one turn of the outer iteration does, and
`moveSort_sorted` that the outer iteration ends with the list sorted:
the nodes it has passed are sorted and below the rest, and a turn either
passes a node or brings the first least node of the rest one place
forward.
-/

namespace Radare

namespace Common

variable {ν : Type*} [DecidableEq ν] {α : Type*} [LinearOrder α]

/-- The node after `x`; `none` is the end of the list. -/
def nextNode (x : ν) : List ν → Option ν
  | [] => none
  | y :: ys => if y = x then ys.head? else nextNode x ys

/-- `e` inserted right behind `h`. -/
def insertBehind (h e : ν) : List ν → List ν
  | [] => []
  | y :: ys => if y = h then y :: e :: ys else y :: insertBehind h e ys

/-- `e` taken out and put right behind `h`. -/
def moveBehind (e h : ν) (l : List ν) : List ν :=
  insertBehind h e (l.erase e)

/-- The inner iteration, at `pos2`, for the node `pos`. The next node is
read before the move. -/
def innerLoop (key : ν → α) (pos : ν) :
    ℕ → Option ν → List ν → Bool → Option (List ν × Bool)
  | _, none, l, ch => some (l, ch)
  | 0, some _, _, _ => none
  | fuel + 1, some pos2, l, ch =>
    let n2 := nextNode pos2 l
    if pos ≠ pos2 ∧ key pos > key pos2 then
      innerLoop key pos fuel n2 (moveBehind pos pos2 l) true
    else innerLoop key pos fuel n2 l ch

/-- The outer iteration, at `pos`. -/
def outerLoop (key : ν → α) : ℕ → Option ν → List ν → Bool → Option (List ν × Bool)
  | _, none, l, ch => some (l, ch)
  | 0, some _, _, _ => none
  | fuel + 1, some pos, l, ch =>
    let n := nextNode pos l
    (innerLoop key pos l.length l.head? l ch).bind fun (l, ch) => outerLoop key fuel n l ch

/-- The two iterations, and whether any node was moved. -/
def moveSort (key : ν → α) (l : List ν) : Option (List ν × Bool) :=
  outerLoop key (l.length * l.length + l.length) l.head? l false

/-! ## The list operations -/

theorem nextNode_append {x : ν} {l r : List ν} (h : x ∉ l) :
    nextNode x (l ++ x :: r) = r.head? := by
  induction l with
  | nil => simp [nextNode]
  | cons y ys ih =>
    rw [List.mem_cons, not_or] at h
    rw [List.cons_append, nextNode, if_neg (Ne.symm h.1), ih h.2]

theorem insertBehind_append {x e : ν} {l r : List ν} (h : x ∉ l) :
    insertBehind x e (l ++ x :: r) = l ++ x :: e :: r := by
  induction l with
  | nil => simp [insertBehind]
  | cons y ys ih =>
    rw [List.mem_cons, not_or] at h
    rw [List.cons_append, insertBehind, if_neg (Ne.symm h.1), ih h.2, List.cons_append]

/-- In a duplicate-free list an erasure happens on one side of any other
node, and changes nothing on the other. -/
theorem erase_append_cons {e y : ν} {l r : List ν} (hne : e ≠ y)
    (hnd : (l ++ y :: r).Nodup) : (l ++ y :: r).erase e = l.erase e ++ y :: r.erase e := by
  by_cases hl : e ∈ l
  · have hr : e ∉ r := fun hr =>
      (List.nodup_append.mp hnd).2.2 e hl e (List.mem_cons_of_mem _ hr) rfl
    rw [List.erase_append_left _ hl, List.erase_of_not_mem hr]
  · rw [List.erase_append_right _ hl, List.erase_of_not_mem hl,
      List.erase_cons_tail (by simpa using Ne.symm hne)]

theorem moveBehind_append {e y : ν} {l r : List ν} (hne : e ≠ y)
    (hnd : (l ++ y :: r).Nodup) :
    moveBehind e y (l ++ y :: r) = l.erase e ++ y :: e :: r.erase e := by
  have hy : y ∉ l.erase e := fun h =>
    (List.nodup_append.mp hnd).2.2 y (List.mem_of_mem_erase h) y List.mem_cons_self rfl
  rw [moveBehind, erase_append_cons hne hnd, insertBehind_append hy]

/-- What is left of a duplicate-free list once a node is taken out of it
and put back elsewhere is a permutation of it. -/
theorem perm_erase_append_cons {e y : ν} {l r : List ν} (hne : e ≠ y)
    (hnd : (l ++ y :: r).Nodup) (he : e ∈ l ++ y :: r) :
    (l.erase e ++ y :: e :: r.erase e).Perm (l ++ y :: r) := by
  have h := List.perm_cons_erase he
  rw [erase_append_cons hne hnd] at h
  refine List.Perm.trans ?_ h.symm
  refine List.Perm.trans (List.Perm.append_left _ (List.Perm.swap e y _)) ?_
  exact List.perm_middle

/-! ## One turn of the outer iteration -/

/-- **The inner iteration.** Over the nodes `Y` it has still to visit, it
leaves the list alone where none has a smaller key; else it leaves `pos`
right behind the last that has, and every other node in its place. -/
theorem innerLoop_spec (key : ν → α) (pos : ν) :
    ∀ (fuel : ℕ) (X Y : List ν) (ch : Bool), (X ++ Y).Nodup → pos ∈ X ++ Y → Y.length ≤ fuel →
      ∃ l' ch', innerLoop key pos fuel Y.head? (X ++ Y) ch = some (l', ch') ∧
        (((∀ y ∈ Y, key pos ≤ key y) ∧ l' = X ++ Y ∧ ch' = ch) ∨
          ∃ C c D, Y.erase pos = C ++ c :: D ∧ key c < key pos ∧ (∀ d ∈ D, key pos ≤ key d) ∧
            l' = X.erase pos ++ (C ++ c :: pos :: D) ∧ ch' = true) := by
  intro fuel
  induction fuel with
  | zero =>
    intro X Y ch _ _ hY
    obtain rfl : Y = [] := List.eq_nil_of_length_eq_zero (by omega)
    exact ⟨X ++ [], ch, by simp [innerLoop], Or.inl ⟨by simp, rfl, rfl⟩⟩
  | succ fuel ih =>
    intro X Y ch hnd hmem hY
    rcases Y with _ | ⟨y, Y⟩
    · exact ⟨X ++ [], ch, by simp [innerLoop], Or.inl ⟨by simp, rfl, rfl⟩⟩
    have hyX : y ∉ X := fun h =>
      (List.nodup_append.mp hnd).2.2 y h y List.mem_cons_self rfl
    have hlen : Y.length ≤ fuel := by simp only [List.length_cons] at hY; omega
    simp only [List.head?_cons, innerLoop, nextNode_append hyX]
    by_cases hmove : pos ≠ y ∧ key pos > key y
    · -- `pos` goes right behind `y`; the iteration continues with what followed `y`
      rw [if_pos hmove, moveBehind_append hmove.1 hnd]
      have hnd' := (perm_erase_append_cons hmove.1 hnd hmem).nodup_iff.mpr hnd
      have hYe : (y :: Y).erase pos = y :: Y.erase pos :=
        List.erase_cons_tail (by simpa using Ne.symm hmove.1)
      by_cases hhead : Y.head? = some pos
      · obtain ⟨Y', rfl⟩ : ∃ Y', Y = pos :: Y' := by
          rcases Y with _ | ⟨z, Y'⟩
          · simp at hhead
          · exact ⟨Y', by simpa using hhead⟩
        rw [List.erase_cons_head] at hnd' hYe ⊢
        have hsplit : X.erase pos ++ y :: pos :: Y' = (X.erase pos ++ [y]) ++ (pos :: Y') := by
          simp
        rw [hsplit] at hnd' ⊢
        obtain ⟨l', ch', hrun, hres⟩ := ih _ _ true hnd' (by simp) hlen
        have hpos : pos ∉ X.erase pos ++ [y] := fun h =>
          (List.nodup_append.mp hnd').2.2 pos h pos List.mem_cons_self rfl
        refine ⟨l', ch', hrun, Or.inr ?_⟩
        rcases hres with ⟨hall, rfl, rfl⟩ | ⟨C, c, D, hC, hc, hD, rfl, rfl⟩
        · exact ⟨[], y, Y', by simpa using hYe, hmove.2,
            fun d hd => hall d (List.mem_cons_of_mem _ hd), by simp, rfl⟩
        · rw [List.erase_cons_head] at hC
          exact ⟨y :: C, c, D, by rw [hYe, hC]; rfl, hc, hD,
            by rw [List.erase_of_not_mem hpos]; simp, rfl⟩
      · have hheadE : Y.head? = (Y.erase pos).head? := by
          rcases Y with _ | ⟨z, Y'⟩
          · rfl
          · have hz : z ≠ pos := fun h => hhead (by simp [h])
            rw [List.erase_cons_tail (by simpa using hz)]
            rfl
        have hsplit : X.erase pos ++ y :: pos :: Y.erase pos =
            (X.erase pos ++ [y, pos]) ++ Y.erase pos := by simp
        rw [hheadE]
        rw [hsplit] at hnd' ⊢
        obtain ⟨l', ch', hrun, hres⟩ := ih _ _ true hnd' (by simp)
          (le_trans List.length_erase_le hlen)
        have hposY : pos ∉ Y.erase pos := fun h =>
          (List.nodup_append.mp hnd').2.2 pos (by simp) pos h rfl
        have hposX : pos ∉ X.erase pos ++ [y] := by
          have h := (List.nodup_append.mp hnd').1
          rw [show X.erase pos ++ [y, pos] = (X.erase pos ++ [y]) ++ [pos] by simp] at h
          exact fun hp => (List.nodup_append.mp h).2.2 pos hp pos List.mem_cons_self rfl
        have hXe : (X.erase pos ++ [y, pos]).erase pos = X.erase pos ++ [y] := by
          rw [show X.erase pos ++ [y, pos] = (X.erase pos ++ [y]) ++ [pos] by simp,
            List.erase_append_right _ hposX]
          simp
        refine ⟨l', ch', hrun, Or.inr ?_⟩
        rcases hres with ⟨hall, rfl, rfl⟩ | ⟨C, c, D, hC, hc, hD, rfl, rfl⟩
        · exact ⟨[], y, Y.erase pos, hYe, hmove.2, hall, by simp, rfl⟩
        · rw [List.erase_of_not_mem hposY] at hC
          exact ⟨y :: C, c, D, by rw [hYe, hC]; rfl, hc, hD, by rw [hXe]; simp, rfl⟩
    · -- nothing moves, and `y` is passed
      rw [if_neg hmove, show X ++ y :: Y = (X ++ [y]) ++ Y by simp]
      have hnd' : ((X ++ [y]) ++ Y).Nodup := by simpa using hnd
      have hle : key pos ≤ key y := by
        by_cases h : pos = y
        · rw [h]
        · exact not_lt.mp fun hlt => hmove ⟨h, hlt⟩
      obtain ⟨l', ch', hrun, hres⟩ := ih _ _ ch hnd' (by simpa using hmem) hlen
      refine ⟨l', ch', hrun, ?_⟩
      rcases hres with ⟨hall, rfl, rfl⟩ | ⟨C, c, D, hC, hc, hD, rfl, rfl⟩
      · refine Or.inl ⟨fun z hz => ?_, by simp, rfl⟩
        rcases List.mem_cons.mp hz with rfl | hz
        · exact hle
        · exact hall z hz
      · refine Or.inr ?_
        by_cases hy : y = pos
        · subst hy
          have hyY : y ∉ Y := (List.nodup_cons.mp (List.nodup_append.mp hnd).2.1).1
          rw [List.erase_of_not_mem hyY] at hC
          refine ⟨C, c, D, by rw [List.erase_cons_head, hC], hc, hD, ?_, rfl⟩
          rw [List.erase_append_right _ hyX, List.erase_of_not_mem hyX]
          simp
        · refine ⟨y :: C, c, D, ?_, hc, hD, ?_, rfl⟩
          · rw [List.erase_cons_tail (by simpa using hy), hC]; rfl
          · by_cases hX : pos ∈ X
            · rw [List.erase_append_left _ hX]; simp
            · rw [List.erase_of_not_mem hX, List.erase_of_not_mem (by simp [hX, Ne.symm hy])]
              simp

/-! ## The outer iteration -/

/-- `l` is sorted by `key`, repeated keys allowed. -/
def SortedBy (key : ν → α) (l : List ν) : Prop :=
  l.Pairwise fun a b => key a ≤ key b

/-- The state of the outer iteration: the nodes `P` it has passed are
sorted, and none of them is above the rest `R`. -/
structure Passed (key : ν → α) (P R : List ν) : Prop where
  nodup : (P ++ R).Nodup
  sorted : SortedBy key P
  le_rest : ∀ p ∈ P, ∀ r ∈ R, key p ≤ key r

variable {key : ν → α} {P Q R : List ν} {pos c : ν} {C D : List ν}

omit [DecidableEq ν] in
/-- A node below everything that follows it, and above everything before
it, is passed where it is. -/
theorem Passed.pass (h : Passed key P (pos :: Q)) (hle : ∀ q ∈ Q, key pos ≤ key q) :
    Passed key (P ++ [pos]) Q where
  nodup := by simpa using h.nodup
  sorted := by
    refine List.pairwise_append.mpr ⟨h.sorted, List.pairwise_singleton _ _, ?_⟩
    intro p hp q hq
    rw [List.mem_singleton.mp hq]
    exact h.le_rest p hp pos List.mem_cons_self
  le_rest p hp q hq := by
    rcases List.mem_append.mp hp with hp | hp
    · exact h.le_rest p hp q (List.mem_cons_of_mem _ hq)
    · rw [List.mem_singleton.mp hp]
      exact hle q hq

omit [DecidableEq ν] in
/-- The same node put behind the last passed one of a smaller key: those
it jumps over have its own key. -/
theorem Passed.insert (h : Passed key (C ++ c :: D) (pos :: Q)) (hc : key c < key pos)
    (hD : ∀ d ∈ D, key pos ≤ key d) (hQ : ∀ q ∈ Q, key pos ≤ key q) :
    Passed key (C ++ c :: pos :: D) Q where
  nodup := by
    have hperm : ((C ++ c :: pos :: D) ++ Q).Perm ((C ++ c :: D) ++ pos :: Q) := by
      have h1 : ((C ++ c :: pos :: D) ++ Q).Perm (pos :: ((C ++ c :: D) ++ Q)) := by
        rw [show (C ++ c :: pos :: D) ++ Q = (C ++ [c]) ++ pos :: (D ++ Q) by simp,
          show (C ++ c :: D) ++ Q = (C ++ [c]) ++ (D ++ Q) by simp]
        exact List.perm_middle
      exact h1.trans List.perm_middle.symm
    exact hperm.nodup_iff.mpr h.nodup
  sorted := by
    have hs := h.sorted
    rw [SortedBy, List.pairwise_append, List.pairwise_cons] at hs ⊢
    obtain ⟨hC, ⟨hcD, hDD⟩, hCc⟩ := hs
    refine ⟨hC, ⟨?_, List.pairwise_cons.mpr ⟨hD, hDD⟩⟩, ?_⟩
    · intro d hd
      rcases List.mem_cons.mp hd with rfl | hd
      · exact hc.le
      · exact hcD d hd
    · intro a ha d hd
      rcases List.mem_cons.mp hd with rfl | hd
      · exact hCc a ha d List.mem_cons_self
      · rcases List.mem_cons.mp hd with rfl | hd
        · exact (hCc a ha c List.mem_cons_self).trans hc.le
        · exact hCc a ha d (List.mem_cons_of_mem _ hd)
  le_rest p hp q hq := by
    have hmem : p ∈ C ++ c :: D ∨ p = pos := by
      simp only [List.mem_append, List.mem_cons] at hp ⊢
      tauto
    rcases hmem with hp | rfl
    · exact h.le_rest p hp q (List.mem_cons_of_mem _ hq)
    · exact hQ q hq

omit [DecidableEq ν] in
/-- A permutation of the rest changes nothing of what is passed. -/
theorem Passed.perm {R' : List ν} (h : Passed key P R) (hperm : R'.Perm R) : Passed key P R' where
  nodup := (List.Perm.append_left P hperm).nodup_iff.mpr h.nodup
  sorted := h.sorted
  le_rest p hp r hr := h.le_rest p hp r (hperm.mem_iff.mp hr)

/-- A list that is not empty splits at a node of a least key. -/
theorem exists_min_split (key : ν → α) {R : List ν} (hR : R ≠ []) :
    ∃ A x B, R = A ++ x :: B ∧ ∀ r ∈ R, key x ≤ key r := by
  obtain ⟨x, hx, hmin⟩ := R.toFinset.exists_min_image key (by simpa using hR)
  obtain ⟨A, B, rfl⟩ := List.append_of_mem (List.mem_toFinset.mp hx)
  exact ⟨A, x, B, rfl, fun r hr => hmin r (List.mem_toFinset.mpr hr)⟩

omit [DecidableEq ν] in
/-- A node of two lists joined is in the second or in the first. -/
theorem append_eq_append_cons (h : P ++ Q = C ++ c :: D) :
    (∃ Z, C = P ++ Z ∧ Q = Z ++ c :: D) ∨ ∃ Z, P = C ++ c :: Z ∧ D = Z ++ Q := by
  rcases List.append_eq_append_iff.mp h with ⟨Z, hC, hZ⟩ | ⟨Z, hP, hZ⟩
  · exact Or.inl ⟨Z, hC, hZ⟩
  · rcases Z with _ | ⟨z, Z⟩
    · exact Or.inl ⟨[], by simpa using hP.symm, by simpa using hZ.symm⟩
    · obtain ⟨rfl, rfl⟩ := List.cons.inj hZ
      exact Or.inr ⟨Z, hP, rfl⟩

omit [DecidableEq ν] in
/-- Where the last node below `pos` is in the rest, it is at or behind
any least node, so the node put behind it is behind that one too. -/
theorem split_behind_min (pos : ν) {A B : List ν} {x : ν} (heq : A ++ x :: B = C ++ c :: D)
    (hx : key x < key pos) (hD : ∀ d ∈ D, key pos ≤ key d) :
    ∃ B', C ++ c :: pos :: D = A ++ x :: B' := by
  rcases append_eq_append_cons heq with ⟨Z, rfl, hZ⟩ | ⟨Z, rfl, rfl⟩
  · rcases Z with _ | ⟨z, Z⟩
    · obtain ⟨rfl, -⟩ := List.cons.inj hZ
      exact ⟨pos :: D, by simp⟩
    · obtain ⟨rfl, -⟩ := List.cons.inj hZ
      exact ⟨Z ++ c :: pos :: D, by simp⟩
  · exact absurd (hD x (by simp)) (not_le.mpr hx)

/-- **The outer iteration ends, with the list sorted.** The induction is
on the turns left: a turn passes a node, and the rest is shorter, or
moves the head of the rest behind a least node of it, which is then one
place nearer to the head. -/
theorem outerLoop_spec (key : ν → α) :
    ∀ (fuel : ℕ) (P R A B : List ν) (x : ν) (ch : Bool), Passed key P R → R = A ++ x :: B →
      (∀ r ∈ R, key x ≤ key r) → R.length * R.length + A.length ≤ fuel →
      ∃ l' ch', outerLoop key fuel R.head? (P ++ R) ch = some (l', ch') ∧
        SortedBy key l' ∧ l'.Perm (P ++ R) := by
  intro fuel
  induction fuel with
  | zero =>
    intro P R A B x ch _ hR _ hf
    have : 0 < R.length := by simp [hR]
    have := Nat.mul_pos this this
    omega
  | succ fuel ih =>
    intro P R A B x ch hP hR hmin hf
    rcases R with _ | ⟨pos, Q⟩
    · simp at hR
    have hpP : pos ∉ P := fun h =>
      (List.nodup_append.mp hP.nodup).2.2 pos h pos List.mem_cons_self rfl
    obtain ⟨l₁, ch₁, hrun, hres⟩ := innerLoop_spec key pos (P ++ pos :: Q).length [] (P ++ pos :: Q)
      ch (by simpa using hP.nodup) (by simp) le_rfl
    have hfuel : Q.length * Q.length + Q.length ≤ fuel := by
      simp only [List.length_cons] at hf
      nlinarith
    -- once `pos` is passed the rest is `Q`, which is empty or has a least node
    have hpassed : ∀ P', Passed key P' Q → l₁ = P' ++ Q → l₁.Perm (P ++ pos :: Q) →
        ∃ l' ch', outerLoop key fuel Q.head? l₁ ch₁ = some (l', ch') ∧
          SortedBy key l' ∧ l'.Perm (P ++ pos :: Q) := by
      intro P' hP' hl₁ hperm
      rw [hl₁] at hperm ⊢
      rcases Q with _ | ⟨q, Q'⟩
      · exact ⟨P' ++ [], ch₁, by simp [outerLoop], by simpa using hP'.sorted, hperm⟩
      · obtain ⟨A', x', B', hQ, hmin'⟩ := exists_min_split key (List.cons_ne_nil q Q')
        have hA' : A'.length ≤ (q :: Q').length := by rw [hQ]; simp
        obtain ⟨l', ch', h1, h2, h3⟩ := ih P' (q :: Q') A' B' x' ch₁ hP' hQ hmin' (by omega)
        exact ⟨l', ch', h1, h2, h3.trans hperm⟩
    simp only [List.nil_append] at hrun hres
    simp only [List.head?_cons, outerLoop, nextNode_append hpP, hrun, Option.bind_some]
    rcases hres with ⟨hall, rfl, rfl⟩ | ⟨C, c, D, hC, hc, hD, hl₁, rfl⟩
    · -- no smaller key anywhere: `pos` is passed where it is
      refine hpassed (P ++ [pos]) (hP.pass fun q hq => hall q ?_) (by simp) (List.Perm.refl _)
      simp [hq]
    · rw [List.erase_append_right _ hpP, List.erase_cons_head] at hC
      simp only [List.erase_nil, List.nil_append] at hl₁
      have hperm : l₁.Perm (P ++ pos :: Q) := by
        rw [hl₁]
        have h1 : (C ++ c :: pos :: D).Perm (pos :: (C ++ c :: D)) := by
          rw [show C ++ c :: pos :: D = (C ++ [c]) ++ pos :: D by simp,
            show C ++ c :: D = (C ++ [c]) ++ D by simp]
          exact List.perm_middle
        rw [← hC] at h1
        exact h1.trans List.perm_middle.symm
      rcases append_eq_append_cons hC with ⟨Z, hCP, hQ⟩ | ⟨Z, rfl, rfl⟩
      · -- the last smaller node is in the rest: `pos` goes behind it
        have hcQ : c ∈ Q := by rw [hQ]; simp
        rcases A with _ | ⟨a, A⟩
        · obtain ⟨rfl, rfl⟩ := List.cons.inj hR
          exact absurd (hmin c (List.mem_cons_of_mem _ hcQ)) (not_le.mpr hc)
        · obtain ⟨rfl, hQA⟩ := List.cons.inj hR
          have hx : key x < key pos :=
            lt_of_le_of_lt (hmin c (List.mem_cons_of_mem _ hcQ)) hc
          obtain ⟨B', hB'⟩ := split_behind_min pos (hQA.symm.trans hQ) hx hD
          have hl₁' : l₁ = P ++ (Z ++ c :: pos :: D) := by rw [hl₁, hCP]; simp
          have hhead : Q.head? = (Z ++ c :: pos :: D).head? := by
            rw [hQ]; rcases Z with _ | ⟨z, Z⟩ <;> rfl
          have hpermR : (Z ++ c :: pos :: D).Perm (pos :: Q) := by
            rw [hl₁'] at hperm
            exact (List.perm_append_left_iff P).mp hperm
          rw [hl₁', hhead]
          obtain ⟨l', ch', h1, h2, h3⟩ := ih P (Z ++ c :: pos :: D) A B' x true
            (hP.perm hpermR) hB' (fun r hr => hmin r (hpermR.mem_iff.mp hr)) (by
              rw [hpermR.length_eq]
              simp only [List.length_cons] at hf ⊢
              omega)
          exact ⟨l', ch', h1, h2, h3.trans (hl₁' ▸ hperm)⟩
      · -- the last smaller node is passed already, and so is `pos` now
        exact hpassed (C ++ c :: pos :: Z) (hP.insert hc (fun d hd => hD d (by simp [hd]))
          fun q hq => hD q (by simp [hq])) (by rw [hl₁]; simp) hperm

/-- **The two iterations sort.** They end within the turns allowed, and
leave a sorted permutation of the list. -/
theorem moveSort_sorted (key : ν → α) {l : List ν} (hnd : l.Nodup) :
    ∃ l' ch', moveSort key l = some (l', ch') ∧ SortedBy key l' ∧ l'.Perm l := by
  rcases l with _ | ⟨a, l⟩
  · exact ⟨[], false, rfl, List.Pairwise.nil, List.Perm.refl _⟩
  · obtain ⟨A, x, B, hl, hmin⟩ := exists_min_split key (List.cons_ne_nil a l)
    have hA : A.length ≤ (a :: l).length := by rw [hl]; simp
    exact outerLoop_spec key _ [] (a :: l) A B x false
      ⟨by simpa using hnd, List.Pairwise.nil, by simp⟩ hl hmin (by omega)

/-- **Records sorted by their nodes**, each node a number and a record. -/
theorem moveSort_zip {ρ : Type*} [DecidableEq ρ] (key : ρ → α) (l : List ρ) :
    ∃ l' ch, moveSort (fun n : ℕ × ρ => key n.2) ((List.range l.length).zip l) = some (l', ch) ∧
      SortedBy key (l'.map Prod.snd) ∧ (l'.map Prod.snd).Perm l := by
  have hnd : ((List.range l.length).zip l).Nodup := by
    refine List.Nodup.of_map Prod.fst ?_
    rw [List.map_fst_zip (by simp)]
    exact List.nodup_range
  have hsnd : ((List.range l.length).zip l).map Prod.snd = l := List.map_snd_zip (by simp)
  obtain ⟨l', ch, hl, hsort, hperm⟩ := moveSort_sorted (fun n : ℕ × ρ => key n.2) hnd
  refine ⟨l', ch, hl, List.pairwise_map.mpr hsort, ?_⟩
  have hmap := hperm.map Prod.snd
  rwa [hsnd] at hmap

end Common

end Radare
