import Mathlib.Data.List.Infix
import Mathlib.Data.List.Nodup
import Mathlib.Tactic.Common
/-!
# Searches down to a depth

A search that goes on from every vertex to the next ones, no deeper than a
number of vertices, and not on behind a vertex where it was before. What it
comes to first on a long way it does not go on from, so it need not come to
all that is near (`search_complete_iff`).
-/

namespace Radare

namespace Common

variable {α : Type*} [DecidableEq α] {next : α → List α} {x y : α} {left k r : ℕ}
variable {seen : List (α × ℕ)} {v : α × ℕ} {ys : List α}

/-- The vertices, the last first, each with the depth that was left when the
search came to it. -/
def search (next : α → List α) : ℕ → α → List (α × ℕ) → List (α × ℕ)
  | 0, _, seen => seen
  | left + 1, x, seen =>
    if x ∈ seen.map Prod.fst then seen
    else (next x).foldl (fun seen y => search next left y seen) ((x, left + 1) :: seen)

/-- The search from some vertices, one after the other. -/
def searchEach (next : α → List α) (left : ℕ) (ys : List α) (seen : List (α × ℕ)) :
    List (α × ℕ) :=
  ys.foldl (fun seen y => search next left y seen) seen

theorem search_seen (h : x ∈ seen.map Prod.fst) : search next left x seen = seen := by
  cases left with
  | zero => rfl
  | succ left => rw [search, if_pos h]

theorem search_new (h : x ∉ seen.map Prod.fst) :
    search next (left + 1) x seen = searchEach next left (next x) ((x, left + 1) :: seen) := by
  rw [search, if_neg h]
  rfl

@[simp] theorem searchEach_nil : searchEach next left [] seen = seen := rfl

@[simp] theorem searchEach_cons :
    searchEach next left (y :: ys) seen = searchEach next left ys (search next left y seen) := rfl

/-- A vertex after a number of edges. -/
inductive Reach (next : α → List α) (x : α) : ℕ → α → Prop
  | refl : Reach next x 0 x
  | step {k : ℕ} {y z : α} : Reach next x k y → z ∈ next y → Reach next x (k + 1) z

/-! ## What one search adds -/

/-- What holds of searches from one vertex, holds of those from some. -/
theorem searchEach_induction {P : List (α × ℕ) → Prop}
    (hstep : ∀ y ∈ ys, ∀ seen, P seen → P (search next left y seen)) (hseen : P seen) :
    P (searchEach next left ys seen) := by
  induction ys generalizing seen with
  | nil => exact hseen
  | cons y ys ih =>
    rw [searchEach_cons]
    exact ih (fun z hz => hstep z (List.mem_cons_of_mem y hz))
      (hstep y List.mem_cons_self seen hseen)

/-- What was seen stays seen. -/
theorem suffix_search : seen <:+ search next left x seen := by
  induction left generalizing x seen with
  | zero => exact List.suffix_refl seen
  | succ left ih =>
    by_cases hx : x ∈ seen.map Prod.fst
    · rw [search_seen hx]
    · rw [search_new hx]
      exact searchEach_induction (fun y _ seen' h => h.trans ih)
        (List.suffix_cons (x, left + 1) seen)

theorem suffix_searchEach : seen <:+ searchEach next left ys seen :=
  searchEach_induction (fun _ _ _ h => h.trans suffix_search) (List.suffix_refl seen)

theorem mem_search_of_mem (h : v ∈ seen) : v ∈ search next left x seen :=
  suffix_search.subset h

theorem mem_map_search_of_mem (h : y ∈ seen.map Prod.fst) :
    y ∈ (search next left x seen).map Prod.fst := by
  obtain ⟨v, hv, rfl⟩ := List.mem_map.mp h
  exact List.mem_map_of_mem (mem_search_of_mem hv)

theorem mem_map_searchEach_of_mem (h : y ∈ seen.map Prod.fst) :
    y ∈ (searchEach next left ys seen).map Prod.fst := by
  obtain ⟨v, hv, rfl⟩ := List.mem_map.mp h
  exact List.mem_map_of_mem (suffix_searchEach.subset hv)

/-- The search comes to its vertex. -/
theorem self_mem_search (hleft : 0 < left) : x ∈ (search next left x seen).map Prod.fst := by
  obtain ⟨left, rfl⟩ := Nat.exists_eq_succ_of_ne_zero hleft.ne'
  by_cases hx : x ∈ seen.map Prod.fst
  · exact mem_map_search_of_mem hx
  · rw [search_new hx]
    exact List.mem_map_of_mem (suffix_searchEach.subset List.mem_cons_self)

theorem mem_searchEach_self (hleft : 0 < left) (hy : y ∈ ys) :
    y ∈ (searchEach next left ys seen).map Prod.fst := by
  induction ys generalizing seen with
  | nil => cases hy
  | cons z ys ih =>
    rw [searchEach_cons]
    rcases List.mem_cons.mp hy with rfl | hy
    · exact mem_map_searchEach_of_mem (self_mem_search hleft)
    · exact ih hy

/-- **No vertex is there twice.** -/
theorem search_nodup (h : (seen.map Prod.fst).Nodup) :
    ((search next left x seen).map Prod.fst).Nodup := by
  induction left generalizing x seen with
  | zero => exact h
  | succ left ih =>
    by_cases hx : x ∈ seen.map Prod.fst
    · rwa [search_seen hx]
    · rw [search_new hx]
      refine searchEach_induction (P := fun seen => (seen.map Prod.fst).Nodup)
        (fun y _ seen' h => ih h) ?_
      rw [List.map_cons, List.nodup_cons]
      exact ⟨hx, h⟩

/-- A vertex that is new is the first one, or comes from one that had one
depth more left. -/
def Parented (next : α → List α) (seen : List (α × ℕ)) (v : α × ℕ) : Prop :=
  ∃ z, (z, v.2 + 1) ∈ seen ∧ v.1 ∈ next z

omit [DecidableEq α] in
theorem Parented.mono {seen' : List (α × ℕ)} (h : Parented next seen v) (hle : seen ⊆ seen') :
    Parented next seen' v := by
  obtain ⟨z, hz, hmem⟩ := h
  exact ⟨z, hle hz, hmem⟩

theorem mem_search (hv : v ∈ search next left x seen) :
    v ∈ seen ∨ v = (x, left) ∨ Parented next (search next left x seen) v := by
  induction left generalizing x seen v with
  | zero => exact Or.inl hv
  | succ left ih =>
    by_cases hx : x ∈ seen.map Prod.fst
    · rw [search_seen hx] at hv
      exact Or.inl hv
    · rw [search_new hx] at hv ⊢
      -- over the next vertices, which all have `x` for a parent
      have hall : ∀ ys : List α, (∀ y ∈ ys, y ∈ next x) → ∀ seen' : List (α × ℕ),
          (x, left + 1) ∈ seen' → v ∈ searchEach next left ys seen' →
            v ∈ seen' ∨ Parented next (searchEach next left ys seen') v := by
        intro ys
        induction ys with
        | nil => exact fun _ _ _ hv => Or.inl hv
        | cons y ys ihys =>
          intro hys seen' hx' hv'
          rw [searchEach_cons] at hv' ⊢
          rcases ihys (fun z hz => hys z (List.mem_cons_of_mem y hz)) _ (mem_search_of_mem hx')
            hv' with hsearch | hparent
          · rcases ih hsearch with hold | rfl | hparent
            · exact Or.inl hold
            · refine Or.inr ⟨x, suffix_searchEach.subset (mem_search_of_mem hx'), ?_⟩
              exact hys y List.mem_cons_self
            · exact Or.inr (hparent.mono suffix_searchEach.subset)
          · exact Or.inr hparent
      rcases hall (next x) (fun _ h => h) _ List.mem_cons_self hv with hold | hparent
      · rcases List.mem_cons.mp hold with rfl | hold
        · exact Or.inr (Or.inl rfl)
        · exact Or.inl hold
      · exact Or.inr (Or.inr hparent)

/-- The search goes on from every vertex that is new, if some depth is
left. -/
theorem search_expands (hv : v ∈ search next left x seen) (hnew : v ∉ seen) (hleft : 1 < v.2)
    (hy : y ∈ next v.1) : y ∈ (search next left x seen).map Prod.fst := by
  induction left generalizing x seen with
  | zero => exact absurd hv hnew
  | succ left ih =>
    by_cases hx : x ∈ seen.map Prod.fst
    · rw [search_seen hx] at hv
      exact absurd hv hnew
    · rw [search_new hx] at hv ⊢
      by_cases hself : v = (x, left + 1)
      · subst hself
        exact mem_searchEach_self (Nat.lt_of_succ_lt_succ hleft) hy
      · have hnew' : v ∉ (x, left + 1) :: seen := fun hmem =>
          (List.mem_cons.mp hmem).elim hself hnew
        generalize (x, left + 1) :: seen = seen' at hv hnew' ⊢
        generalize next x = ys at hv ⊢
        induction ys generalizing seen' with
        | nil => exact absurd hv hnew'
        | cons z ys ihys =>
          rw [searchEach_cons] at hv ⊢
          -- `v` is new in the search from `z`, or in those behind it
          by_cases hfirst : v ∈ search next left z seen'
          · exact mem_map_searchEach_of_mem (ih hfirst hnew')
          · exact ihys _ hfirst hv

/-- Every vertex that is new has some depth left. -/
theorem search_left {d : ℕ} (hd : left ≤ d) (h : ∀ v ∈ seen, 0 < v.2 ∧ v.2 ≤ d) :
    ∀ v ∈ search next left x seen, 0 < v.2 ∧ v.2 ≤ d := by
  induction left generalizing x seen with
  | zero => exact h
  | succ left ih =>
    by_cases hx : x ∈ seen.map Prod.fst
    · rwa [search_seen hx]
    · rw [search_new hx]
      refine searchEach_induction (P := fun seen => ∀ v ∈ seen, 0 < v.2 ∧ v.2 ≤ d)
        (fun y _ seen' h => ih (Nat.le_of_succ_le hd) h) ?_
      rintro v hv
      rcases List.mem_cons.mp hv with rfl | hv
      · exact ⟨Nat.succ_pos left, hd⟩
      · exact h v hv

/-! ## From an empty start -/

section Start

variable {d : ℕ}

theorem left_of_mem_search (hv : v ∈ search next d x []) : 0 < v.2 ∧ v.2 ≤ d :=
  search_left (Nat.le_refl d) (fun _ hnil => by cases hnil) v hv

/-- What the search comes to is as many edges away as it has used up. -/
theorem reach_of_mem_search (hv : v ∈ search next d x []) : Reach next x (d - v.2) v.1 := by
  induction hk : d - v.2 generalizing v with
  | zero =>
    have hleft := left_of_mem_search hv
    rcases mem_search hv with hnil | rfl | ⟨z, hz, -⟩
    · cases hnil
    · exact Reach.refl
    · have hparent := (left_of_mem_search hz).2
      omega
  | succ k ih =>
    rcases mem_search hv with hnil | rfl | ⟨z, hz, hmem⟩
    · cases hnil
    · omega
    · exact (ih hz (by dsimp only; omega)).step hmem

/-- A vertex to which the search came with a last bit of depth, though it is
near, is spared if what follows it also follows vertices behind which the
search went on. -/
def Spared (next : α → List α) (d : ℕ) (x : α) : Prop :=
  ∀ v ∈ search next d x [], v.2 = 1 → ∀ k, k + 1 < d → Reach next x k v.1 →
    ∀ y ∈ next v.1, y = x ∨ ∃ w ∈ search next d x [], 1 < w.2 ∧ y ∈ next w.1

/-- **The search comes to all that is near exactly if the vertices to which
it came last are spared.** -/
theorem search_complete_iff :
    (∀ k y, k < d → Reach next x k y → y ∈ (search next d x []).map Prod.fst) ↔
      Spared next d x := by
  constructor
  · intro hall v hv hone k hk hreach y hy
    -- `y` is near too, so that the search came to it from somewhere
    obtain ⟨u, hu, rfl⟩ := List.mem_map.mp (hall (k + 1) y hk (hreach.step hy))
    rcases mem_search hu with hnil | rfl | ⟨z, hz, hmem⟩
    · cases hnil
    · exact Or.inl rfl
    · exact Or.inr ⟨(z, u.2 + 1), hz, Nat.succ_lt_succ (left_of_mem_search hu).1, hmem⟩
  · intro hspared k y hk hreach
    induction hreach with
    | refl => exact self_mem_search hk
    -- the search has been at `y`: it went on from there, or had come to its end
    | @step k y z hreach hz ih =>
      obtain ⟨v, hv, rfl⟩ := List.mem_map.mp (ih (Nat.lt_of_succ_lt hk))
      have hexpands : ∀ w ∈ search next d x [], 1 < w.2 → z ∈ next w.1 →
          z ∈ (search next d x []).map Prod.fst := fun w hw hleft hmem =>
        search_expands hw List.not_mem_nil hleft hmem
      rcases Nat.lt_or_eq_of_le (Nat.succ_le_of_lt (left_of_mem_search hv).1) with hleft | hone
      · exact hexpands v hv hleft hz
      · rcases hspared v hv hone.symm k hk hreach z hz with rfl | ⟨w, hw, hleft, hmem⟩
        · exact self_mem_search (Nat.zero_lt_of_lt hk)
        · exact hexpands w hw hleft hmem

end Start

end Common

end Radare
