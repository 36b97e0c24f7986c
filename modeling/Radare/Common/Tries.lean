import Radare.Common.Marks
/-!
# Attempts at a word, one behind the other

A matcher that has the first `k` entries of its word, and begins again behind
an entry that is not the next one, puts a mark in the place of each word that
it has the whole of (`tries`). With the word put down for the marks it is the
text again (`rendered_tries`). These are the marks of the scan just where no
word begins inside of an attempt that breaks off (`tries_eq_marked_iff`).

`slidden` is what comes out where a mark is put down one entry too low: the
entry in front of the mark is gone, and the last one of the word is kept. That
makes no difference only where both are one entry, and all that is put down
is that entry too (`slidden_iff`). As the matcher keeps no such entry in front
of a word, it is right for every text that is put down only if the word is
nowhere (`slidden_tries_iff`).
-/

namespace Radare

namespace Common

variable {α : Type*}

/-- Marks put down one entry too low, with the entry that may still go. -/
def slide (e : α) : α → List (Option α) → List (Option α)
  | x, [] => [some x]
  | x, some c :: p => some x :: slide e c p
  | _, none :: p => none :: slide e e p

/-- Marks put down one entry too low: there is none in front of the first. -/
def slidden (e : α) : List (Option α) → Option (List (Option α))
  | [] => some []
  | none :: _ => none
  | some c :: p => some (slide e c p)

/-- In front of each mark is the entry that the word ends with, and what is
put down is made of it. -/
def Fronted (e : α) (rep : List α) : Option α → List (Option α) → Prop
  | _, [] => True
  | _, some c :: p => Fronted e rep (some c) p
  | o, none :: p => o = some e ∧ (∀ z ∈ rep, z = e) ∧ Fronted e rep (some e) p

/-- The marks of the matcher, once it has `k` entries of the word. -/
def tries [DecidableEq α] (word : List α) : ℕ → List α → List (Option α)
  | k, [] => (word.take k).map some
  | k, c :: l =>
    if word[k]? = some c then
      if k + 1 = word.length then none :: tries word 0 l else tries word (k + 1) l
    else (word.take k).map some ++ some c :: tries word 0 l

/-- The word begins nowhere in an attempt that breaks off. -/
def Unbroken [DecidableEq α] (word : List α) : ℕ → List α → Prop
  | _, [] => True
  | k, c :: l =>
    if word[k]? = some c then
      if k + 1 = word.length then Unbroken word 0 l else Unbroken word (k + 1) l
    else (∀ j ≤ k, ¬word <+: (word.take k ++ [c]).drop j ++ l) ∧ Unbroken word 0 l

variable {word rep l r : List α} {p q : List (Option α)} {e x y c : α} {k n : ℕ} {o : Option α}

/-! ## Marks one entry too low -/

/-- A text put down in front of two others, and one entry in front of it. -/
theorem append_eq_cons_append_iff :
    rep ++ l = x :: (rep ++ r) ↔ (∀ z ∈ rep, z = x) ∧ l = x :: r := by
  induction rep generalizing x with
  | nil => simp
  | cons a rep ih =>
    rw [List.cons_append, List.cons_append, List.cons.injEq, ih, List.forall_mem_cons, and_assoc]
    refine and_congr_right ?_
    rintro rfl
    rfl

/-- What is kept is the last entry of the word, and is to be the one that was
in front. -/
theorem eq_of_slide (h : rendered rep (slide e e p) = y :: rendered rep p) : e = y := by
  induction p with
  | nil => exact (List.cons.inj h).1
  | cons o p ih =>
    cases o with
    | none => exact ih (append_eq_cons_append_iff.mp h).2
    | some c => exact (List.cons.inj h).1

theorem slide_iff :
    rendered rep (slide e x p) = x :: rendered rep p ↔ Fronted e rep (some x) p := by
  induction p generalizing x with
  | nil => exact iff_of_true rfl trivial
  | cons o p ih =>
    cases o with
    | some c =>
      rw [slide, rendered, rendered, List.cons.injEq, and_iff_right rfl, ih]
      rfl
    | none =>
      rw [slide, rendered, rendered, append_eq_cons_append_iff, Fronted, Option.some.injEq]
      constructor
      · rintro ⟨hrep, h⟩
        obtain rfl := eq_of_slide h
        exact ⟨rfl, hrep, ih.mp h⟩
      · rintro ⟨rfl, hrep, h⟩
        exact ⟨hrep, ih.mpr h⟩

/-- **When marks one entry too low** make no difference. -/
theorem slidden_iff :
    (slidden e p).map (rendered rep) = some (rendered rep p) ↔ Fronted e rep none p := by
  cases p with
  | nil => exact iff_of_true rfl trivial
  | cons o p =>
    cases o with
    | none => exact iff_of_false nofun nofun
    | some c => exact Option.some_inj.trans slide_iff

/-- What is kept goes on to the next entry. -/
theorem slide_map_some (l : List α) :
    slide e x (l.map some ++ some c :: p) = some x :: (l.map some ++ slide e c p) := by
  induction l generalizing x with
  | nil => rfl
  | cons d l ih => rw [List.map_cons, List.cons_append, slide, ih, List.cons_append]

/-- What is in front of an entry that is kept stays. -/
theorem slidden_append (l : List α) :
    slidden e ((l ++ [x]).map some ++ p) = some (l.map some ++ slide e x p) := by
  cases l with
  | nil => rfl
  | cons d l =>
    rw [List.map_append, List.append_assoc]
    exact congrArg some (slide_map_some l)

theorem fronted_map_some (l : List α) :
    Fronted e rep o (l.map some ++ some c :: p) ↔ Fronted e rep (some c) p := by
  induction l generalizing o with
  | nil => rfl
  | cons d l ih => exact ih

theorem slidden_map_some (l : List α) : slidden e (l.map some) = some (l.map some) := by
  cases l with
  | nil => rfl
  | cons c l =>
    have hslide : ∀ x, slide e x (l.map some) = some x :: l.map some := by
      induction l with
      | nil => intro x; rfl
      | cons d l ih => intro x; rw [List.map_cons, slide, ih]
    exact congrArg some (hslide c)

/-- What is put down for a mark with its entry in front. -/
theorem forall_mem_of_fronted (h : Fronted e rep o p) (hmem : none ∈ p) : ∀ z ∈ rep, z = e := by
  induction p generalizing o with
  | nil => exact absurd hmem List.not_mem_nil
  | cons o' p ih =>
    cases o' with
    | none => exact h.2.1
    | some c => exact ih h ((List.mem_cons.mp hmem).resolve_left nofun)

/-! ## The matcher -/

theorem take_succ_of_getElem? (h : word[k]? = some c) : word.take (k + 1) = word.take k ++ [c] := by
  rw [List.take_add_one, h]
  rfl

theorem none_not_mem_map (l : List α) : none ∉ l.map some := by
  intro hmem
  obtain ⟨c, -, hc⟩ := List.mem_map.mp hmem
  cases hc

variable [DecidableEq α]

theorem rendered_tries : rendered word (tries word k l) = word.take k ++ l := by
  induction l generalizing k with
  | nil => rw [tries, rendered_map_some, List.append_nil]
  | cons c l ih =>
    rw [tries]
    split_ifs with hc hlast
    · have hword : word.take k ++ [c] = word := by
        rw [← take_succ_of_getElem? hc, hlast, List.take_length]
      rw [rendered, ih, List.take_zero, List.nil_append, ← List.singleton_append,
        ← List.append_assoc, hword]
    · rw [ih, take_succ_of_getElem? hc, List.append_assoc, List.singleton_append]
    · rw [rendered_append, rendered_map_some, rendered, ih, List.take_zero, List.nil_append]

theorem isPrefixOf_eq_false_iff : word.isPrefixOf l = false ↔ ¬word <+: l := by
  rw [← Bool.not_eq_true, List.isPrefixOf_iff_prefix]

/-- The scan finds a word in front of it. -/
theorem marked_word (hword : word ≠ []) :
    marked word.isPrefixOf word.length 0 (word ++ l) =
      none :: marked word.isPrefixOf word.length 0 l := by
  obtain ⟨d, w, rfl⟩ := List.exists_cons_of_ne_nil hword
  have hhit : (d :: w).isPrefixOf (d :: (w ++ l)) = true :=
    List.isPrefixOf_iff_prefix.mpr (List.prefix_append (d :: w) l)
  have hskip : (w ++ l).drop ((d :: w).length - 1) = l := List.drop_left
  rw [List.cons_append, marked, if_pos hhit, marked_drop, hskip]

/-- **The matcher finds all** that is to be found, just where no word begins in an
attempt that breaks off. -/
theorem tries_eq_marked_iff (hk : k < word.length) :
    tries word k l = marked word.isPrefixOf word.length 0 (word.take k ++ l) ↔
      Unbroken word k l := by
  have hpos : 0 < word.length := Nat.zero_lt_of_lt hk
  have hword : word ≠ [] := List.ne_nil_of_length_pos hpos
  induction l generalizing k with
  | nil =>
    have hshort : ∀ j < (word.take k).length,
        word.isPrefixOf ((word.take k).drop j ++ []) = false := by
      intro j _
      rw [isPrefixOf_eq_false_iff]
      intro hfront
      have hle := hfront.length_le
      rw [List.append_nil, List.length_drop, List.length_take] at hle
      omega
    have hend := (marked_append_iff (n := word.length)).mpr ⟨hshort, rfl⟩
    rw [List.append_nil] at hend
    refine iff_of_true ?_ trivial
    rw [tries, List.append_nil, hend]
    unfold marked
    rw [List.append_nil]
  | cons c l ih =>
    have hnext := ih hpos
    rw [List.take_zero, List.nil_append] at hnext
    rw [tries, Unbroken]
    split_ifs with hc hlast
    · have hsplit : word.take k ++ c :: l = word ++ l := by
        rw [← List.singleton_append, ← List.append_assoc, ← take_succ_of_getElem? hc, hlast,
          List.take_length]
      rw [hsplit, marked_word hword, List.cons.injEq, and_iff_right rfl]
      exact hnext
    · have hmore := ih (k := k + 1) (by omega)
      rwa [take_succ_of_getElem? hc, List.append_assoc, List.singleton_append] at hmore
    · have hlen : (word.take k ++ [c]).length = k + 1 := by
        rw [List.length_append, List.length_take_of_le hk.le, List.length_singleton]
      have hsplit : word.take k ++ c :: l = (word.take k ++ [c]) ++ l := by simp
      have hkept : (word.take k).map some ++ some c :: tries word 0 l =
          (word.take k ++ [c]).map some ++ tries word 0 l := by simp
      rw [hsplit, hkept, eq_comm, marked_append_iff, hlen]
      refine and_congr ?_ (eq_comm.trans hnext)
      simp only [Nat.lt_succ_iff, isPrefixOf_eq_false_iff]

/-- The one entry that its word is made of is in front of no mark of the
matcher: it begins an attempt, which is over at another entry. -/
theorem not_mem_of_fronted_tries (hk : k < word.length) (ho : o ≠ some e)
    (h : Fronted e word o (tries word k l)) : none ∉ tries word k l := by
  induction l generalizing k o with
  | nil => exact none_not_mem_map _
  | cons c l ih =>
    rw [tries] at h ⊢
    split_ifs at h ⊢ with hc hlast
    · exact absurd h.1 ho
    · exact ih (by omega) ho h
    · have hrest := (fronted_map_some _).mp h
      intro hmem
      have hbehind : none ∈ tries word 0 l := by
        rcases List.mem_append.mp hmem with hmem | hmem
        · exact absurd hmem (none_not_mem_map _)
        · exact (List.mem_cons.mp hmem).resolve_left nofun
      have hce : some c ≠ some e := by
        rw [← forall_mem_of_fronted hrest hbehind _ (List.getElem_mem hk),
          ← List.getElem?_eq_getElem hk]
        exact Ne.symm hc
      exact ih (by omega) hce hrest hbehind

/-- **Marks one entry too low are the right ones** only of a text without the
word. -/
theorem slidden_tries_iff (hword : word ≠ []) :
    slidden e (tries word 0 l) = some (marked word.isPrefixOf word.length 0 l) ↔
      ¬word <:+: l := by
  have htries : rendered word (tries word 0 l) = l := rendered_tries
  have hmarked : rendered word (marked word.isPrefixOf word.length 0 l) = l :=
    rendered_marked (fun _ => List.isPrefixOf_iff_prefix.mp) hword
  have hkept : none ∉ tries word 0 l → tries word 0 l = l.map some := fun h => by
    rw [eq_map_some_of_not_mem word h, htries]
  constructor
  · intro h hin
    have hfront : Fronted e word none (tries word 0 l) := by
      rw [← slidden_iff, h, Option.map_some, htries, hmarked]
    have hstart : (none : Option α) ≠ some e := nofun
    have hnone := not_mem_of_fronted_tries (List.length_pos_iff.mpr hword) hstart hfront
    rw [hkept hnone, slidden_map_some] at h
    have hmem := mem_none_marked (n := word.length)
      (fun _ => List.isPrefixOf_iff_prefix.mpr) hword hin
    rw [← Option.some.inj h] at hmem
    exact none_not_mem_map l hmem
  · intro hout
    have hnone : none ∉ tries word 0 l := fun hmem => hout (htries ▸ infix_of_mem_none hmem)
    have hnone' : none ∉ marked word.isPrefixOf word.length 0 l := fun hmem =>
      hout (hmarked ▸ infix_of_mem_none hmem)
    rw [hkept hnone, slidden_map_some, eq_map_some_of_not_mem word hnone', hmarked]

end Common

end Radare
