import Mathlib.Data.Int.Notation
import Mathlib.Data.List.Basic
import Mathlib.Tactic.Common
/-!
# Overlays

A block put over a list at a place, as `memcpy` does it. The entries in the
block are those of the block and the others are left
(`getElem?_overlay`); entries put down one behind the other are one block
(`set_overlay`). Put down where it need not have its place, a block is so, or
not at all (`overlayAt_eq`).
-/

namespace Radare

namespace Common

variable {α : Type*} {l block : List α} {p x : ℕ} {a : α}

/-- A list with a block put over it. -/
def overlay (l : List α) (p : ℕ) (block : List α) : List α :=
  l.take p ++ block ++ l.drop (p + block.length)

theorem overlay_nil (l : List α) (p : ℕ) : overlay l p [] = l := by
  unfold overlay
  rw [List.append_nil, List.length_nil, Nat.add_zero, List.take_append_drop]

theorem length_overlay (hle : p + block.length ≤ l.length) :
    (overlay l p block).length = l.length := by
  unfold overlay
  simp only [List.length_append, List.length_take, List.length_drop]
  omega

/-- An entry of the list with the block over it. -/
theorem getElem?_overlay (hle : p + block.length ≤ l.length) :
    (overlay l p block)[x]? = if p ≤ x ∧ x < p + block.length then block[x - p]? else l[x]? := by
  have htake : (l.take p).length = p := List.length_take_of_le (by omega)
  unfold overlay
  -- in front of the block, in it, or behind
  rcases Nat.lt_or_ge x p with hlt | hge
  · rw [if_neg (by omega), List.append_assoc, List.getElem?_append_left (by omega),
      List.getElem?_take_of_lt hlt]
  rw [List.append_assoc, List.getElem?_append_right (by omega), htake]
  split_ifs with hin
  · rw [List.getElem?_append_left (by omega)]
  · rw [List.getElem?_append_right (by omega), List.getElem?_drop]
    congr 1
    omega

/-- Away from the block the list is as it was. -/
theorem getElem?_overlay_apart (hle : p + block.length ≤ l.length)
    (hx : x < p ∨ p + block.length ≤ x) : (overlay l p block)[x]? = l[x]? := by
  rw [getElem?_overlay hle, if_neg (by omega)]

/-- **One entry more**, behind the block. -/
theorem set_overlay (hlt : p + block.length < l.length) (a : α) :
    (overlay l p block).set (p + block.length) a = overlay l p (block ++ [a]) := by
  have hfront : (l.take p ++ block).length = p + block.length := by
    rw [List.length_append, List.length_take_of_le (by omega)]
  have hdrop : l.drop (p + block.length) =
      l[p + block.length] :: l.drop (p + block.length + 1) := List.drop_eq_getElem_cons hlt
  unfold overlay
  rw [hdrop, List.set_append_right _ _ (Nat.le_of_eq hfront), hfront, Nat.sub_self,
    List.set_cons_zero, List.length_append, List.length_singleton, ← Nat.add_assoc]
  simp

/-- An entry put down first, behind where the block is to be. -/
theorem overlay_set (hlt : p + block.length < l.length) (a : α) :
    overlay (l.set (p + block.length) a) p block = overlay l p (block ++ [a]) := by
  rw [← set_overlay hlt]
  have htake : (l.set (p + block.length) a).take p = l.take p := by
    rw [List.take_set_of_le (by omega)]
  have hdrop : (l.set (p + block.length) a).drop (p + block.length) =
      (l.drop (p + block.length)).set 0 a := by
    rw [List.drop_set]
    simp
  have hfront : (l.take p ++ block).length = p + block.length := by
    rw [List.length_append, List.length_take_of_le (by omega)]
  unfold overlay
  rw [htake, hdrop, List.set_append_right _ _ (Nat.le_of_eq hfront), hfront, Nat.sub_self]

theorem overlay_singleton (hlt : p < l.length) (a : α) : overlay l p [a] = l.set p a := by
  have hset := set_overlay (p := p) (show p + ([] : List α).length < l.length from hlt) a
  rw [overlay_nil, List.length_nil, Nat.add_zero, List.nil_append] at hset
  exact hset.symm

/-- **Two blocks, one behind the other**, are one. -/
theorem overlay_append {next : List α} (hle : p + block.length ≤ l.length) :
    overlay (overlay l p block) (p + block.length) next = overlay l p (block ++ next) := by
  have hfront : (l.take p ++ block).length = p + block.length := by
    rw [List.length_append, List.length_take_of_le (by omega)]
  have htake : (overlay l p block).take (p + block.length) = l.take p ++ block := by
    rw [overlay, ← hfront, List.take_left]
  have hdrop : (overlay l p block).drop (p + block.length + next.length) =
      l.drop (p + (block ++ next).length) := by
    rw [overlay, ← List.drop_drop, List.drop_left' hfront, List.drop_drop, List.length_append,
      Nat.add_assoc]
  rw [overlay, htake, hdrop, overlay, List.append_assoc (l.take p)]

/-- A block put over a list from an integer on; none of it beside the list. -/
def overlayAt (l : List α) (p : ℤ) (block : List α) : Option (List α) :=
  if block.length = 0 then some l
  else if 0 ≤ p ∧ p + block.length ≤ l.length then some (overlay l p.toNat block)
  else none

theorem overlayAt_eq {p : ℤ} (hpos : 0 ≤ p) (hle : p + block.length ≤ l.length) :
    overlayAt l p block = some (overlay l p.toNat block) := by
  unfold overlayAt
  split_ifs with hnil hin
  · rw [List.length_eq_zero_iff.mp hnil, overlay_nil]
  · rfl
  · exact absurd ⟨hpos, hle⟩ hin

/-- In front of a list nothing is put down. -/
theorem length_of_overlayAt {p : ℤ} {l' : List α} (hneg : p < 0)
    (h : overlayAt l p block = some l') : block.length = 0 := by
  unfold overlayAt at h
  split_ifs at h with hnil hin
  · exact hnil
  · omega

/-- A block put over another one of its length. -/
theorem overlay_between {block old : List α} (front back : List α) (hlen : old.length = block.length) :
    overlay (front ++ (old ++ back)) front.length block = front ++ (block ++ back) := by
  rw [overlay, List.take_left, ← List.drop_drop, List.drop_left, ← hlen, List.drop_left,
    List.append_assoc]

end Common

end Radare
