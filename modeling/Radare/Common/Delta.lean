import Mathlib.Data.List.GetD
import Mathlib.Data.List.Zip
import Mathlib.Tactic.Common
/-!
# Deltas

A list told as pieces of another: each piece is differences, which are added
to the old symbols from a place on, then symbols as they are, and how far the
place goes on behind them.

The differences of two stretches give the new one back (`addOld_diff`), and a
description of the front of a list can be carried on by a piece from wherever
in the old list (`Describes.concat`).
-/

namespace Radare

namespace Common

variable {α : Type*} {old new diff : List α} {pos : ℤ} {n place : ℕ}

/-- A piece of a delta. -/
structure Piece (α : Type*) where
  diff : List α
  extra : List α
  /-- How far the place in the old list goes on. -/
  seek : ℤ

variable {ps qs : List (Piece α)} {p : Piece α}

/-- The length of what the piece gives. -/
def Piece.size (p : Piece α) : ℕ := p.diff.length + p.extra.length

/-- Differences added to the old symbols, where there are such. -/
def addOld [Add α] (old : List α) : ℤ → List α → List α
  | _, [] => []
  | pos, d :: diff =>
    (if 0 ≤ pos then (old[pos.toNat]?).elim d (d + ·) else d) :: addOld old (pos + 1) diff

theorem length_addOld [Add α] : (addOld old pos diff).length = diff.length := by
  induction diff generalizing pos with
  | nil => rfl
  | cons d diff ih => rw [addOld, List.length_cons, ih, List.length_cons]

/-- What the pieces give, from a place in the old list on. -/
def rebuild [Add α] (old : List α) : ℤ → List (Piece α) → List α
  | _, [] => []
  | pos, p :: ps =>
    addOld old pos p.diff ++ p.extra ++ rebuild old (pos + p.diff.length + p.seek) ps

/-- The place behind the pieces. -/
def placeBehind : ℤ → List (Piece α) → ℤ
  | pos, [] => pos
  | pos, p :: ps => placeBehind (pos + p.diff.length + p.seek) ps

theorem rebuild_append [Add α] :
    rebuild old pos (ps ++ qs) = rebuild old pos ps ++ rebuild old (placeBehind pos ps) qs := by
  induction ps generalizing pos with
  | nil => rfl
  | cons p ps ih =>
    rw [List.cons_append, rebuild, ih, rebuild, placeBehind, List.append_assoc _ (rebuild _ _ ps)]

theorem placeBehind_append :
    placeBehind pos (ps ++ qs) = placeBehind (placeBehind pos ps) qs := by
  induction ps generalizing pos with
  | nil => rfl
  | cons p ps ih => rw [List.cons_append, placeBehind, ih, placeBehind]

/-- The length of what the pieces give. -/
def totalSize : List (Piece α) → ℕ
  | [] => 0
  | p :: ps => p.size + totalSize ps

theorem length_rebuild [Add α] : (rebuild old pos ps).length = totalSize ps := by
  induction ps generalizing pos with
  | nil => rfl
  | cons p ps ih =>
    rw [rebuild, List.length_append, List.length_append, length_addOld, ih, totalSize, Piece.size]

/-- **Differences give the new symbols back.** -/
theorem addOld_diff [Add α] [Sub α] (hsub : ∀ a b : α, a - b + b = a)
    (hold : place + n ≤ old.length) (hnew : n ≤ new.length) :
    addOld old place (List.zipWith (· - ·) (new.take n) (old.drop place)) = new.take n := by
  induction n generalizing place new with
  | zero => rw [List.take_zero, List.zipWith_nil_left]; rfl
  | succ n ih =>
    obtain ⟨a, new', rfl⟩ := List.exists_cons_of_length_pos (show 0 < new.length by omega)
    have hdrop : old.drop place = old[place] :: old.drop (place + 1) :=
      List.drop_eq_getElem_cons (by omega)
    have hpos : (0 : ℤ) ≤ place := Int.natCast_nonneg place
    have hget : old[(place : ℤ).toNat]? = some old[place] := List.getElem?_eq_getElem (by omega)
    have hnext : (place : ℤ) + 1 = (place + 1 : ℕ) := rfl
    have hnew' : n ≤ new'.length := by
      rw [List.length_cons] at hnew
      omega
    have hrest := ih (show place + 1 + n ≤ old.length by omega) hnew'
    rw [List.take_succ_cons, hdrop, List.zipWith_cons_cons, addOld, if_pos hpos, hget, hnext, hrest,
      Option.elim_some, hsub]

/-- The pieces give the front of a list, and end at a place of the old one. -/
structure Describes [Add α] (old new : List α) (front : ℕ) (pos : ℤ) (ps : List (Piece α)) :
    Prop where
  rebuilt : rebuild old 0 ps = new.take front
  place : placeBehind 0 ps = pos

/-- **A piece more.** -/
theorem Describes.concat [Add α] [Sub α] (hsub : ∀ a b : α, a - b + b = a) {front stop len : ℕ}
    {pos' : ℤ} (h : Describes old new front place ps) (hold : place + len ≤ old.length)
    (hle : front + len ≤ stop) (hstop : stop ≤ new.length)
    (hdiff : p.diff = List.zipWith (· - ·) ((new.drop front).take len) (old.drop place))
    (hextra : p.extra = (new.drop (front + len)).take (stop - (front + len)))
    (hseek : p.seek = pos' - (place + len)) : Describes old new stop pos' (ps ++ [p]) where
  rebuilt := by
    have hnew : len ≤ (new.drop front).length := by
      rw [List.length_drop]
      omega
    have hadd := addOld_diff hsub hold hnew
    have hcut : new.take stop = new.take front ++ (new.drop front).take len ++
        (new.drop (front + len)).take (stop - (front + len)) := by
      rw [← List.take_add, ← List.take_add]
      congr 1
      omega
    rw [rebuild_append, h.rebuilt, h.place, rebuild, rebuild, List.append_nil, hdiff, hadd, hextra,
      hcut, List.append_assoc]
  place := by
    have hlen : p.diff.length = len := by
      rw [hdiff, List.length_zipWith, List.length_take, List.length_drop, List.length_drop]
      omega
    rw [placeBehind_append, h.place, placeBehind, placeBehind, hlen, hseek]
    omega

end Common

end Radare
