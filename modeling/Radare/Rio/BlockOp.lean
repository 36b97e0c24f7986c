import Radare.Common.Groups
import Radare.Rio.Model
/-!
# Operations on the block

`radare_write_op`: the block goes through an operation, and is written at
the seek. Most operations combine its bytes with a key that is repeated;
`2` and `4` swap bytes. Both of these exchange a byte with the third behind
it, whatever the width, so that pairs are not swapped at all, and the last
group has to be complete (`endian_swap_iff`).
-/

namespace Radare

open Common

variable {fresh : ℕ → u8} {s : State} {block buf str front back : List u8} {op : u8}
  {n i fuel width : ℕ}

/-! ## The code -/

/-- Two bytes of a buffer exchanged, where it has them. -/
def swapAt (buf : List u8) (i j : ℕ) : Option (List u8) := do
  let tmp ← buf[i]?
  let other ← buf[j]?
  let buf ← store buf i other
  store buf j tmp

/-- One turn of the endian swap. -/
def swapTurn (width i : ℕ) (buf : List u8) : Option (List u8) :=
  (swapAt buf i (i + 3)).bind fun buf =>
    if width = 4 then swapAt buf (i + 1) (i + 2) else some buf

/-- The loop of the endian swap, over `n` bytes in steps of `width`; there
are no more steps than bytes. -/
def swapLoop (width n : ℕ) : ℕ → ℕ → List u8 → Option (List u8)
  | 0, _, buf => some buf
  | fuel + 1, i, buf =>
    if i < n then (swapTurn width i buf).bind (swapLoop width n fuel (i + width))
    else some buf

/-- One byte of the block with one of the key, a `char` with a sign. A
division by 0, and a shift that an `int` cannot make, have no result; an
operation that is none of these does not look at the key. -/
def blockByte (op b : u8) (key : Option u8) : Option u8 :=
  match op with
  | 120 => key.map (b ^^^ ·)
  | 97 => key.map (b + ·)
  | 115 => key.map (b - ·)
  | 109 => key.map (b * ·)
  | 100 => key.bind fun k =>
    if k = 0 then none else some (UInt8.ofInt ((b.toNat : ℤ).tdiv k.toInt8.toInt))
  | 114 => key.bind fun k => if k < 32 then some (UInt8.ofNat (b.toNat >>> k.toNat)) else none
  | 108 => key.bind fun k =>
    if k < 32 ∧ b.toNat <<< k.toNat < 2 ^ 31 then some (UInt8.ofNat (b.toNat <<< k.toNat))
    else none
  | 111 => key.map (b ||| ·)
  | 65 => key.map (b &&& ·)
  | _ => some b

/-- The loop over the block with a key of `len` bytes. -/
def cyclicLoop (op : u8) (str : List u8) (len : ℕ) : ℕ → List u8 → Option (List u8)
  | _, [] => some []
  | j, b :: buf => do
    let c ← blockByte op b str[j]?
    let rest ← cyclicLoop op str len (if j + 1 ≥ len then 0 else j + 1) buf
    return c :: rest

/-- What an operation makes of the block, the key being decoded. -/
def opBuffer (str : List u8) (len : ℕ) (block : List u8) (op : u8) : Option (List u8) :=
  if op = 50 ∨ op = 52 then
    swapLoop (op - 48).toNat block.length block.length 0 block
  else cyclicLoop op str len 0 block

/-- The key: the memory of `strlen(arg)` bytes, and how many of them the
argument has given. The memory lies behind the argument. -/
def decodeKey (getMath : List u8 → ut64) (fresh : ℕ → u8) (behind arg : List u8) :
    Option (List u8 × ℕ) :=
  let out := (arg ++ 0 :: behind).length
  (hexstr2binstr getMath (arg ++ 0 :: behind ++ malloc fresh arg.length) 0 out).map
    fun (len, mem) => (mem.drop out, len)

/-- The buffer `radare_write_op` comes to write. -/
def writeOpBuffer (getMath : List u8 → ut64) (fresh : ℕ → u8) (behind block arg : List u8)
    (op : u8) : Option (List u8) :=
  (decodeKey getMath fresh behind arg).bind fun (str, len) => opBuffer str len block op

/-- `radare_write_op`: the value returned. -/
def radareWriteOp (getMath : List u8 → ut64) (fresh : ℕ → u8) (behind : List u8) (s : State)
    (arg : List u8) (op : u8) : Option (State × ℤ) :=
  (writeOpBuffer getMath fresh behind s.config.block arg op).map fun buf =>
    radareWriteAt fresh s s.config.seek buf

/-! ## Swapping -/

/-- Bytes are exchanged inside the buffer only. -/
theorem swapAt_inside {j : ℕ} {r : List u8} (h : swapAt buf i j = some r) :
    r.length = buf.length ∧ i < buf.length ∧ j < buf.length := by
  unfold swapAt at h
  obtain ⟨tmp, htmp, h⟩ := Option.bind_eq_some_iff.mp h
  obtain ⟨other, hother, h⟩ := Option.bind_eq_some_iff.mp h
  have hi : i < buf.length := (List.getElem?_eq_some_iff.mp htmp).1
  have hj : j < buf.length := (List.getElem?_eq_some_iff.mp hother).1
  have hr : r = (buf.set i other).set j tmp := by
    unfold store at h
    rw [if_pos hi, Option.bind_eq_bind, Option.bind_some, if_pos (by rwa [List.length_set])] at h
    exact (Option.some.inj h).symm
  exact ⟨by rw [hr, List.length_set, List.length_set], hi, hj⟩

/-- Two bytes with others between them. -/
theorem swapAt_append (x y : u8) (front mid back : List u8) :
    swapAt (front ++ x :: (mid ++ y :: back)) front.length (front.length + (mid.length + 1)) =
      some (front ++ y :: (mid ++ x :: back)) := by
  have hx : (front ++ x :: (mid ++ y :: back))[front.length]? = some x := by
    rw [List.getElem?_append_right (Nat.le_refl _), Nat.sub_self]
    rfl
  have hy : (front ++ x :: (mid ++ y :: back))[front.length + (mid.length + 1)]? = some y := by
    rw [List.getElem?_append_right (Nat.le_add_right _ _), Nat.add_sub_cancel_left,
      List.getElem?_cons_succ, List.getElem?_append_right (Nat.le_refl _), Nat.sub_self]
    rfl
  have hset : ((front ++ x :: (mid ++ y :: back)).set front.length y).set
      (front.length + (mid.length + 1)) x = front ++ y :: (mid ++ x :: back) := by
    simp
  unfold swapAt store
  simp only [hx, hy, Option.bind_eq_bind, Option.bind_some]
  rw [if_pos (by simp), Option.bind_some, if_pos (by simp), hset]

/-- **One turn of the loop** exchanges a byte with the third behind it. -/
theorem swapLoop_step {r : List u8} (h : swapLoop width n (fuel + 1) i buf = some r)
    (hi : i < n) :
    ∃ buf', buf'.length = buf.length ∧ i + 3 < buf.length ∧
      swapLoop width n fuel (i + width) buf' = some r := by
  rw [swapLoop, if_pos hi] at h
  obtain ⟨second, hturn, h⟩ := Option.bind_eq_some_iff.mp h
  obtain ⟨first, hfirst, hsecond⟩ := Option.bind_eq_some_iff.mp hturn
  obtain ⟨hlength, -, hin⟩ := swapAt_inside hfirst
  refine ⟨second, ?_, hin, h⟩
  split_ifs at hsecond
  · exact (swapAt_inside hsecond).1.trans hlength
  · rw [← Option.some.inj hsecond, hlength]

/-- In steps of two the last turn always leaves the buffer. -/
theorem swapLoop_two {r : List u8} (h : swapLoop 2 n fuel i buf = some r) (hbuf : buf.length = n)
    (hfuel : n ≤ i + fuel * 2) : n ≤ i := by
  induction fuel generalizing i buf with
  | zero => omega
  | succ fuel ih =>
    by_contra hi
    -- the turn has looked at `i + 3`, and the one behind it is no further on than there
    obtain ⟨buf', hlength, hin, h⟩ := swapLoop_step h (by omega)
    have := ih h (hlength.trans hbuf) (by omega)
    omega

/-- In steps of four it does where the last group is not complete. -/
theorem swapLoop_four {r : List u8} (h : swapLoop 4 n fuel i buf = some r)
    (hbuf : buf.length = n) (hfuel : n ≤ i + fuel * 4) : n ≤ i ∨ 4 ∣ n - i := by
  induction fuel generalizing i buf with
  | zero => omega
  | succ fuel ih =>
    rcases Nat.lt_or_ge i n with hi | hi
    · -- a turn was made, so that four bytes were left
      obtain ⟨buf', hlength, hin, h⟩ := swapLoop_step h hi
      have := ih h (hlength.trans hbuf) (by omega)
      omega
    · exact Or.inl hi

/-- **Groups of four are reversed**, where all of them are complete. -/
theorem swapLoop_groups (front : List u8) (hn : n = front.length + back.length)
    (hdvd : 4 ∣ back.length) (hfuel : back.length ≤ fuel * 4) :
    swapLoop 4 n fuel front.length (front ++ back) = some (front ++ reverseGroups 4 back) := by
  induction back using groups_induction (by decide : 0 < 4) generalizing front fuel with
  | short back hshort =>
    have hnil : back = [] := List.length_eq_zero_iff.mp (by omega)
    subst hnil
    rw [reverseGroups_of_lt (by decide)]
    cases fuel with
    | zero => rfl
    | succ fuel => rw [swapLoop, if_neg (by rw [hn, List.length_nil]; omega)]
  | group four rest hfour ih =>
    obtain ⟨a, b, c, d, rfl⟩ := List.length_eq_four.mp hfour
    rw [List.length_append, hfour] at hn hdvd hfuel
    obtain ⟨fuel, rfl⟩ : ∃ m, fuel = m + 1 := ⟨fuel - 1, by omega⟩
    -- the outer pair, then the inner one
    have houter : swapAt (front ++ ([a, b, c, d] ++ rest)) front.length (front.length + 3) =
        some (front ++ d :: ([b, c] ++ a :: rest)) := swapAt_append a d front [b, c] rest
    have hinner : swapAt (front ++ d :: ([b, c] ++ a :: rest)) (front.length + 1)
        (front.length + 2) = some (front ++ [d, c, b, a] ++ rest) := by
      simpa using swapAt_append b c (front ++ [d]) [] (a :: rest)
    have hrest := ih (front ++ [d, c, b, a])
      (by rw [List.length_append, hn]; exact Nat.add_assoc _ _ _ |>.symm) (by omega)
      (show rest.length ≤ fuel * 4 by omega)
    rw [List.length_append] at hrest
    rw [swapLoop, if_pos (by omega), swapTurn, houter, Option.bind_some, if_pos rfl, hinner,
      Option.bind_some, reverseGroups_append (by decide) hfour, ← List.append_assoc]
    exact hrest

/-! ## What a swap is for -/

/-- Every complete group of the block reversed, and the rest as it was. -/
def GroupsReversed (width : ℕ) (block buf : List u8) : Prop :=
  ∀ i, buf[i]? = if i / width * width + width ≤ block.length then
    block[i / width * width + (width - 1 - i % width)]? else block[i]?

/-- **When the endian swap is one**: in groups of four, and where the last
of them is complete. -/
theorem endian_swap_iff (str : List u8) (len : ℕ) (block : List u8) (op : u8)
    (hop : op = 50 ∨ op = 52) :
    (∃ buf, opBuffer str len block op = some buf ∧
        GroupsReversed (op - 48).toNat block buf ∧ opBuffer str len buf op = some block) ↔
      block = [] ∨ op = 52 ∧ 4 ∣ block.length := by
  have hswap : ∀ buf, opBuffer str len buf op =
      swapLoop (op - 48).toNat buf.length buf.length 0 buf := fun buf => if_pos hop
  simp only [hswap]
  constructor
  · rintro ⟨buf, hrun, -⟩
    rcases hop with rfl | rfl
    · -- with `2` no turn can be made, so that there is no byte
      have := swapLoop_two hrun rfl (by omega)
      exact Or.inl (List.length_eq_zero_iff.mp (by omega))
    · rcases swapLoop_four hrun rfl (by omega) with hle | hdvd
      · exact Or.inl (List.length_eq_zero_iff.mp (by omega))
      · exact Or.inr ⟨rfl, hdvd⟩
  · rintro (rfl | ⟨rfl, hdvd⟩)
    · refine ⟨[], rfl, fun i => ?_, rfl⟩
      split_ifs <;> rfl
    · have hfour : ∀ buf : List u8, 4 ∣ buf.length →
          swapLoop ((52 : u8) - 48).toNat buf.length buf.length 0 buf =
            some (reverseGroups 4 buf) := fun buf h =>
        swapLoop_groups [] (by rw [List.length_nil, Nat.zero_add]) h (by omega)
      have hlength : (reverseGroups 4 block).length = block.length :=
        length_reverseGroups (by decide)
      refine ⟨reverseGroups 4 block, hfour block hdvd,
        fun i => getElem?_reverseGroups (by decide) i, ?_⟩
      rw [hfour _ (hlength.symm ▸ hdvd), reverseGroups_reverseGroups (by decide)]

/-- Two groups of four. -/
theorem endian_swap_eight :
    ∃ buf, opBuffer [] 0 [1, 2, 3, 4, 5, 6, 7, 8] 52 = some buf ∧
      GroupsReversed 4 [1, 2, 3, 4, 5, 6, 7, 8] buf ∧
      opBuffer [] 0 buf 52 = some [1, 2, 3, 4, 5, 6, 7, 8] :=
  (endian_swap_iff [] 0 [1, 2, 3, 4, 5, 6, 7, 8] 52 (Or.inr rfl)).mpr (Or.inr ⟨rfl, by decide⟩)

/-- **Pairs are not swapped**: the loop goes for the fourth byte of two. -/
theorem pair_not_swapped :
    opBuffer [] 0 [1, 2] 50 = none ∧
    ¬∃ buf, opBuffer [] 0 [1, 2] 50 = some buf ∧ GroupsReversed 2 [1, 2] buf ∧
      opBuffer [] 0 buf 50 = some [1, 2] := by
  have hnone : opBuffer [] 0 [1, 2] 50 = none := by decide
  refine ⟨hnone, ?_⟩
  rintro ⟨buf, hrun, -⟩
  rw [hnone] at hrun
  cases hrun

end Radare
