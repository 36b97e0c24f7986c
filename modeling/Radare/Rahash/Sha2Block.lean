import Mathlib.Data.List.GetD
import Mathlib.Tactic.IntervalCases
import Radare.Common.Chunks
import Radare.Model.Bytes
/-!
# The blocks of SHA-2

`SHA256_Transform` and `SHA512_Transform` keep sixteen words of the schedule,
in the buffer of the context, and put every further word down over the one
that is sixteen before it. The state they compute is that of the whole
schedule (`transform_state`).

The two differ in the words, the constants and the turns (`Sha2`). The machine
is little endian, and `REVERSE32` and `REVERSE64` turn the bytes of a word.
-/

namespace Radare

open Common

/-! ## Bytes turned -/

/-- Bytes of which each has the bits of the one on the other side. -/
theorem bytesOf_reverse {k m n : ℕ}
    (h : ∀ i < k, ∀ b < 8, n.testBit (8 * i + b) = m.testBit (8 * (k - 1 - i) + b)) :
    bytesOf k n = (bytesOf k m).reverse := by
  have hpow : ∀ i, 256 ^ i = 2 ^ (8 * i) := fun i => (Nat.pow_mul 2 8 i).symm
  rw [bytesOf_eq_map, bytesOf_eq_map]
  refine List.ext_getElem (by simp) fun i hi _ => ?_
  rw [List.length_map, List.length_range] at hi
  rw [List.getElem_reverse, List.getElem_map, List.getElem_map, List.getElem_range,
    List.getElem_range, List.length_map, List.length_range]
  refine UInt8.toNat_inj.mp (Nat.eq_of_testBit_eq fun b => ?_)
  rw [UInt8.toNat_ofNat', UInt8.toNat_ofNat', Nat.testBit_mod_two_pow, Nat.testBit_mod_two_pow,
    hpow, hpow, Nat.testBit_div_two_pow, Nat.testBit_div_two_pow]
  by_cases hb : b < 8
  · rw [Nat.add_comm b, Nat.add_comm b, h i hi b hb]
  · rw [decide_eq_false hb, Bool.false_and, Bool.false_and]

/-- `REVERSE32`. -/
def reverse32 (w : BitVec 32) : BitVec 32 :=
  let tmp := w >>> 16 ||| w <<< 16
  (tmp &&& 0xff00ff00) >>> 8 ||| (tmp &&& 0x00ff00ff) <<< 8

/-- `REVERSE64`. -/
def reverse64 (w : BitVec 64) : BitVec 64 :=
  let tmp := w >>> 32 ||| w <<< 32
  let tmp := (tmp &&& 0xff00ff00ff00ff00) >>> 8 ||| (tmp &&& 0x00ff00ff00ff00ff) <<< 8
  (tmp &&& 0xffff0000ffff0000) >>> 16 ||| (tmp &&& 0x0000ffff0000ffff) <<< 16

theorem getLsbD_reverse32 (w : BitVec 32) :
    ∀ i < 32, (reverse32 w).getLsbD i = w.getLsbD (8 * (3 - i / 8) + i % 8) := by
  intro i hi
  unfold reverse32
  interval_cases i <;> simp

theorem getLsbD_reverse64 (w : BitVec 64) :
    ∀ i < 64, (reverse64 w).getLsbD i = w.getLsbD (8 * (7 - i / 8) + i % 8) := by
  intro i hi
  unfold reverse64
  interval_cases i <;> simp

/-- **`REVERSE32` turns the bytes.** -/
theorem bytesOf_reverse32 (w : BitVec 32) :
    bytesOf 4 (reverse32 w).toNat = (bytesOf 4 w.toNat).reverse := by
  refine bytesOf_reverse fun i hi b hb => ?_
  have hbit := getLsbD_reverse32 w (8 * i + b) (by omega)
  rwa [show (8 * i + b) / 8 = i by omega, show (8 * i + b) % 8 = b by omega] at hbit

theorem bytesOf_reverse64 (w : BitVec 64) :
    bytesOf 8 (reverse64 w).toNat = (bytesOf 8 w.toNat).reverse := by
  refine bytesOf_reverse fun i hi b hb => ?_
  have hbit := getLsbD_reverse64 w (8 * i + b) (by omega)
  rwa [show (8 * i + b) / 8 = i by omega, show (8 * i + b) % 8 = b by omega] at hbit

/-! ## The transform -/

/-- `state`. -/
structure Sha2State (w : ℕ) where
  a : BitVec w
  b : BitVec w
  c : BitVec w
  d : BitVec w
  e : BitVec w
  f : BitVec w
  g : BitVec w
  h : BitVec w
deriving DecidableEq

/-- What the functions for words of four and of eight bytes differ in. -/
structure Sha2 (w : ℕ) where
  /-- The constants, one for each round. -/
  K : List (BitVec w)
  Sigma0 : BitVec w → BitVec w
  Sigma1 : BitVec w → BitVec w
  sigma0 : BitVec w → BitVec w
  sigma1 : BitVec w → BitVec w
  reverse : BitVec w → BitVec w
  /-- The words have whole bytes. -/
  octets : 8 * (w / 8) = w
  reverse_bytes : ∀ x, bytesOf (w / 8) (reverse x).toNat = (bytesOf (w / 8) x.toNat).reverse

variable {w : ℕ} (p : Sha2 w)

/-- `Ch`. -/
def shaCh (x y z : BitVec w) : BitVec w := x &&& y ^^^ ~~~x &&& z

/-- `Maj`. -/
def shaMaj (x y z : BitVec w) : BitVec w := x &&& y ^^^ x &&& z ^^^ y &&& z

/-- A round, with a constant and a word of the schedule. -/
def Sha2.round (s : Sha2State w) (k x : BitVec w) : Sha2State w :=
  let t1 := s.h + p.Sigma1 s.e + shaCh s.e s.f s.g + k + x
  let t2 := p.Sigma0 s.a + shaMaj s.a s.b s.c
  ⟨t1 + t2, s.a, s.b, s.c, s.d + t1, s.e, s.f, s.g⟩

/-- A round with a word of the data, which is put down with its bytes turned. -/
def Sha2.early (data : List (BitVec w)) (s : Sha2State w × List (BitVec w)) (j : ℕ) :
    Sha2State w × List (BitVec w) :=
  let W := s.2.set j (p.reverse (data.getD j 0))
  (p.round s.1 (p.K.getD j 0) (W.getD j 0), W)

/-- A round with a word from the sixteen before it, which is put down over the
first of them. -/
def Sha2.late (s : Sha2State w × List (BitVec w)) (j : ℕ) : Sha2State w × List (BitVec w) :=
  let s0 := p.sigma0 (s.2.getD ((j + 1) % 16) 0)
  let s1 := p.sigma1 (s.2.getD ((j + 14) % 16) 0)
  let W := s.2.set (j % 16) (s.2.getD (j % 16) 0 + (s1 + s.2.getD ((j + 9) % 16) 0 + s0))
  (p.round s.1 (p.K.getD j 0) (W.getD (j % 16) 0), W)

/-- The words in some memory, as the machine has them. -/
def hostWords (w : ℕ) (mem : List u8) : List (BitVec w) :=
  (List.range 16).map fun j => BitVec.ofNat w (ofBytes (chunk (w / 8) mem j))

def Sha2State.add (x y : Sha2State w) : Sha2State w :=
  ⟨x.a + y.a, x.b + y.b, x.c + y.c, x.d + y.d, x.e + y.e, x.f + y.f, x.g + y.g, x.h + y.h⟩

/-- `SHA256_Transform` and `SHA512_Transform`: the state, and the buffer, in
which the schedule is. The data may be the buffer itself, of which each word is
read before it is put down. -/
def Sha2.transform (state : Sha2State w) (buffer data : List u8) : Sha2State w × List u8 :=
  let s := (List.range' 0 16).foldl (p.early (hostWords w data)) (state, hostWords w buffer)
  let s := (List.range' 16 (p.K.length - 16)).foldl p.late s
  (state.add s.1, s.2.flatMap fun x => bytesOf (w / 8) x.toNat)

/-! ## The schedule -/

/-- The words of a block, the highest byte first. -/
def blockWords (w : ℕ) (block : List u8) : List (BitVec w) :=
  (List.range 16).map fun j => BitVec.ofNat w (ofBytes (chunk (w / 8) block j).reverse)

/-- The words of the schedule, and so many more. -/
def Sha2.expand (ws : List (BitVec w)) : ℕ → List (BitVec w)
  | 0 => ws
  | n + 1 =>
    let l := Sha2.expand ws n
    l ++ [p.sigma1 (l.getD (n + 14) 0) + l.getD (n + 9) 0 + p.sigma0 (l.getD (n + 1) 0) +
      l.getD n 0]

/-- Some of the rounds, with words of a schedule. -/
def Sha2.rounds (ws : List (BitVec w)) (s : Sha2State w) (j : ℕ) : Sha2State w :=
  p.round s (p.K.getD j 0) (ws.getD j 0)

/-- A block worked into the state, as the standard has it. -/
def Sha2.compress (state : Sha2State w) (block : List u8) : Sha2State w :=
  let ws := p.expand (blockWords w block) (p.K.length - 16)
  state.add ((List.range p.K.length).foldl (p.rounds ws) state)

variable {p} {ws W : List (BitVec w)} {n j t : ℕ} {block buffer : List u8} {state : Sha2State w}

theorem length_expand (hws : ws.length = 16) : (p.expand ws n).length = 16 + n := by
  induction n with
  | zero => exact hws
  | succ n ih =>
    rw [Sha2.expand, List.length_append, ih]
    rfl

/-- A word stays where it is. -/
theorem expand_getD (hws : ws.length = 16) {m : ℕ} (ht : t < 16 + m) (hle : m ≤ n) :
    (p.expand ws n).getD t 0 = (p.expand ws m).getD t 0 := by
  induction n, hle using Nat.le_induction with
  | base => rfl
  | succ n hle ih =>
    rw [Sha2.expand, ← ih, List.getD_append _ _ _ _ (by rw [length_expand hws]; omega)]

/-- **The word at a place**, from those before it. -/
theorem expand_next (hws : ws.length = 16) (hlt : t < n) :
    (p.expand ws n).getD (16 + t) 0 =
      p.sigma1 ((p.expand ws n).getD (t + 14) 0) + (p.expand ws n).getD (t + 9) 0 +
        p.sigma0 ((p.expand ws n).getD (t + 1) 0) + (p.expand ws n).getD t 0 := by
  have hlen := length_expand (p := p) (n := t) hws
  rw [expand_getD hws (show 16 + t < 16 + (t + 1) by omega) (show t + 1 ≤ n by omega),
    expand_getD hws (show t + 14 < 16 + t by omega) hlt.le,
    expand_getD hws (show t + 9 < 16 + t by omega) hlt.le,
    expand_getD hws (show t + 1 < 16 + t by omega) hlt.le,
    expand_getD hws (show t < 16 + t by omega) hlt.le, Sha2.expand,
    List.getD_append_right _ _ _ _ (by omega), hlen, Nat.sub_self]
  rfl

/-- The sixteen words before a place of the schedule. -/
structure Rolling (ws W : List (BitVec w)) (j : ℕ) : Prop where
  length : W.length = 16
  words : ∀ t, t < j → j ≤ t + 16 → W.getD (t % 16) 0 = ws.getD t 0

theorem getD_set {i : ℕ} {x : BitVec w} (hlt : j < W.length) :
    (W.set j x).getD i 0 = if i = j then x else W.getD i 0 := by
  rw [List.getD_eq_getElem?_getD, List.getElem?_set]
  by_cases hij : i = j
  · rw [if_pos hij.symm, if_pos hlt, if_pos hij, Option.getD_some]
  · rw [if_neg fun h => hij h.symm, if_neg hij, List.getD_eq_getElem?_getD]

/-- **A word put down over the one sixteen before it.** -/
theorem Rolling.set (h : Rolling ws W j) : Rolling ws (W.set (j % 16) (ws.getD j 0)) (j + 1) where
  length := List.length_set.trans h.length
  words := by
    intro t hlt hle
    have hj := Nat.mod_lt j (show 0 < 16 by omega)
    rw [getD_set (by rw [h.length]; exact hj)]
    split_ifs with hat
    · rw [show t = j by omega]
    · exact h.words t (by omega) (by omega)

/-- A round in the buffer is that of the schedule. -/
def RoundOf (p : Sha2 w) (ws : List (BitVec w))
    (step : Sha2State w × List (BitVec w) → ℕ → Sha2State w × List (BitVec w)) (j : ℕ) : Prop :=
  ∀ s W, Rolling ws W j → step (s, W) j = (p.rounds ws s j, W.set (j % 16) (ws.getD j 0))

theorem early_roundOf {data : List (BitVec w)} (hj : j < 16)
    (hword : p.reverse (data.getD j 0) = ws.getD j 0) : RoundOf p ws (p.early data) j := by
  intro s W h
  have hset : (W.set j (ws.getD j 0)).getD j 0 = ws.getD j 0 := by
    rw [getD_set (by rw [h.length]; exact hj), if_pos rfl]
  rw [Sha2.early, Sha2.rounds, hword, hset, Nat.mod_eq_of_lt hj]

theorem late_roundOf (hj : 16 ≤ j)
    (hnext : ws.getD j 0 = p.sigma1 (ws.getD (j - 2) 0) + ws.getD (j - 7) 0 +
      p.sigma0 (ws.getD (j - 15) 0) + ws.getD (j - 16) 0) : RoundOf p ws p.late j := by
  intro s W h
  have hword : ∀ i k, 0 < k → k ≤ 16 → i = (j - k) % 16 → W.getD i 0 = ws.getD (j - k) 0 := by
    intro i k hpos hle hi
    rw [hi]
    exact h.words (j - k) (by omega) (by omega)
  have h0 := hword (j % 16) 16 (by omega) (by omega) (by omega)
  have h1 := hword ((j + 1) % 16) 15 (by omega) (by omega) (by omega)
  have h9 := hword ((j + 9) % 16) 7 (by omega) (by omega) (by omega)
  have h14 := hword ((j + 14) % 16) 2 (by omega) (by omega) (by omega)
  have hset : (W.set (j % 16) (ws.getD j 0)).getD (j % 16) 0 = ws.getD j 0 := by
    rw [getD_set (by rw [h.length]; omega), if_pos rfl]
  rw [Sha2.late, Sha2.rounds, h0, h1, h9, h14, BitVec.add_comm (ws.getD (j - 16) 0), ← hnext, hset]

/-- **The rounds in the buffer.** -/
theorem foldl_roundOf (state : Sha2State w)
    {step : Sha2State w × List (BitVec w) → ℕ → Sha2State w × List (BitVec w)} (count : ℕ)
    (hstep : ∀ i, j ≤ i → i < j + count → RoundOf p ws step i) (h : Rolling ws W j) :
    ∃ W', (List.range' j count).foldl step (state, W) =
      ((List.range' j count).foldl (p.rounds ws) state, W') ∧ Rolling ws W' (j + count) := by
  induction count generalizing j state W with
  | zero => exact ⟨W, rfl, h⟩
  | succ count ih =>
    rw [List.range'_succ, List.foldl_cons, List.foldl_cons,
      hstep j (Nat.le_refl j) (by omega) state W h]
    obtain ⟨W', hfold, hroll⟩ := ih (p.rounds ws state j)
      (fun i hle hlt => hstep i (by omega) (by omega)) h.set
    refine ⟨W', hfold, ?_⟩
    rwa [Nat.succ_add, ← Nat.add_succ] at hroll

/-- A word of the data, its bytes turned. -/
theorem reverse_hostWords (p : Sha2 w) (hblock : block.length = 2 * w) (hj : j < 16) :
    p.reverse ((hostWords w block).getD j 0) = (blockWords w block).getD j 0 := by
  have hoct := p.octets
  have hlen : (chunk (w / 8) block j).length = w / 8 := by
    have hmul : (j + 1) * (w / 8) ≤ 16 * (w / 8) := Nat.mul_le_mul_right _ hj
    rw [Nat.succ_mul] at hmul
    rw [length_chunk]
    omega
  have hpow : 256 ^ (w / 8) = 2 ^ w := by
    have h256 : (256 : ℕ) = 2 ^ 8 := rfl
    rw [h256, ← Nat.pow_mul, hoct]
  have hword : ∀ bs : List u8, bs.length = w / 8 →
      (BitVec.ofNat w (ofBytes bs)).toNat = ofBytes bs := by
    intro bs hbs
    have hlt : ofBytes bs < 256 ^ bs.length := ofBytes_lt
    rw [hbs, hpow] at hlt
    rw [BitVec.toNat_ofNat, Nat.mod_eq_of_lt hlt]
  have hget : ∀ f : ℕ → BitVec w, ((List.range 16).map f).getD j 0 = f j := by
    intro f
    rw [List.getD_eq_getElem?_getD, List.getElem?_map, List.getElem?_range hj]
    rfl
  rw [hostWords, blockWords, hget, hget]
  set c := chunk (w / 8) block j
  have hrev := p.reverse_bytes (BitVec.ofNat w (ofBytes c))
  have hc : bytesOf c.length (ofBytes c) = c := bytesOf_ofBytes
  rw [hlen] at hc
  rw [hword c hlen, hc] at hrev
  refine BitVec.eq_of_toNat_eq ?_
  rw [hword c.reverse (by rw [List.length_reverse, hlen]), ← hrev, ofBytes_bytesOf, hpow,
    Nat.mod_eq_of_lt (BitVec.isLt _)]

/-- **The transform in the buffer is that of the whole schedule**, whatever is
in the buffer before. -/
theorem transform_state (p : Sha2 w) (hK : 16 ≤ p.K.length) (hblock : block.length = 2 * w) :
    (p.transform state buffer block).1 = p.compress state block := by
  set ws := p.expand (blockWords w block) (p.K.length - 16) with hws
  have hbw : (blockWords w block).length = 16 := by
    rw [blockWords, List.length_map, List.length_range]
  have hstart : Rolling ws (hostWords w buffer) 0 := by
    refine ⟨by rw [hostWords, List.length_map, List.length_range], fun t ht => ?_⟩
    omega
  have hearly : ∀ i, 0 ≤ i → i < 0 + 16 → RoundOf p ws (p.early (hostWords w block)) i := by
    intro i _ hi
    refine early_roundOf (by omega) ?_
    rw [reverse_hostWords p hblock (by omega), hws,
      expand_getD hbw (show i < 16 + 0 by omega) (Nat.zero_le _)]
    rfl
  have hlate : ∀ i, 0 + 16 ≤ i → i < 0 + 16 + (p.K.length - 16) → RoundOf p ws p.late i := by
    intro i hle hlt
    refine late_roundOf (by omega) ?_
    obtain ⟨t, rfl⟩ := Nat.exists_eq_add_of_le hle
    have hnext := expand_next (p := p) hbw (show t < p.K.length - 16 by omega)
    rw [← hws] at hnext
    rw [show 0 + 16 + t - 2 = t + 14 by omega, show 0 + 16 + t - 7 = t + 9 by omega,
      show 0 + 16 + t - 15 = t + 1 by omega, show 0 + 16 + t - 16 = t by omega,
      show 0 + 16 + t = 16 + t by omega]
    exact hnext
  obtain ⟨W₁, hfold₁, hroll₁⟩ := foldl_roundOf state 16 hearly hstart
  obtain ⟨W₂, hfold₂, -⟩ :=
    foldl_roundOf ((List.range' 0 16).foldl (p.rounds ws) state) (p.K.length - 16) hlate hroll₁
  have hrange : List.range p.K.length = List.range' 0 16 ++ List.range' 16 (p.K.length - 16) := by
    have happ := List.range'_append_1 (s := 0) (m := 16) (n := p.K.length - 16)
    rw [Nat.zero_add, show 16 + (p.K.length - 16) = p.K.length by omega] at happ
    rw [List.range_eq_range', happ]
  rw [Nat.zero_add] at hfold₂
  unfold Sha2.transform
  simp only [hfold₁, hfold₂]
  rw [Sha2.compress, ← hws, hrange, List.foldl_append]

/-- The buffer stays one. -/
theorem length_transform (p : Sha2 w) : (p.transform state buffer block).2.length = 2 * w := by
  have hfold : ∀ (step : Sha2State w × List (BitVec w) → ℕ → Sha2State w × List (BitVec w))
      (hstep : ∀ s i, (step s i).2.length = s.2.length) (l : List ℕ) (s),
      (l.foldl step s).2.length = s.2.length := by
    intro step hstep l
    induction l with
    | nil => intro s; rfl
    | cons i l ih => intro s; rw [List.foldl_cons, ih, hstep]
  have hbytes : ∀ l : List (BitVec w),
      (l.flatMap fun x => bytesOf (w / 8) x.toNat).length = l.length * (w / 8) := by
    intro l
    induction l with
    | nil => rw [List.flatMap_nil, List.length_nil, List.length_nil, Nat.zero_mul]
    | cons x l ih =>
      rw [List.flatMap_cons, List.length_append, ih, length_bytesOf, List.length_cons, Nat.succ_mul,
        Nat.add_comm]
  have hoct := p.octets
  unfold Sha2.transform
  rw [hbytes, hfold _ fun s i => List.length_set, hfold _ fun s i => List.length_set, hostWords,
    List.length_map, List.length_range]
  omega

end Radare
