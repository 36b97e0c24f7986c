import Radare.Common.Digest
import Radare.Rahash.Sha2Block
/-!
# SHA-2

`SHA256_Update`, `SHA512_Update` and what ends them, for the kinds that there
are: they differ in the number of bits, which is one word or two, and in how
much of the buffer is cleared behind the last block but one.

The digest is that of the padded message, in whatever pieces it came
(`sha2_pieces`). The context is not cleared behind it: what is cleared is the
pointer to it.
-/

namespace Radare

open Common

/-! ## The kinds -/

/-- A kind of SHA-2. -/
structure Sha2Kind (w : ℕ) extends Sha2 w where
  /-- `bitcount`. -/
  Count : Type
  zero : Count
  /-- So many bits more. -/
  add : Count → BitVec 64 → Count
  /-- The word that is read. -/
  low : Count → BitVec 64
  /-- The bytes of the words turned. -/
  turn : Count → Count
  /-- The words in memory, as they are stored in the buffer. -/
  store : Count → List u8
  /-- The number of bits. -/
  value : Count → ℕ
  /-- How much is cleared behind the last block but one. -/
  clear : ℕ
  start : Sha2State w
  /-- The words of the digest. -/
  digestWords : ℕ
  rounds_le : 16 ≤ K.length
  width : w = 32 ∨ w = 64
  value_zero : value zero = 0
  value_add : ∀ c n, value (add c n) = (value c + n.toNat) % 2 ^ (2 * w)
  low_value : ∀ c, (low c).toNat = value c % 2 ^ 64
  store_turn : ∀ c, store (turn c) = (bytesOf (w / 4) (value c)).reverse
  clear_le : 2 * w - w / 4 ≤ clear ∧ clear ≤ 2 * w

variable {w : ℕ}

/-- The context. -/
structure Sha2Ctx (p : Sha2Kind w) where
  state : Sha2State w
  bitcount : p.Count
  buffer : List u8

variable (p : Sha2Kind w)

/-- `SHA256_Init`, `SHA384_Init` and `SHA512_Init`. -/
def Sha2Kind.init : Sha2Ctx p := ⟨p.start, p.zero, List.replicate (2 * w) 0⟩

/-- How much of the buffer is full. -/
def Sha2Kind.used (context : Sha2Ctx p) : ℕ :=
  (p.low context.bitcount >>> 3).toNat % (2 * w)

/-- The transform, in the context. -/
def Sha2Kind.transformed (context : Sha2Ctx p) (data : List u8) : Sha2Ctx p :=
  { context with
    state := (p.transform context.state context.buffer data).1
    buffer := (p.transform context.state context.buffer data).2 }

/-- So many bytes more. -/
def Sha2Kind.counted (context : Sha2Ctx p) (len : ℕ) : Sha2Ctx p :=
  { context with bitcount := p.add context.bitcount (BitVec.ofNat 64 len <<< 3) }

/-- The complete blocks of the data, and what is left over. -/
def Sha2Kind.whole (context : Sha2Ctx p) (data : List u8) : Sha2Ctx p :=
  if data.length ≥ 2 * w then
    Sha2Kind.whole (p.counted (p.transformed context (data.take (2 * w))) (2 * w))
      (data.drop (2 * w))
  else if data ≠ [] then
    p.counted { context with buffer := overlay context.buffer 0 data } data.length
  else context
termination_by data.length
decreasing_by
  have := p.width
  rw [List.length_drop]
  omega

/-- `SHA256_Update` and `SHA512_Update`. -/
def Sha2Kind.update (context : Sha2Ctx p) (data : List u8) : Sha2Ctx p :=
  if data = [] then context
  else
    let usedspace := p.used context
    if usedspace > 0 then
      let freespace := 2 * w - usedspace
      if data.length ≥ freespace then
        let context := { context with
          buffer := overlay context.buffer usedspace (data.take freespace) }
        let context := p.counted context freespace
        p.whole (p.transformed context context.buffer) (data.drop freespace)
      else
        p.counted { context with buffer := overlay context.buffer usedspace data } data.length
    else p.whole context data

/-- `SHA256_SHORT_BLOCK_LENGTH` and `SHA512_SHORT_BLOCK_LENGTH`. -/
def shortBlock (w : ℕ) : ℕ := 2 * w - w / 4

/-- The padding up to the field, with the block before it where it takes
another one. -/
def Sha2Kind.pad (context : Sha2Ctx p) (usedspace : ℕ) : Sha2Ctx p :=
  if usedspace > 0 then
    let buffer := context.buffer.set usedspace 0x80
    let usedspace := usedspace + 1
    if usedspace ≤ shortBlock w then
      { context with
        buffer := overlay buffer usedspace (List.replicate (shortBlock w - usedspace) 0) }
    else
      let buffer := if usedspace < 2 * w then
        overlay buffer usedspace (List.replicate (2 * w - usedspace) 0) else buffer
      let context := { context with buffer }
      let context := p.transformed context context.buffer
      { context with buffer := overlay context.buffer 0 (List.replicate p.clear 0) }
  else
    { context with
      buffer := (overlay context.buffer 0 (List.replicate (shortBlock w) 0)).set 0 0x80 }

/-- `SHA512_Last`, and `SHA256_Final` up to the last transform. -/
def Sha2Kind.last (context : Sha2Ctx p) : Sha2Ctx p :=
  let usedspace := p.used context
  let context := { context with bitcount := p.turn context.bitcount }
  let context := p.pad context usedspace
  let context := { context with
    buffer := overlay context.buffer (shortBlock w) (p.store context.bitcount) }
  p.transformed context context.buffer

/-- The words of a state, in order. -/
def Sha2State.words (s : Sha2State w) : List (BitVec w) :=
  [s.a, s.b, s.c, s.d, s.e, s.f, s.g, s.h]

/-- `SHA256_Final`, `SHA384_Final` and `SHA512_Final`: the digest. -/
def Sha2Kind.final (context : Sha2Ctx p) : List u8 :=
  ((p.last context).state.words.take p.digestWords).flatMap fun x =>
    bytesOf (w / 8) (p.reverse x).toNat

/-- The context that they leave: the words of the digest have their bytes
turned, and so has the number of bits. -/
def Sha2Kind.left (context : Sha2Ctx p) : Sha2Ctx p :=
  let context := p.last context
  let turned (j : ℕ) (x : BitVec w) := if j < p.digestWords then p.reverse x else x
  let s := context.state
  { context with state :=
    ⟨turned 0 s.a, turned 1 s.b, turned 2 s.c, turned 3 s.d,
      turned 4 s.e, turned 5 s.f, turned 6 s.g, turned 7 s.h⟩ }

/-- The digest of a message, padded. -/
def Sha2Kind.digest (msg : List u8) : List u8 :=
  ((foldBlocks (2 * w) p.compress p.start
    (padMessage (2 * w) 0x80 0 (bytesOf (w / 4) (8 * msg.length)).reverse msg)).words.take
      p.digestWords).flatMap fun x => (bytesOf (w / 8) x.toNat).reverse

/-! ## Pieces -/

/-- The context after some bytes. -/
structure Sha2Ctx.After {p : Sha2Kind w} (context : Sha2Ctx p) (xs : List u8) : Prop where
  holds : Holds (2 * w) p.compress p.start context.state context.buffer xs
  value : p.value context.bitcount = 8 * xs.length % 2 ^ (2 * w)

variable {p} {context : Sha2Ctx p} {xs data : List u8}

theorem Sha2Kind.pos (p : Sha2Kind w) : 0 < 2 * w := by
  have := p.width
  omega

theorem Sha2Ctx.After.used_eq (h : context.After xs) : p.used context = xs.length % (2 * w) := by
  have hvalue := h.value
  unfold Sha2Kind.used
  rw [BitVec.toNat_ushiftRight, Nat.shiftRight_eq_div_pow, p.low_value, hvalue]
  rcases p.width with rfl | rfl <;> omega

theorem counted_value (context : Sha2Ctx p) {len : ℕ} (hlen : len ≤ 2 * w)
    (hvalue : p.value context.bitcount = 8 * xs.length % 2 ^ (2 * w)) :
    p.value (p.counted context len).bitcount = 8 * (xs.length + len) % 2 ^ (2 * w) := by
  have hbits : (BitVec.ofNat 64 len <<< 3).toNat = 8 * len := by
    have := p.width
    rw [BitVec.toNat_shiftLeft, BitVec.toNat_ofNat, Nat.shiftLeft_eq]
    omega
  have hnew : (p.counted context len).bitcount =
      p.add context.bitcount (BitVec.ofNat 64 len <<< 3) := rfl
  rw [hnew, p.value_add, hvalue, hbits, Nat.mod_add_mod, Nat.mul_add]

/-- The state and the buffer behind the transform. -/
theorem transformed_state (context : Sha2Ctx p) (hdata : data.length = 2 * w) :
    (p.transformed context data).state = p.compress context.state data :=
  transform_state p.toSha2 p.rounds_le hdata

theorem transformed_buffer (context : Sha2Ctx p) (data : List u8) :
    (p.transformed context data).buffer.length = 2 * w :=
  length_transform p.toSha2

/-- **Complete blocks**, behind complete blocks. -/
theorem whole_after (h : context.After xs) (hmod : xs.length % (2 * w) = 0) (data : List u8) :
    (p.whole context data).After (xs ++ data) := by
  have hpos := p.pos
  fun_induction Sha2Kind.whole p context data generalizing xs with
  | case1 context data hge ih =>
    have hblock : (data.take (2 * w)).length = 2 * w := List.length_take_of_le hge
    have hlen : (xs ++ data.take (2 * w)).length = xs.length + 2 * w := by
      rw [List.length_append, hblock]
    have hstep : (p.counted (p.transformed context (data.take (2 * w))) (2 * w)).After
        (xs ++ data.take (2 * w)) := by
      refine ⟨?_, ?_⟩
      · have hholds := h.holds.block hpos hmod hblock
          (transformed_buffer context (data.take (2 * w)))
        rwa [← transformed_state context hblock] at hholds
      · rw [hlen]
        exact counted_value (p.transformed context (data.take (2 * w))) (Nat.le_refl _) h.value
    have hrest := ih hstep (by rw [hlen, Nat.add_mod_right, hmod])
    rwa [List.append_assoc, List.take_append_drop] at hrest
  | case2 context data hlt hne =>
    refine ⟨h.holds.rest hmod (by omega), ?_⟩
    rw [List.length_append]
    exact counted_value { context with buffer := overlay context.buffer 0 data } (by omega) h.value
  | case3 context data hlt hnil =>
    have hdata : data = [] := not_not.mp hnil
    rwa [hdata, List.append_nil]

/-- **A piece.** -/
theorem sha2Update_after (h : context.After xs) : (p.update context data).After (xs ++ data) := by
  have hpos := p.pos
  have hused := h.used_eq
  have hlt := Nat.mod_lt xs.length hpos
  have hsize := h.holds.size
  unfold Sha2Kind.update
  by_cases hnil : data = []
  · rwa [if_pos hnil, hnil, List.append_nil]
  rw [if_neg hnil]
  simp only [hused]
  by_cases hfill : xs.length % (2 * w) > 0
  · rw [if_pos hfill]
    set free := 2 * w - xs.length % (2 * w) with hfree
    by_cases hge : data.length ≥ free
    · -- the buffer gets full
      have htake : (data.take free).length = free := List.length_take_of_le hge
      have hne : data.take free ≠ [] := by
        intro hnil'
        rw [hnil', List.length_nil] at htake
        omega
      have hlen : (xs ++ data.take free).length = xs.length + free := by
        rw [List.length_append, htake]
      rw [if_pos hge]
      set buffer := overlay context.buffer (xs.length % (2 * w)) (data.take free) with hbuffer
      have hover : buffer.length = 2 * w := by
        rw [hbuffer, length_overlay (by omega), hsize]
      have hstep : (p.transformed (p.counted { context with buffer } free) buffer).After
          (xs ++ data.take free) := by
        refine ⟨?_, ?_⟩
        · have hholds := h.holds.full hne (by omega)
            (transformed_buffer (p.counted { context with buffer } free) buffer)
          rw [← hbuffer] at hholds
          rwa [transformed_state (p.counted { context with buffer } free) hover]
        · rw [hlen]
          exact counted_value { context with buffer } (by omega) h.value
      have hmod : (xs ++ data.take free).length % (2 * w) = 0 := by
        rw [hlen, hfree, ← Nat.mod_add_mod, Nat.add_sub_cancel' hlt.le, Nat.mod_self]
      have hrest := whole_after hstep hmod (data.drop free)
      rwa [List.append_assoc, List.take_append_drop] at hrest
    · rw [if_neg hge]
      refine ⟨h.holds.more (by omega), ?_⟩
      rw [List.length_append]
      exact counted_value { context with
        buffer := overlay context.buffer (xs.length % (2 * w)) data } (by omega) h.value
  · rw [if_neg hfill]
    exact whole_after h (by omega) data

/-! ## The end -/

theorem shortBlock_add (p : Sha2Kind w) : shortBlock w + w / 4 = 2 * w := by
  have := p.width
  unfold shortBlock
  omega

/-- The zeros behind the mark, where they fit into the block. -/
theorem missing_short (p : Sha2Kind w) (len : ℕ) (hle : len % (2 * w) + 1 ≤ shortBlock w) :
    missing (2 * w) (len + 1 + w / 4) = shortBlock w - (len % (2 * w) + 1) := by
  unfold missing shortBlock at *
  rcases p.width with rfl | rfl <;> omega

/-- The zeros behind the mark, where another block is taken. -/
theorem missing_long (p : Sha2Kind w) {len : ℕ} (hlt : shortBlock w < len % (2 * w) + 1) :
    missing (2 * w) (len + 1 + w / 4) = 2 * w - (len % (2 * w) + 1) + shortBlock w := by
  unfold missing shortBlock at *
  rcases p.width with rfl | rfl <;> omega

/-- A mark, and zeros behind it. -/
theorem overlay_mark {buf : List u8} {used k : ℕ} (hle : used + 1 + k ≤ buf.length) :
    overlay (buf.set used 0x80) (used + 1) (List.replicate k 0) =
      overlay buf used (0x80 :: List.replicate k 0) := by
  rw [← overlay_singleton (by omega)]
  exact overlay_append (by rw [List.length_singleton]; omega)

/-- **The padding up to the field.** -/
theorem pad_holds (context : Sha2Ctx p)
    (h : Holds (2 * w) p.compress p.start context.state context.buffer xs) :
    Holds (2 * w) p.compress p.start (p.pad context (xs.length % (2 * w))).state
      (p.pad context (xs.length % (2 * w))).buffer
      (xs ++ 0x80 :: List.replicate (missing (2 * w) (xs.length + 1 + w / 4)) 0) := by
  have hshort := shortBlock_add p
  have hsize := h.size
  have hlt := Nat.mod_lt xs.length p.pos
  have hw := p.width
  unfold Sha2Kind.pad
  by_cases hused : xs.length % (2 * w) > 0
  · simp only [if_pos hused]
    by_cases hle : xs.length % (2 * w) + 1 ≤ shortBlock w
    · simp only [if_pos hle]
      rw [missing_short p xs.length hle, overlay_mark (by omega)]
      refine h.more ?_
      rw [List.length_cons, List.length_replicate]
      omega
    · simp only [if_neg hle]
      set ys : List u8 := 0x80 :: List.replicate (2 * w - (xs.length % (2 * w) + 1)) 0 with hys
      have hlen : ys.length = 2 * w - xs.length % (2 * w) := by
        rw [hys, List.length_cons, List.length_replicate]
        omega
      have hzeros : (if xs.length % (2 * w) + 1 < 2 * w then
          overlay (context.buffer.set (xs.length % (2 * w)) 0x80) (xs.length % (2 * w) + 1)
            (List.replicate (2 * w - (xs.length % (2 * w) + 1)) 0)
          else context.buffer.set (xs.length % (2 * w)) 0x80) =
          overlay context.buffer (xs.length % (2 * w)) ys := by
        rw [hys, ← overlay_mark (by omega)]
        split_ifs with hfree
        · rfl
        · rw [show 2 * w - (xs.length % (2 * w) + 1) = 0 by omega, List.replicate_zero, overlay_nil]
      rw [hzeros]
      set block := overlay context.buffer (xs.length % (2 * w)) ys with hblock
      have hover : block.length = 2 * w := by
        rw [hblock, length_overlay (by omega), hsize]
      set c : Sha2Ctx p := { context with buffer := block }
      have hfull : Holds (2 * w) p.compress p.start (p.transformed c block).state
          (p.transformed c block).buffer (xs ++ ys) := by
        rw [transformed_state c hover]
        exact h.full (by rw [hys]; exact List.cons_ne_nil _ _) (by omega)
          (transformed_buffer c block)
      have hmod : (xs ++ ys).length % (2 * w) = 0 := by
        rw [List.length_append, hlen, ← Nat.mod_add_mod, Nat.add_sub_cancel' hlt.le, Nat.mod_self]
      have hmsg : xs ++ 0x80 :: List.replicate (missing (2 * w) (xs.length + 1 + w / 4)) 0 =
          xs ++ ys ++ List.replicate (shortBlock w) 0 := by
        rw [missing_long p (by omega), List.replicate_add, hys, List.append_assoc,
          List.cons_append]
      rw [hmsg]
      exact hfull.cleared hmod (by omega) p.clear_le.1 p.clear_le.2
  · simp only [if_neg hused]
    have hzero : xs.length % (2 * w) = 0 := by omega
    have hmiss := missing_short p xs.length (by omega)
    rw [hzero] at hmiss
    have hlen : shortBlock w = shortBlock w - (0 + 1) + 1 := by omega
    have hover : (overlay context.buffer 0 (List.replicate (shortBlock w) 0)).set 0 0x80 =
        overlay context.buffer 0 (0x80 :: List.replicate (shortBlock w - (0 + 1)) 0) := by
      conv_lhs => rw [hlen]
      rw [List.replicate_succ, overlay, overlay, List.take_zero, List.nil_append, List.nil_append,
        List.cons_append, List.set_cons_zero, List.length_cons, List.length_cons]
      rfl
    rw [hmiss, hover]
    refine h.rest hzero ?_
    rw [List.length_cons, List.length_replicate]
    omega

theorem pad_bitcount (context : Sha2Ctx p) (used : ℕ) :
    (p.pad context used).bitcount = context.bitcount := by
  unfold Sha2Kind.pad
  simp only
  split_ifs <;> rfl

/-- **The last transform** makes the state that of the padded message. -/
theorem last_state (h : context.After xs) :
    (p.last context).state = foldBlocks (2 * w) p.compress p.start
      (padMessage (2 * w) 0x80 0 (bytesOf (w / 4) (8 * xs.length)).reverse xs) := by
  have hpos := p.pos
  have hw := p.width
  have hshort := shortBlock_add p
  set field := (bytesOf (w / 4) (8 * xs.length)).reverse with hfield
  have hlen : field.length = w / 4 := by rw [hfield, List.length_reverse, length_bytesOf]
  have hstore : p.store (p.turn context.bitcount) = field := by
    have hpow : 2 ^ (2 * w) = 256 ^ (w / 4) := by
      rcases hw with rfl | rfl <;> rfl
    rw [p.store_turn, h.value, hpow, bytesOf_mod]
  set c : Sha2Ctx p := { context with bitcount := p.turn context.bitcount } with hc
  have hpad : Holds (2 * w) p.compress p.start (p.pad c (xs.length % (2 * w))).state
      (p.pad c (xs.length % (2 * w))).buffer
      (xs ++ 0x80 :: List.replicate (missing (2 * w) (xs.length + 1 + w / 4)) 0) :=
    pad_holds c h.holds
  set c' := p.pad c (xs.length % (2 * w)) with hc'
  set front := xs ++ 0x80 :: List.replicate (missing (2 * w) (xs.length + 1 + w / 4)) 0
    with hfront
  have hmsg : front ++ field = padMessage (2 * w) 0x80 0 field xs := by
    rw [padMessage, hfront, hlen]
  have hdvd : 2 * w ∣ (front ++ field).length := by
    rw [hmsg]
    exact dvd_length_padMessage hpos
  have hmod : front.length % (2 * w) = shortBlock w := by
    rw [List.length_append, hlen] at hdvd
    obtain ⟨q, hq⟩ := hdvd
    have hsum : front.length = 2 * w * (q - 1) + shortBlock w := by
      cases q with
      | zero => omega
      | succ q => rw [Nat.mul_succ] at hq; rw [Nat.add_sub_cancel]; omega
    rw [hsum, Nat.mul_add_mod, Nat.mod_eq_of_lt (by omega)]
  have hne : field ≠ [] := by
    intro hnil
    rw [hnil, List.length_nil] at hlen
    omega
  have hover : (overlay c'.buffer (shortBlock w) field).length = 2 * w := by
    rw [length_overlay (by rw [hpad.size]; omega), hpad.size]
  have hfull := hpad.full hne (by omega) hover
  rw [hmod] at hfull
  rw [← hmsg, hfull.foldBlocks_eq hpos hdvd]
  have hlast : p.last context =
      p.transformed { c' with buffer := overlay c'.buffer (shortBlock w) field }
        (overlay c'.buffer (shortBlock w) field) := by
    unfold Sha2Kind.last
    simp only [h.used_eq, ← hc, ← hc']
    rw [hc', pad_bitcount, hc, ← hstore]
  rw [hlast, transformed_state _ hover]

/-- **A digest** is that of the bytes before. -/
theorem final_eq (h : context.After xs) : p.final context = p.digest xs := by
  unfold Sha2Kind.final Sha2Kind.digest
  rw [last_state h, funext p.reverse_bytes]

theorem init_after : p.init.After [] where
  holds := Holds.start (List.length_replicate)
  value := by
    rw [List.length_nil, Nat.mul_zero, Nat.zero_mod]
    exact p.value_zero

/-- **The digest is that of the message, in whatever pieces it comes.** -/
theorem sha2_pieces (p : Sha2Kind w) (pieces : List (List u8)) :
    p.final (pieces.foldl p.update p.init) = p.digest pieces.flatten := by
  have hrun : ∀ (context : Sha2Ctx p) (xs : List u8), context.After xs →
      (pieces.foldl p.update context).After (xs ++ pieces.flatten) := by
    induction pieces with
    | nil => intro context xs h; rwa [List.flatten_nil, List.append_nil]
    | cons q pieces ih =>
      intro context xs h
      rw [List.flatten_cons, ← List.append_assoc]
      exact ih _ _ (sha2Update_after h)
  exact final_eq (hrun p.init [] init_after)

/-! ## SHA-256, SHA-384 and SHA-512 -/

/-- `K256`. -/
def K256 : List (BitVec 32) := [
  0x428a2f98, 0x71374491, 0xb5c0fbcf, 0xe9b5dba5, 0x3956c25b, 0x59f111f1, 0x923f82a4,
  0xab1c5ed5, 0xd807aa98, 0x12835b01, 0x243185be, 0x550c7dc3, 0x72be5d74, 0x80deb1fe,
  0x9bdc06a7, 0xc19bf174, 0xe49b69c1, 0xefbe4786, 0x0fc19dc6, 0x240ca1cc, 0x2de92c6f,
  0x4a7484aa, 0x5cb0a9dc, 0x76f988da, 0x983e5152, 0xa831c66d, 0xb00327c8, 0xbf597fc7,
  0xc6e00bf3, 0xd5a79147, 0x06ca6351, 0x14292967, 0x27b70a85, 0x2e1b2138, 0x4d2c6dfc,
  0x53380d13, 0x650a7354, 0x766a0abb, 0x81c2c92e, 0x92722c85, 0xa2bfe8a1, 0xa81a664b,
  0xc24b8b70, 0xc76c51a3, 0xd192e819, 0xd6990624, 0xf40e3585, 0x106aa070, 0x19a4c116,
  0x1e376c08, 0x2748774c, 0x34b0bcb5, 0x391c0cb3, 0x4ed8aa4a, 0x5b9cca4f, 0x682e6ff3,
  0x748f82ee, 0x78a5636f, 0x84c87814, 0x8cc70208, 0x90befffa, 0xa4506ceb, 0xbef9a3f7,
  0xc67178f2]

/-- `K512`. -/
def K512 : List (BitVec 64) := [
  0x428a2f98d728ae22, 0x7137449123ef65cd, 0xb5c0fbcfec4d3b2f, 0xe9b5dba58189dbbc,
  0x3956c25bf348b538, 0x59f111f1b605d019, 0x923f82a4af194f9b, 0xab1c5ed5da6d8118,
  0xd807aa98a3030242, 0x12835b0145706fbe, 0x243185be4ee4b28c, 0x550c7dc3d5ffb4e2,
  0x72be5d74f27b896f, 0x80deb1fe3b1696b1, 0x9bdc06a725c71235, 0xc19bf174cf692694,
  0xe49b69c19ef14ad2, 0xefbe4786384f25e3, 0x0fc19dc68b8cd5b5, 0x240ca1cc77ac9c65,
  0x2de92c6f592b0275, 0x4a7484aa6ea6e483, 0x5cb0a9dcbd41fbd4, 0x76f988da831153b5,
  0x983e5152ee66dfab, 0xa831c66d2db43210, 0xb00327c898fb213f, 0xbf597fc7beef0ee4,
  0xc6e00bf33da88fc2, 0xd5a79147930aa725, 0x06ca6351e003826f, 0x142929670a0e6e70,
  0x27b70a8546d22ffc, 0x2e1b21385c26c926, 0x4d2c6dfc5ac42aed, 0x53380d139d95b3df,
  0x650a73548baf63de, 0x766a0abb3c77b2a8, 0x81c2c92e47edaee6, 0x92722c851482353b,
  0xa2bfe8a14cf10364, 0xa81a664bbc423001, 0xc24b8b70d0f89791, 0xc76c51a30654be30,
  0xd192e819d6ef5218, 0xd69906245565a910, 0xf40e35855771202a, 0x106aa07032bbd1b8,
  0x19a4c116b8d2d0c8, 0x1e376c085141ab53, 0x2748774cdf8eeb99, 0x34b0bcb5e19b48a8,
  0x391c0cb3c5c95a63, 0x4ed8aa4ae3418acb, 0x5b9cca4f7763e373, 0x682e6ff3d6b2b8a3,
  0x748f82ee5defb2fc, 0x78a5636f43172f60, 0x84c87814a1f0ab72, 0x8cc702081a6439ec,
  0x90befffa23631e28, 0xa4506cebde82bde9, 0xbef9a3f7b2c67915, 0xc67178f2e372532b,
  0xca273eceea26619c, 0xd186b8c721c0c207, 0xeada7dd6cde0eb1e, 0xf57d4f7fee6ed178,
  0x06f067aa72176fba, 0x0a637dc5a2c898a6, 0x113f9804bef90dae, 0x1b710b35131c471b,
  0x28db77f523047d84, 0x32caab7b40c72493, 0x3c9ebe0a15c9bebc, 0x431d67c49c100d4c,
  0x4cc5d4becb3e42b6, 0x597f299cfc657e2a, 0x5fcb6fab3ad6faec, 0x6c44198c4a475817]

/-- `S32` and `S64`. -/
def shaTurn (b : ℕ) (x : BitVec w) : BitVec w := x >>> b ||| x <<< (w - b)

/-- SHA-256. Its `bitcount` is one word. -/
def sha256 : Sha2Kind 32 where
  K := K256
  Sigma0 x := shaTurn 2 x ^^^ shaTurn 13 x ^^^ shaTurn 22 x
  Sigma1 x := shaTurn 6 x ^^^ shaTurn 11 x ^^^ shaTurn 25 x
  sigma0 x := shaTurn 7 x ^^^ shaTurn 18 x ^^^ x >>> 3
  sigma1 x := shaTurn 17 x ^^^ shaTurn 19 x ^^^ x >>> 10
  reverse := reverse32
  octets := rfl
  reverse_bytes := bytesOf_reverse32
  Count := BitVec 64
  zero := 0
  add c n := c + n
  low c := c
  turn := reverse64
  store c := bytesOf 8 c.toNat
  value c := c.toNat
  clear := 56
  start := ⟨0x6a09e667, 0xbb67ae85, 0x3c6ef372, 0xa54ff53a,
    0x510e527f, 0x9b05688c, 0x1f83d9ab, 0x5be0cd19⟩
  digestWords := 8
  rounds_le := by decide
  width := Or.inl rfl
  value_zero := rfl
  value_add := BitVec.toNat_add
  low_value c := (Nat.mod_eq_of_lt c.isLt).symm
  store_turn := bytesOf_reverse64
  clear_le := by decide

/-- `ADDINC128`: two words, the lower one first. -/
def addinc128 (c : BitVec 64 × BitVec 64) (n : BitVec 64) : BitVec 64 × BitVec 64 :=
  let low := c.1 + n
  (low, if low < n then c.2 + 1 else c.2)

/-- **The two words count as one.** -/
theorem addinc128_value (c : BitVec 64 × BitVec 64) (n : BitVec 64) :
    (addinc128 c n).1.toNat + 2 ^ 64 * (addinc128 c n).2.toNat =
      (c.1.toNat + 2 ^ 64 * c.2.toNat + n.toNat) % 2 ^ (2 * 64) := by
  have hlow := c.1.isLt
  have hhigh := c.2.isLt
  have hn := n.isLt
  have hsum : (c.1 + n).toNat = (c.1.toNat + n.toNat) % 2 ^ 64 := BitVec.toNat_add c.1 n
  have hcarry : c.1 + n < n ↔ (c.1.toNat + n.toNat) % 2 ^ 64 < n.toNat := by
    rw [BitVec.lt_def, hsum]
  have hone : (1 : BitVec 64).toNat = 1 := rfl
  unfold addinc128
  dsimp only
  split_ifs with hc
  · rw [hcarry] at hc
    rw [hsum, BitVec.toNat_add, hone]
    omega
  · rw [hcarry] at hc
    rw [hsum]
    omega

/-- SHA-512. -/
def sha512 : Sha2Kind 64 where
  K := K512
  Sigma0 x := shaTurn 28 x ^^^ shaTurn 34 x ^^^ shaTurn 39 x
  Sigma1 x := shaTurn 14 x ^^^ shaTurn 18 x ^^^ shaTurn 41 x
  sigma0 x := shaTurn 1 x ^^^ shaTurn 8 x ^^^ x >>> 7
  sigma1 x := shaTurn 19 x ^^^ shaTurn 61 x ^^^ x >>> 6
  reverse := reverse64
  octets := rfl
  reverse_bytes := bytesOf_reverse64
  Count := BitVec 64 × BitVec 64
  zero := (0, 0)
  add := addinc128
  low c := c.1
  turn c := (reverse64 c.1, reverse64 c.2)
  store c := bytesOf 8 c.2.toNat ++ bytesOf 8 c.1.toNat
  value c := c.1.toNat + 2 ^ 64 * c.2.toNat
  -- two bytes are left, which the field is put over
  clear := 128 - 2
  start := ⟨0x6a09e667f3bcc908, 0xbb67ae8584caa73b, 0x3c6ef372fe94f82b, 0xa54ff53a5f1d36f1,
    0x510e527fade682d1, 0x9b05688c2b3e6c1f, 0x1f83d9abfb41bd6b, 0x5be0cd19137e2179⟩
  digestWords := 8
  rounds_le := by decide
  width := Or.inr rfl
  value_zero := rfl
  value_add := addinc128_value
  low_value c := by
    have hlow := c.1.isLt
    omega
  store_turn c := by
    have hlow := c.1.isLt
    have hdiv : (c.1.toNat + 2 ^ 64 * c.2.toNat) / 256 ^ 8 = c.2.toNat := by omega
    have hmod : (c.1.toNat + 2 ^ 64 * c.2.toNat) % 256 ^ 8 = c.1.toNat := by omega
    rw [bytesOf_reverse64, bytesOf_reverse64, ← List.reverse_append]
    refine congrArg List.reverse ?_
    have hsplit := bytesOf_add 8 8 (c.1.toNat + 2 ^ 64 * c.2.toNat)
    have hfirst := bytesOf_mod 8 (c.1.toNat + 2 ^ 64 * c.2.toNat)
    rw [hdiv, ← hfirst, hmod] at hsplit
    exact hsplit.symm
  clear_le := by decide

/-- SHA-384: the state it begins with, and the words of the digest. -/
def sha384 : Sha2Kind 64 :=
  { sha512 with
    start := ⟨0xcbbb9d5dc1059ed8, 0x629a292a367cd507, 0x9159015a3070dd17, 0x152fecd8f70e5939,
      0x67332667ffc00b31, 0x8eb44a8768581511, 0xdb0c2e0d64f98fa7, 0x47b5481dbefa4fa4⟩
    digestWords := 6 }

/-- A block of zeros, in its own buffer. -/
theorem transform_state_zeros :
    (sha256.transform sha256.start (List.replicate 64 0) (List.replicate 64 0)).1 =
      sha256.compress sha256.start (List.replicate 64 0) :=
  transform_state sha256.toSha2 (by decide) (by decide)

-- the first bytes of the digests of `abc`
example : (sha256.digest [97, 98, 99]).take 4 = [0xba, 0x78, 0x16, 0xbf] := by decide +kernel
example : (sha384.digest [97, 98, 99]).take 4 = [0xcb, 0x00, 0x75, 0x3f] := by decide +kernel
example : (sha512.digest [97, 98, 99]).take 4 = [0xdd, 0xaf, 0x35, 0xa1] := by decide +kernel

end Radare
