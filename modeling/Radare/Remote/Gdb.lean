import Mathlib.Data.List.GetD
import Radare.Common.Overlay
import Radare.Model.Text
/-!
# The packets of `libgdbwrap`

A packet is `$`, a text, `#` and two digits of the sum of the text. In the text
a `*` and a count stand for more of the byte before them; this is put in place
in the packet's memory (`rleLoop_texts`).

A text that was made a packet arrives however the stream is cut, if the first
piece has three bytes (`gdbGet_make`). But the sum of what has arrived is taken
of a copy one place further to the front, which `strncpy` makes in the same
memory. The registers that are shipped are those that are read from the same
packet (`gdbReg_ship`).

Where a byte beside the memory would be read or written, or `strncpy` copies
over what it copies from, there is no result.
-/

namespace Radare

open Common

/-! ## The program -/

/-- `gdbwrap_extract_from_packet`, between two characters. -/
def gdbExtract (str : List u8) (first last : Option u8) (maxsize : ℕ) : Option (List u8) := do
  let charbegin ← match first with
    | none => some str
    | some c => if c ∈ str then some ((str.dropWhile (· ≠ c)).tail) else none
  let text ← match last with
    | none => some charbegin
    | some c => if c ∈ charbegin then some (charbegin.takeWhile (· ≠ c)) else none
  return text.take maxsize

/-- What `gdbwrap_calc_checksum` leaves in the packet. -/
def gdbChecked (max : ℕ) (str : List u8) : List u8 :=
  (gdbExtract str (some 0x24) (some 0x23) max).getD (str.take max)

/-- `gdbwrap_calc_checksum`. -/
def gdbSum (text : List u8) : u8 := text.foldl (· + ·) 0

/-- `gdbwrap_make_message`. A text that is too long is left as it is. -/
def gdbMake (max : ℕ) (query : List u8) : List u8 :=
  let checked := gdbChecked max query
  -- `max_query_size` is unsigned
  if query.length < (max + (2 ^ 32 - 3)) % 2 ^ 32 then
    (0x24 :: query ++ 0x23 :: hexText 2 (gdbSum checked).toUInt64).take (max - 1)
  else checked

/-- A digit of `gdbwrap_atoh`. -/
def gdbDigit (c : u8) : Option ℕ :=
  if 0x61 ≤ c ∧ c ≤ 0x66 then some (c.toNat - 0x57)
  else if 0x30 ≤ c ∧ c ≤ 0x39 then some (c.toNat - 0x30)
  else none

/-- The loop of `gdbwrap_atoh`. -/
def gdbAtohLoop : List u8 → ℕ → ℕ
  | [], hex => hex
  | c :: str, hex =>
    match gdbDigit c with
    | some d => gdbAtohLoop str ((hex + d * 16 ^ str.length) % 2 ^ 32)
    | none => 0

/-- `gdbwrap_atoh`. -/
def gdbAtoh (str : List u8) : ℕ := gdbAtohLoop str 0

/-- A byte is stored in the memory. -/
def storeAt (mem : List u8) (i : ℕ) (b : u8) : Option (List u8) :=
  if i < mem.length then some (mem.set i b) else none

/-- The loop of `gdbwrap_run_length_decode` that moves the string. -/
def rleMove (e strlenc times : ℕ) (mem : List u8) (iter : ℕ) : Option (List u8) :=
  if iter < strlenc then
    if strlenc + times < iter + 2 then none
    else
      match storeAt mem (e + (strlenc + times - iter - 2)) (mem.getD (e + strlenc - iter) 0) with
      | none => none
      | some mem => rleMove e strlenc times mem (iter + 1)
  else some mem
termination_by strlenc - iter

/-- The loop of `gdbwrap_run_length_decode`, from a place in the memory on. -/
def rleLoop : ℕ → List u8 → ℕ → Option (List u8)
  | 0, _, _ => none
  | fuel + 1, mem, place =>
    let str := cstr (mem.drop place)
    if 0x2a ∈ str then do
      let e := place + str.idxOf 0x2a
      let valuetocopy ← if e = 0 then none else mem[e - 1]?
      let times := (mem.getD (e + 1) 0 - 29).toNat
      let mem ← rleMove e (cstr (mem.drop e)).length times mem 0
      if e + times ≤ mem.length then
        rleLoop fuel (overlay mem e (List.replicate times valuetocopy)) (e + 1)
      else none
    else some mem

/-- What one `recv` gives, if it gives bytes; and whether `errno` is `EINTR`
behind it. -/
structure GdbRecv where
  bytes : Option (List u8)
  eintr : Bool

/-- The loop of `gdbwrap_get_packet`, over what each `recv` gives: the memory,
its length, and what the last returned. -/
def gdbRecv : List GdbRecv → List u8 → ℤ → Option (List u8 × ℤ × ℤ)
  | [], _, _ => none
  | recv :: recvs, mem, sumrval =>
    match overlayAt mem sumrval (recv.bytes.getD []) with
    | none => none
    | some mem =>
      let rval := recv.bytes.elim (-1 : ℤ) fun bytes => (bytes.length : ℤ)
      let sumrval := sumrval + rval
      if recv.eintr then some (mem, sumrval, rval)
      else if sumrval ≥ 3 ∧ mem.getD (sumrval - 3).toNat 0 ≠ 0x23 ∧ rval ≠ 0 then
        gdbRecv recvs mem sumrval
      else some (mem, sumrval, rval)

/-- `gdbwrap_calc_checksum` of the packet's own memory: what it leaves there,
and the sum. -/
def gdbCalc (max : ℕ) (mem : List u8) : Option (List u8 × u8) :=
  let str := cstr mem
  match gdbExtract str (some 0x24) (some 0x23) max with
  | some text =>
    if str.idxOf 0x24 + 1 < text.length then none
    else some (overlay mem 0 (text ++ [0]), gdbSum text)
  -- not a packet: the string is copied to where it is
  | none => if str = [] then some (mem, 0) else none

/-- `gdbwrap_get_packet`, with the memory before it: the packet returned, if
any is. -/
def gdbGet (max : ℕ) (interrupted : Bool) (mem : List u8) (recvs : List GdbRecv) :
    Option (Option (List u8)) := do
  let (mem, sumrval, rval) ← gdbRecv recvs (mem.set 0 0) 0
  if rval = 0 then some none
  else
    let mem ← overlayAt mem sumrval [0]
    let checksum := gdbExtract (cstr mem) (some 0x23) none 3
    -- behind three characters the NUL is not in `checksum`
    if checksum.map List.length = some 3 then none
    else if rval = -1 then
      if interrupted then (rleLoop mem.length mem 0).map fun mem => some (cstr mem) else some none
    else
      let digits ← checksum
      let (mem, sum) ← gdbCalc max mem
      if gdbAtoh digits = sum.toNat ∨ interrupted then
        (rleLoop mem.length mem 0).map fun mem => some (cstr mem)
      else some none

/-- `gdbwrap_little_endian`, with so many bytes left. -/
def gdbLittleEndian : ℕ → ℕ → ℕ
  | 0, _ => 0
  | k + 1, addr => if addr > 0 then addr % 256 * 256 ^ k + gdbLittleEndian k (addr / 256) else 0

/-- A register of `gdbwrap_readgenreg`, from the packet's memory. A character
that is no digit ends the reading in front of the memory's end. -/
def gdbReg (mem : List u8) (i : ℕ) : Option ℕ :=
  let str := (mem.drop (8 * i)).take 8
  if str.length = 8 ∨ ∃ c ∈ str, gdbDigit c = none then
    some (gdbLittleEndian 4 (gdbAtoh str))
  else none

/-- `gdbwrap_shipallreg`: what is sent, with the answer to `g` in the packet's
memory. -/
def gdbShip (savedregs : List ut64) (ret : List u8) : List u8 :=
  let locreg := (savedregs.take 9).flatMap fun r =>
    hexText 8 (UInt64.ofNat (gdbLittleEndian 4 r.toNat))
  (0x47 :: cstr (overlay ret 0 locreg)).take 699

/-! ## Counts in the memory -/

variable {mem mem' done post slack : List u8} {e i iter strlenc times place fuel max : ℕ} {c v : u8}

/-- The memory while the string is moved: what is behind the place that is
written next has come from further in front. -/
structure Moved (e strlenc times : ℕ) (mem : List u8) (iter : ℕ) (mem' : List u8) : Prop where
  length : mem'.length = mem.length
  get : ∀ i, mem'[i]? = if e + (strlenc + times - 2 - iter) < i ∧ i ≤ e + (strlenc + times - 2) then
    mem[i - (times - 2)]? else mem[i]?

/-- **The string is moved**, if there are at least two bytes for the count. -/
theorem rleMove_moved (htimes : 2 ≤ times) (hfit : e + (strlenc + times - 2) < mem.length)
    (hiter : iter ≤ strlenc) (h : Moved e strlenc times mem iter mem') :
    ∃ out, rleMove e strlenc times mem' iter = some out ∧
      Moved e strlenc times mem strlenc out := by
  induction hleft : strlenc - iter generalizing iter mem' with
  | zero =>
    obtain rfl : iter = strlenc := by omega
    refine ⟨mem', ?_, h⟩
    rw [rleMove, if_neg (Nat.lt_irrefl iter)]
  | succ n ih =>
    have hlt : iter < strlenc := by omega
    have hplace : e + (strlenc + times - iter - 2) < mem'.length := by
      rw [h.length]
      omega
    have hsource : mem'.getD (e + strlenc - iter) 0 = mem.getD (e + strlenc - iter) 0 := by
      rw [List.getD_eq_getElem?_getD, h.get, if_neg (by omega), List.getD_eq_getElem?_getD]
    set b := mem.getD (e + strlenc - iter) 0 with hb
    have hnext : Moved e strlenc times mem (iter + 1)
        (mem'.set (e + (strlenc + times - iter - 2)) b) := by
      refine ⟨by rw [List.length_set, h.length], fun i => ?_⟩
      rw [List.getElem?_set]
      by_cases heq : e + (strlenc + times - iter - 2) = i
      · have hin : e + strlenc - iter < mem.length := by omega
        have hfrom : i - (times - 2) = e + strlenc - iter := by omega
        rw [if_pos heq, if_pos hplace, if_pos (by omega), hfrom, hb,
          List.getD_eq_getElem _ _ hin, List.getElem?_eq_getElem hin]
      · rw [if_neg heq, h.get]
        by_cases hin : e + (strlenc + times - 2 - iter) < i ∧ i ≤ e + (strlenc + times - 2)
        · rw [if_pos hin, if_pos (by omega)]
        · rw [if_neg hin, if_neg (by omega)]
    obtain ⟨out, hout, hmoved⟩ := ih (by omega) hnext (by omega)
    refine ⟨out, ?_, hmoved⟩
    rw [rleMove, if_pos hlt, if_neg (by omega), hsource]
    unfold storeAt
    rw [if_pos hplace]
    exact hout

/-- **A count** is put in place. -/
theorem rle_count (htimes : 2 ≤ times) (hfit : times - 2 ≤ slack.length)
    (hmoved : Moved done.length (post.length + 2) times
      (done ++ 0x2a :: c :: post ++ 0 :: slack) (post.length + 2) mem') :
    overlay mem' done.length (List.replicate times v) =
      done ++ List.replicate times v ++ (post ++ 0 :: slack.drop (times - 2)) := by
  have hsplit : done ++ 0x2a :: c :: post ++ 0 :: slack =
      (done ++ [0x2a, c]) ++ (post ++ 0 :: slack) := by
    rw [List.append_assoc, List.append_assoc]
    rfl
  have hfront : (done ++ [0x2a, c]).length = done.length + 2 := List.length_append
  have hlen : mem'.length = done.length + 2 + (post.length + (slack.length + 1)) := by
    rw [hmoved.length, hsplit, List.length_append, hfront, List.length_append, List.length_cons]
  have hover : done.length + (List.replicate times v).length ≤ mem'.length := by
    rw [List.length_replicate]
    omega
  refine List.ext_getElem? fun i => ?_
  rw [getElem?_overlay hover, List.length_replicate]
  rcases Nat.lt_or_ge i done.length with hlt | hge
  · -- in front of the count
    rw [if_neg (by omega), hmoved.get, if_neg (by omega), List.append_assoc, List.append_assoc,
      List.getElem?_append_left hlt, List.getElem?_append_left hlt]
  rcases Nat.lt_or_ge i (done.length + times) with hlt | hge'
  · -- in the copies
    have hin : i < (done ++ List.replicate times v).length := by
      rw [List.length_append, List.length_replicate]
      exact hlt
    rw [if_pos ⟨hge, hlt⟩, List.getElem?_append_left hin, List.getElem?_append_right hge]
  · -- behind them
    have hbehind : (done ++ List.replicate times v).length ≤ i := by
      rw [List.length_append, List.length_replicate]
      exact hge'
    rw [if_neg (by omega), List.getElem?_append_right hbehind, List.length_append,
      List.length_replicate, hmoved.get, hsplit]
    rcases Nat.lt_or_ge (done.length + times + post.length) i with hgt | hle
    · rw [if_neg (by omega), List.getElem?_append_right (by omega), hfront,
        List.getElem?_append_right (by omega), List.getElem?_append_right (by omega)]
      obtain ⟨k, hk⟩ : ∃ k, i = done.length + times + post.length + 1 + k :=
        Nat.exists_eq_add_of_lt hgt |>.imp fun k hk => by omega
      rw [show i - (done.length + 2) - post.length = (times - 2 + k) + 1 by omega,
        show i - (done.length + times) - post.length = k + 1 by omega, List.getElem?_cons_succ,
        List.getElem?_cons_succ, List.getElem?_drop]
    · rw [if_pos (by omega), List.getElem?_append_right (by omega), hfront,
        show i - (times - 2) - (done.length + 2) = i - (done.length + times) by omega]
      rcases Nat.lt_or_ge (i - (done.length + times)) post.length with hlt | hge''
      · rw [List.getElem?_append_left hlt, List.getElem?_append_left hlt]
      · rw [show i - (done.length + times) = post.length by omega,
          List.getElem?_append_right (Nat.le_refl _), List.getElem?_append_right (Nat.le_refl _),
          Nat.sub_self]
        rfl

/-! ## What counts stand for -/

/-- A byte of a packet's text, or one with a count. -/
inductive RleToken where
  | byte (c : u8)
  | run (c : u8) (n : ℕ)

/-- The text of it. -/
def RleToken.text : RleToken → List u8
  | .byte c => [c]
  | .run c n => [c, 0x2a, UInt8.ofNat (n + 29)]

/-- The bytes it stands for. -/
def RleToken.bytes : RleToken → List u8
  | .byte c => [c]
  | .run c n => c :: List.replicate n c

/-- A token that can stand in a text. -/
def RleToken.Valid : RleToken → Prop
  | .byte c => c ≠ 0 ∧ c ≠ 0x2a
  | .run c n => c ≠ 0 ∧ c ≠ 0x2a ∧ 2 ≤ n ∧ n + 29 < 256

instance : DecidablePred RleToken.Valid
  | .byte c => inferInstanceAs (Decidable (c ≠ 0 ∧ c ≠ 0x2a))
  | .run c n => inferInstanceAs (Decidable (c ≠ 0 ∧ c ≠ 0x2a ∧ 2 ≤ n ∧ n + 29 < 256))

variable {ts : List RleToken} {t : RleToken}

/-- The byte of a count is not the NUL. -/
theorem count_ne_zero {n : ℕ} (hn : n + 29 < 256) : UInt8.ofNat (n + 29) ≠ 0 := by
  intro h
  have hnat := congrArg UInt8.toNat h
  rw [UInt8.toNat_ofNat', Nat.mod_eq_of_lt (by omega)] at hnat
  cases hnat

theorem RleToken.Valid.text (h : t.Valid) : ∀ b ∈ t.text, b ≠ 0 := by
  cases t with
  | byte c =>
    intro b hb
    rw [List.mem_singleton.mp hb]
    exact h.1
  | run c n =>
    obtain ⟨hc, -, -, hn⟩ := h
    intro b hb
    rcases List.mem_cons.mp hb with rfl | hb
    · exact hc
    rcases List.mem_cons.mp hb with rfl | hb
    · decide
    · rw [List.mem_singleton.mp hb]
      exact count_ne_zero hn

theorem RleToken.Valid.bytes (h : t.Valid) : ∀ b ∈ t.bytes, b ≠ 0 ∧ b ≠ 0x2a := by
  cases t with
  | byte c =>
    intro b hb
    rw [List.mem_singleton.mp hb]
    exact h
  | run c n =>
    intro b hb
    rw [List.eq_of_mem_replicate (show b ∈ List.replicate (n + 1) c from hb)]
    exact ⟨h.1, h.2.1⟩

theorem RleToken.Valid.length_le (h : t.Valid) : t.text.length ≤ t.bytes.length := by
  cases t with
  | byte c => exact Nat.le_refl 1
  | run c n =>
    obtain ⟨-, -, hn, -⟩ := h
    have hbytes : (RleToken.run c n).bytes.length = n + 1 := congrArg (· + 1) List.length_replicate
    rw [hbytes]
    exact Nat.succ_le_succ hn

theorem length_texts_le (hts : ∀ t ∈ ts, t.Valid) :
    (ts.flatMap RleToken.text).length ≤ (ts.flatMap RleToken.bytes).length := by
  induction ts with
  | nil => exact Nat.le_refl 0
  | cons t ts ih =>
    have hhead := (hts t List.mem_cons_self).length_le
    have hrest := ih fun t ht => hts t (List.mem_cons_of_mem _ ht)
    rw [List.flatMap_cons, List.flatMap_cons, List.length_append, List.length_append]
    omega

theorem length_le_texts (ts : List RleToken) : ts.length ≤ (ts.flatMap RleToken.text).length := by
  induction ts with
  | nil => exact Nat.le_refl 0
  | cons t ts ih =>
    have hone : 1 ≤ t.text.length := by
      cases t with
      | byte c => exact Nat.le_refl 1
      | run c n => exact Nat.le_add_left 1 2
    rw [List.flatMap_cons, List.length_append, List.length_cons]
    omega

theorem texts_ne_zero (hts : ∀ t ∈ ts, t.Valid) : ∀ b ∈ ts.flatMap RleToken.text, b ≠ 0 := by
  intro b hb
  obtain ⟨t, ht, hb⟩ := List.mem_flatMap.mp hb
  exact (hts t ht).text b hb

/-- The count of a run. -/
theorem times_run {n : ℕ} (hn : n + 29 < 256) : (UInt8.ofNat (n + 29) - 29).toNat = n := by
  have hadd : UInt8.ofNat (n + 29) = UInt8.ofNat n + 29 := by
    rw [UInt8.ofNat_add]
    rfl
  rw [hadd, UInt8.add_sub_cancel, UInt8.toNat_ofNat']
  omega

/-- There is no NUL in a count and what is behind it. -/
theorem zero_not_mem_count {k : u8} (hcount : k ≠ 0) (hpost : ∀ b ∈ post, b ≠ 0) :
    (0 : u8) ∉ 0x2a :: k :: post := by
  intro hb
  rcases List.mem_cons.mp hb with hb | hb
  · cases hb
  rcases List.mem_cons.mp hb with hb | hb
  · exact hcount hb.symm
  · exact hpost 0 hb rfl

/-- The first `*` is that of the count: the string that is searched, and the
place of it. -/
theorem rle_star {k : u8} (slack : List u8) (hplain : c ≠ 0) (hstar : c ≠ 0x2a) (hcount : k ≠ 0)
    (hpost : ∀ b ∈ post, b ≠ 0) (hplace : place ≤ done.length)
    (hdone : ∀ b ∈ done.drop place, b ≠ 0 ∧ b ≠ 0x2a) :
    cstr (((done ++ [c]) ++ 0x2a :: k :: post ++ 0 :: slack).drop place) =
        done.drop place ++ c :: 0x2a :: k :: post ∧
      place + (done.drop place ++ c :: 0x2a :: k :: post).idxOf 0x2a = done.length + 1 := by
  constructor
  · have hdrop : ((done ++ [c]) ++ 0x2a :: k :: post ++ 0 :: slack).drop place =
        (done.drop place ++ c :: 0x2a :: k :: post) ++ 0 :: slack := by
      rw [List.append_assoc, List.append_assoc, List.drop_append_of_le_length hplace,
        List.append_assoc]
      rfl
    rw [hdrop]
    refine cstr_front fun hb => ?_
    rcases List.mem_append.mp hb with hb | hb
    · exact (hdone 0 hb).1 rfl
    rcases List.mem_cons.mp hb with hb | hb
    · exact hplain hb.symm
    · exact zero_not_mem_count hcount hpost hb
  · have hnot : 0x2a ∉ done.drop place := fun hb => (hdone _ hb).2 rfl
    rw [List.idxOf_append_of_notMem hnot, List.idxOf_cons_ne _ hstar, List.idxOf_cons_self,
      List.length_drop]
    omega

/-- **A turn of the decoding**: the first count is put in place. -/
theorem rleLoop_run {n : ℕ} (ht : (RleToken.run c n).Valid) (hpost : ∀ b ∈ post, b ≠ 0)
    (hmem : mem = done ++ (RleToken.run c n).text ++ post ++ 0 :: slack)
    (hplace : place ≤ done.length) (hdone : ∀ b ∈ done.drop place, b ≠ 0 ∧ b ≠ 0x2a)
    (hfit : n - 2 ≤ slack.length) :
    rleLoop (fuel + 1) mem place =
      rleLoop fuel (done ++ (RleToken.run c n).bytes ++ post ++ 0 :: slack.drop (n - 2))
        (done.length + 2) := by
  obtain ⟨hplain, hstar, hn, hcount⟩ := ht
  set k := UInt8.ofNat (n + 29) with hk
  have hmem' : mem = (done ++ [c]) ++ 0x2a :: k :: post ++ 0 :: slack := by
    rw [hmem, List.append_assoc done, List.append_assoc done [c]]
    rfl
  have hfront : (done ++ [c]).length = done.length + 1 := List.length_append
  have hlen : mem.length = done.length + 1 + (2 + post.length) + (slack.length + 1) := by
    rw [hmem', List.length_append, List.length_append, hfront, List.length_cons,
      List.length_cons, List.length_cons]
    omega
  -- the `*` that is found
  obtain ⟨hstr, hidx⟩ := rle_star slack hplain hstar (count_ne_zero hcount) hpost hplace
    hdone
  rw [← hk, ← hmem'] at hstr
  have hin : 0x2a ∈ done.drop place ++ c :: 0x2a :: k :: post :=
    List.mem_append_right _ (List.mem_cons_of_mem _ List.mem_cons_self)
  -- the byte before it, and its count
  have hvalue : mem[done.length + 1 - 1]? = some c := by
    rw [hmem', Nat.add_sub_cancel, List.append_assoc, List.append_assoc,
      List.getElem?_append_right (Nat.le_refl _), Nat.sub_self]
    rfl
  have htimes : (mem.getD (done.length + 1 + 1) 0 - 29).toNat = n := by
    have hget : mem.getD (done.length + 1 + 1) 0 = k := by
      rw [hmem', List.append_assoc, List.getD_append_right _ _ _ _ (by rw [hfront]; omega), hfront,
        show done.length + 1 + 1 - (done.length + 1) = 1 by omega]
      rfl
    rw [hget, hk, times_run hcount]
  have hstrlen : (cstr (mem.drop (done.length + 1))).length = post.length + 2 := by
    have hdrop : mem.drop (done.length + 1) = (0x2a :: k :: post) ++ 0 :: slack := by
      rw [hmem', List.append_assoc]
      exact List.drop_left' hfront
    rw [hdrop, cstr_front (zero_not_mem_count (count_ne_zero hcount) hpost)]
    rfl
  obtain ⟨out, hmove, hmoved⟩ := rleMove_moved hn
    (show done.length + 1 + (post.length + 2 + n - 2) < mem.length by omega) (Nat.zero_le _)
    ⟨rfl, fun i => by rw [if_neg (by omega)]⟩
  have hroom : done.length + 1 + n ≤ out.length := by
    rw [hmoved.length]
    omega
  have hput : overlay out (done.length + 1) (List.replicate n c) =
      done ++ (RleToken.run c n).bytes ++ post ++ 0 :: slack.drop (n - 2) := by
    have hmoved' : Moved (done ++ [c]).length (post.length + 2) n
        ((done ++ [c]) ++ 0x2a :: k :: post ++ 0 :: slack) (post.length + 2) out := by
      rw [hfront, ← hmem']
      exact hmoved
    have hcountPut : overlay out (done ++ [c]).length (List.replicate n c) =
        (done ++ [c]) ++ List.replicate n c ++ (post ++ 0 :: slack.drop (n - 2)) :=
      rle_count hn hfit hmoved'
    rw [← hfront, hcountPut, List.append_assoc done [c], List.append_assoc _ post]
    rfl
  have hpos : ¬ done.length + 1 = 0 := Nat.succ_ne_zero _
  rw [rleLoop, hstr, if_pos hin, hidx, if_neg hpos, hvalue, htimes, hstrlen,
    Option.bind_eq_bind, Option.bind_some]
  dsimp only
  rw [Option.bind_eq_bind, hmove, Option.bind_some, if_pos hroom, hput]

/-- **The counts are put in place**, one after another. -/
theorem rleLoop_tokens (hts : ∀ t ∈ ts, t.Valid)
    (hmem : mem = done ++ ts.flatMap RleToken.text ++ 0 :: slack) (hplace : place ≤ done.length)
    (hdone : ∀ b ∈ done.drop place, b ≠ 0 ∧ b ≠ 0x2a) (hfuel : ts.length < fuel)
    (hfit : done.length + (ts.flatMap RleToken.bytes).length < mem.length) :
    ∃ slack', (done ++ ts.flatMap RleToken.bytes ++ 0 :: slack').length = mem.length ∧
      rleLoop fuel mem place = some (done ++ ts.flatMap RleToken.bytes ++ 0 :: slack') := by
  induction ts generalizing mem done slack place fuel with
  | nil =>
    obtain ⟨fuel, rfl⟩ := Nat.exists_eq_succ_of_ne_zero (show fuel ≠ 0 by omega)
    rw [List.flatMap_nil, List.append_nil] at hmem
    have hstr : cstr (mem.drop place) = done.drop place := by
      rw [hmem, List.drop_append_of_le_length hplace]
      exact cstr_front fun hzero => (hdone 0 hzero).1 rfl
    have hnone : ¬ 0x2a ∈ done.drop place := fun hstar => (hdone _ hstar).2 rfl
    refine ⟨slack, ?_, ?_⟩
    · rw [List.flatMap_nil, List.append_nil, hmem]
    · rw [rleLoop, hstr, if_neg hnone, List.flatMap_nil, List.append_nil, hmem]
  | cons t ts ih =>
    have ht := hts t List.mem_cons_self
    have hrest : ∀ t ∈ ts, t.Valid := fun t ht => hts t (List.mem_cons_of_mem _ ht)
    rw [List.flatMap_cons, ← List.append_assoc] at hmem
    rw [List.flatMap_cons, List.length_append] at hfit
    rw [List.length_cons] at hfuel
    rw [List.flatMap_cons, ← List.append_assoc]
    cases t with
    | byte c =>
      have hdone' : ∀ b ∈ (done ++ [c]).drop place, b ≠ 0 ∧ b ≠ 0x2a := by
        intro b hb
        rw [List.drop_append_of_le_length hplace] at hb
        rcases List.mem_append.mp hb with hb | hb
        · exact hdone b hb
        · rw [List.mem_singleton.mp hb]
          exact ht
      have hlen : (done ++ (RleToken.byte c).bytes).length = done.length + 1 := List.length_append
      have hone : (RleToken.byte c).bytes.length = 1 := rfl
      exact ih hrest hmem (by omega) hdone' (by omega) (by omega)
    | run c n =>
      obtain ⟨fuel, rfl⟩ := Nat.exists_eq_succ_of_ne_zero (show fuel ≠ 0 by omega)
      obtain ⟨-, -, hn, -⟩ := id ht
      have hpostle := length_texts_le hrest
      have htext : (RleToken.run c n).text.length = 3 := rfl
      have hbytes : (RleToken.run c n).bytes.length = n + 1 :=
        congrArg (· + 1) List.length_replicate
      have hlen : mem.length = done.length + 3 + (ts.flatMap RleToken.text).length +
          (slack.length + 1) := by
        rw [hmem, List.length_append, List.length_append, List.length_append, htext,
          List.length_cons]
      have hzero := texts_ne_zero hrest
      have hdone' : ∀ b ∈ (done ++ (RleToken.run c n).bytes).drop (done.length + 2),
          b ≠ 0 ∧ b ≠ 0x2a := by
        intro b hb
        rw [← List.drop_drop, List.drop_left] at hb
        exact ht.bytes b (List.mem_of_mem_drop hb)
      have hfront : (done ++ (RleToken.run c n).bytes).length = done.length + (n + 1) := by
        rw [List.length_append, hbytes]
      have hnext : (done ++ (RleToken.run c n).bytes ++ ts.flatMap RleToken.text ++
          0 :: slack.drop (n - 2)).length = mem.length := by
        rw [List.length_append, List.length_append, hfront, List.length_cons, List.length_drop]
        omega
      rw [rleLoop_run ht hzero hmem hplace hdone (by omega), ← hnext]
      exact ih hrest rfl (by omega) hdone' (by omega) (by omega)

/-- **The decoding in place**: no byte beside the memory is touched, if the
expanded text has its place there, and every count has become its copies. -/
theorem rleLoop_texts (hts : ∀ t ∈ ts, t.Valid)
    (hmem : mem = ts.flatMap RleToken.text ++ 0 :: slack)
    (hfit : (ts.flatMap RleToken.bytes).length < mem.length) :
    ∃ slack', (ts.flatMap RleToken.bytes ++ 0 :: slack').length = mem.length ∧
      rleLoop mem.length mem 0 = some (ts.flatMap RleToken.bytes ++ 0 :: slack') := by
  have hcount := length_le_texts ts
  have hlen := congrArg List.length hmem
  rw [List.length_append, List.length_cons] at hlen
  have hfront : ([] : List u8).length + (ts.flatMap RleToken.bytes).length < mem.length := by
    rw [List.length_nil]
    omega
  have hrun : ∃ slack', ([] ++ ts.flatMap RleToken.bytes ++ 0 :: slack').length = mem.length ∧
      rleLoop mem.length mem 0 = some ([] ++ ts.flatMap RleToken.bytes ++ 0 :: slack') :=
    rleLoop_tokens hts hmem (Nat.le_refl 0) nofun (by omega) hfront
  exact hrun

/-- `0* ` is four noughts. -/
theorem rleLoop_texts_noughts :
    ∃ slack', ([0x4f, 0x30, 0x30, 0x30, 0x30] ++ (0 : u8) :: slack').length = 6 ∧
      rleLoop 6 [0x4f, 0x30, 0x2a, 0x20, 0, 0] 0 =
        some ([0x4f, 0x30, 0x30, 0x30, 0x30] ++ 0 :: slack') := by
  have hts : ∀ t ∈ [RleToken.byte 0x4f, .run 0x30 3], t.Valid := by decide
  have hmem : [0x4f, 0x30, 0x2a, 0x20, 0, 0] =
      [RleToken.byte 0x4f, .run 0x30 3].flatMap RleToken.text ++ (0 : u8) :: [0] := rfl
  exact rleLoop_texts hts hmem (by decide)

/-! ## The stream in pieces -/

/-- A `recv` that gives bytes and leaves `errno` alone. -/
def GdbRecv.ofBytes (piece : List u8) : GdbRecv where
  bytes := some piece
  eintr := false

/-- What `recv` gives of a packet: pieces that are not empty. -/
structure RecvPieces (pieces : List (List u8)) (packet : List u8) : Prop where
  flatten : pieces.flatten = packet
  some_bytes : ∀ piece ∈ pieces, piece ≠ []

variable {pieces : List (List u8)} {piece packet query pair : List u8} {recvs : List GdbRecv}

/-- A turn of the loop of `recv`. -/
theorem gdbRecv_ofBytes {sumrval : ℤ} (hput : overlayAt mem sumrval piece = some mem') :
    gdbRecv (.ofBytes piece :: recvs) mem sumrval =
      if sumrval + piece.length ≥ 3 ∧ mem'.getD (sumrval + piece.length - 3).toNat 0 ≠ 0x23 ∧
          (piece.length : ℤ) ≠ 0 then
        gdbRecv recvs mem' (sumrval + piece.length)
      else some (mem', sumrval + piece.length, (piece.length : ℤ)) := by
  have hbytes : overlayAt mem sumrval ((GdbRecv.ofBytes piece).bytes.getD []) = some mem' := hput
  rw [gdbRecv, hbytes]
  rfl

/-- **The loop of `recv`** takes the whole packet, if its end is marked only
there. -/
theorem gdbRecv_pieces (mem done : List u8) (hpacket : done ++ pieces.flatten = packet)
    (hne : pieces ≠ []) (hsome : ∀ piece ∈ pieces, piece ≠ [])
    (hthree : 3 ≤ done.length ∨ ∀ piece ∈ pieces.head?, 3 ≤ piece.length)
    (hmark : packet.getD (packet.length - 3) 0 = 0x23)
    (honly : ∀ j, j + 3 < packet.length → packet.getD j 0 ≠ 0x23)
    (hfit : packet.length ≤ mem.length) :
    ∃ rval : ℤ, 0 < rval ∧
      gdbRecv (pieces.map GdbRecv.ofBytes) (overlay mem 0 done) done.length =
        some (overlay mem 0 packet, (packet.length : ℤ), rval) := by
  induction pieces generalizing done with
  | nil => exact absurd rfl hne
  | cons piece pieces ih =>
    have hpiece : piece.length ≠ 0 := fun h =>
      hsome piece List.mem_cons_self (List.length_eq_zero_iff.mp h)
    rw [List.flatten_cons, ← List.append_assoc] at hpacket
    have hlen : (done ++ piece).length + pieces.flatten.length = packet.length := by
      rw [← hpacket, ← List.length_append]
    have hsum : (done ++ piece).length = done.length + piece.length := List.length_append
    have hcast : (done.length : ℤ) + piece.length = ((done ++ piece).length : ℤ) := by omega
    have hlong : 3 ≤ (done ++ piece).length := by
      rcases hthree with h | h
      · omega
      · have := h piece rfl
        omega
    have hput : overlayAt (overlay mem 0 done) done.length piece =
        some (overlay mem 0 (done ++ piece)) := by
      have happend : overlay (overlay mem 0 done) (0 + done.length) piece =
          overlay mem 0 (done ++ piece) := overlay_append (by omega)
      have hroom : (done.length : ℤ) + piece.length ≤ (overlay mem 0 done).length := by
        rw [length_overlay (show 0 + done.length ≤ mem.length by omega)]
        omega
      rw [Nat.zero_add] at happend
      rw [overlayAt_eq (Int.natCast_nonneg _) hroom, Int.toNat_natCast, happend]
    have hplace : ((done.length : ℤ) + piece.length - 3).toNat = (done ++ piece).length - 3 := by
      omega
    have hbyte : (overlay mem 0 (done ++ piece)).getD ((done ++ piece).length - 3) 0 =
        packet.getD ((done ++ piece).length - 3) 0 := by
      have hinside : (done ++ piece).length - 3 < (done ++ piece).length := by omega
      have hover : 0 + (done ++ piece).length ≤ mem.length := by omega
      rw [List.getD_eq_getElem?_getD, List.getD_eq_getElem?_getD, getElem?_overlay hover,
        if_pos (by omega), Nat.sub_zero, ← hpacket, List.getElem?_append_left hinside]
    rw [List.map_cons, gdbRecv_ofBytes hput, hplace, hbyte, hcast]
    cases pieces with
    | nil =>
      rw [List.flatten_nil, List.append_nil] at hpacket
      refine ⟨piece.length, by omega, ?_⟩
      rw [hpacket, hmark, if_neg (fun h => h.2.1 rfl)]
    | cons next pieces =>
      have hnext : next.length ≠ 0 := fun h =>
        hsome next (List.mem_cons_of_mem _ List.mem_cons_self) (List.length_eq_zero_iff.mp h)
      have hmore : (done ++ piece).length < packet.length := by
        have hflat : (next :: pieces).flatten.length = next.length + pieces.flatten.length := by
          rw [List.flatten_cons, List.length_append]
        omega
      have hinner := honly ((done ++ piece).length - 3) (by omega)
      rw [if_pos ⟨by omega, hinner, by omega⟩]
      exact ih _ hpacket nofun (fun p hp => hsome p (List.mem_cons_of_mem _ hp)) (.inl hlong)

/-- A first piece that is too short ends the loop. -/
theorem gdbRecv_short (hfit : piece.length ≤ mem.length) (hshort : piece.length < 3) :
    ∃ mem', gdbRecv (.ofBytes piece :: recvs) mem 0 =
      some (mem', (piece.length : ℤ), (piece.length : ℤ)) := by
  have hput : overlayAt mem 0 piece = some (overlay mem 0 piece) := overlayAt_eq le_rfl (by omega)
  refine ⟨overlay mem 0 piece, ?_⟩
  rw [gdbRecv_ofBytes hput, if_neg (by omega), zero_add]

/-! ## A packet -/

/-- A byte of a packet's text: none that ends or marks a part of it. -/
def GdbPlain (c : u8) : Prop := c ≠ 0 ∧ c ≠ 0x23 ∧ c ≠ 0x24

/-- A packet with a text and two digits. -/
def gdbPacket (query pair : List u8) : List u8 := 0x24 :: query ++ 0x23 :: pair

theorem length_gdbPacket (query : List u8) (hdigits : pair.length = 2) :
    (gdbPacket query pair).length = query.length + 4 := by
  unfold gdbPacket
  rw [List.length_append, List.length_cons, List.length_cons, hdigits]

/-- The digits of a packet are found. -/
theorem gdbExtract_digits (hquery : ∀ b ∈ query, GdbPlain b) (hdigits : pair.length = 2) :
    gdbExtract (gdbPacket query pair) (some 0x23) none 3 = some pair := by
  have hdrop : (gdbPacket query pair).dropWhile (· ≠ 0x23) = 0x23 :: pair := by
    have hall : ∀ b ∈ 0x24 :: query, (decide (b ≠ 0x23)) = true := by
      intro b hb
      rcases List.mem_cons.mp hb with rfl | hb
      · rfl
      · exact decide_eq_true (hquery b hb).2.1
    unfold gdbPacket
    rw [List.dropWhile_append_of_pos hall]
    rfl
  have hin : 0x23 ∈ gdbPacket query pair :=
    List.mem_cons_of_mem _ (List.mem_append_right _ List.mem_cons_self)
  unfold gdbExtract
  dsimp only
  rw [if_pos hin, hdrop]
  simp only [Option.bind_eq_bind, Option.bind_some, List.tail_cons, Option.pure_def]
  rw [List.take_of_length_le (by omega)]

/-- The text of a packet is found. -/
theorem gdbExtract_text (hquery : ∀ b ∈ query, GdbPlain b) (hmax : query.length ≤ max) :
    gdbExtract (gdbPacket query pair) (some 0x24) (some 0x23) max = some query := by
  have hmem : 0x23 ∈ query ++ 0x23 :: pair := List.mem_append_right _ List.mem_cons_self
  have htake : (query ++ 0x23 :: pair).takeWhile (· ≠ 0x23) = query := by
    have hall : ∀ b ∈ query, (decide (b ≠ 0x23)) = true := fun b hb =>
      decide_eq_true (hquery b hb).2.1
    rw [List.takeWhile_append_of_pos hall]
    exact List.append_nil query
  have hin : 0x24 ∈ gdbPacket query pair := List.mem_cons_self
  have htail : ((gdbPacket query pair).dropWhile (· ≠ 0x24)).tail = query ++ 0x23 :: pair := rfl
  unfold gdbExtract
  dsimp only
  rw [if_pos hin, htail]
  simp only [Option.bind_eq_bind, Option.bind_some]
  rw [if_pos hmem, htake]
  exact congrArg some (List.take_of_length_le hmax)

/-- **The sum of a packet** in its own memory: of more than one character the
copy is made over itself. -/
theorem gdbCalc_packet (hquery : ∀ b ∈ query, GdbPlain b) (hpair : ∀ b ∈ pair, b ≠ 0)
    (hmax : query.length ≤ max) (slack : List u8) :
    gdbCalc max (gdbPacket query pair ++ 0 :: slack) =
      if 1 < query.length then none
      else some (overlay (gdbPacket query pair ++ 0 :: slack) 0 (query ++ [0]), gdbSum query) := by
  have hstr : cstr (gdbPacket query pair ++ 0 :: slack) = gdbPacket query pair := by
    refine cstr_front fun hzero => ?_
    rcases List.mem_cons.mp hzero with hzero | hzero
    · cases hzero
    rcases List.mem_append.mp hzero with hzero | hzero
    · exact (hquery 0 hzero).1 rfl
    rcases List.mem_cons.mp hzero with hzero | hzero
    · cases hzero
    · exact hpair 0 hzero rfl
  have hidx : (gdbPacket query pair).idxOf 0x24 = 0 := List.idxOf_cons_self
  unfold gdbCalc
  dsimp only
  rw [hstr, gdbExtract_text hquery hmax]
  dsimp only
  rw [hidx, Nat.zero_add]

/-- The end of a packet is marked once. -/
theorem gdbPacket_mark (hquery : ∀ b ∈ query, GdbPlain b) (hdigits : pair.length = 2) :
    (gdbPacket query pair).getD ((gdbPacket query pair).length - 3) 0 = 0x23 ∧
      ∀ j, j + 3 < (gdbPacket query pair).length → (gdbPacket query pair).getD j 0 ≠ 0x23 := by
  have hlen := length_gdbPacket query hdigits
  have hfront : (0x24 :: query).length = query.length + 1 := List.length_cons
  have hsplit : gdbPacket query pair = (0x24 :: query) ++ 0x23 :: pair := rfl
  refine ⟨?_, fun j hj => ?_⟩
  · rw [hlen, hsplit, List.getD_append_right _ _ _ _ (by omega), hfront,
      show query.length + 4 - 3 - (query.length + 1) = 0 by omega]
    rfl
  · have hlt : j < (0x24 :: query).length := by omega
    rw [hsplit, List.getD_append _ _ _ _ hlt, List.getD_eq_getElem _ _ hlt]
    rcases List.mem_cons.mp (List.getElem_mem hlt) with heq | hmem
    · rw [heq]
      decide
    · exact (hquery _ hmem).2.1

/-- **The stream of a packet** is taken whole just if its first piece has three
bytes. -/
theorem gdbRecv_packet (hquery : ∀ b ∈ query, GdbPlain b) (hdigits : pair.length = 2)
    (hpieces : RecvPieces pieces (gdbPacket query pair)) (hfit : query.length + 4 ≤ mem.length) :
    (∃ mem' rval, gdbRecv (pieces.map GdbRecv.ofBytes) mem 0 =
        some (mem', ((gdbPacket query pair).length : ℤ), rval)) ↔
      ∀ piece ∈ pieces.head?, 3 ≤ piece.length := by
  have hlen := length_gdbPacket query hdigits
  obtain ⟨hmark, honly⟩ := gdbPacket_mark hquery hdigits
  cases pieces with
  | nil =>
    have hnil := congrArg List.length hpieces.flatten
    rw [hlen] at hnil
    cases hnil
  | cons piece pieces =>
    constructor
    · rintro ⟨mem', rval, hrecv⟩ first hfirst
      obtain rfl : piece = first := Option.some.inj hfirst
      by_contra hshort
      obtain ⟨out, hout⟩ : ∃ out, gdbRecv (.ofBytes piece :: pieces.map GdbRecv.ofBytes) mem 0 =
          some (out, (piece.length : ℤ), (piece.length : ℤ)) :=
        gdbRecv_short (by omega) (by omega)
      rw [List.map_cons, hout] at hrecv
      have hsum := congrArg (fun p => p.2.1) (Option.some.inj hrecv)
      dsimp only at hsum
      omega
    · intro hfirst
      have hne : piece :: pieces ≠ [] := List.cons_ne_nil piece pieces
      have hflat : [] ++ (piece :: pieces).flatten = gdbPacket query pair := hpieces.flatten
      obtain ⟨rval, -, hrecv⟩ := gdbRecv_pieces mem [] hflat hne hpieces.some_bytes
        (.inr hfirst) hmark honly (by omega)
      rw [overlay_nil] at hrecv
      exact ⟨_, rval, hrecv⟩

/-- A text put at the front of a memory, with its NUL. -/
theorem overlay_text (mem text : List u8) :
    overlay mem 0 (text ++ [0]) = text ++ 0 :: mem.drop (text.length + 1) := by
  unfold overlay
  rw [List.take_zero, List.nil_append, Nat.zero_add, List.append_assoc, List.length_append]
  rfl

theorem zero_not_mem_gdbPacket (hquery : ∀ b ∈ query, GdbPlain b) (hpair : ∀ b ∈ pair, b ≠ 0) :
    0 ∉ gdbPacket query pair := by
  intro hzero
  rcases List.mem_cons.mp hzero with hzero | hzero
  · cases hzero
  rcases List.mem_append.mp hzero with hzero | hzero
  · exact (hquery 0 hzero).1 rfl
  rcases List.mem_cons.mp hzero with hzero | hzero
  · cases hzero
  · exact hpair 0 hzero rfl

/-- **A packet that arrives**, however it is cut: of one character at most it is
accepted by its sum, and the text is at the front of the memory. -/
theorem gdbGet_packet (interrupted : Bool) (hquery : ∀ b ∈ query, GdbPlain b)
    (hdigits : pair.length = 2) (hpair : ∀ b ∈ pair, b ≠ 0) (hmax : query.length ≤ max)
    (hpieces : RecvPieces pieces (gdbPacket query pair))
    (hfirst : ∀ piece ∈ pieces.head?, 3 ≤ piece.length) (hfit : query.length + 4 < mem.length) :
    ∃ slack, mem.length = query.length + 1 + slack.length ∧
      gdbGet max interrupted mem (pieces.map GdbRecv.ofBytes) =
        if 1 < query.length then none
        else if gdbAtoh pair = (gdbSum query).toNat ∨ interrupted = true then
          (rleLoop mem.length (query ++ 0 :: slack) 0).map fun mem => some (cstr mem)
        else some none := by
  set packet := gdbPacket query pair with hpacket
  have hlen : packet.length = query.length + 4 := length_gdbPacket query hdigits
  have hset : (mem.set 0 0).length = mem.length := List.length_set
  have hne : pieces ≠ [] := by
    rintro rfl
    have hnil := congrArg List.length hpieces.flatten
    rw [hlen] at hnil
    cases hnil
  obtain ⟨hmark, honly⟩ := gdbPacket_mark hquery hdigits
  obtain ⟨rval, hrval, hrecv⟩ := gdbRecv_pieces (mem.set 0 0) [] hpieces.flatten hne
    hpieces.some_bytes (.inr hfirst) hmark honly (by omega)
  rw [overlay_nil, List.length_nil] at hrecv
  -- the NUL behind the packet
  have hput : overlayAt (overlay (mem.set 0 0) 0 packet) packet.length [0] =
      some (packet ++ 0 :: (mem.set 0 0).drop (packet.length + 1)) := by
    have hone : packet.length + 1 ≤ (overlay (mem.set 0 0) 0 packet).length := by
      rw [length_overlay (by omega)]
      omega
    have happend : overlay (overlay (mem.set 0 0) 0 packet) (0 + packet.length) [0] =
        overlay (mem.set 0 0) 0 (packet ++ [0]) := overlay_append (by omega)
    rw [Nat.zero_add] at happend
    rw [overlayAt_eq (Int.natCast_nonneg _) (by exact_mod_cast hone), Int.toNat_natCast, happend,
      overlay_text]
  set behind := (mem.set 0 0).drop (packet.length + 1) with hbehind
  have hstr : cstr (packet ++ 0 :: behind) = packet :=
    cstr_front (zero_not_mem_gdbPacket hquery hpair)
  have htext : overlay (packet ++ 0 :: behind) 0 (query ++ [0]) =
      query ++ 0 :: (packet ++ 0 :: behind).drop (query.length + 1) := overlay_text _ query
  have htotal : (packet ++ 0 :: behind).length = mem.length := by
    rw [hbehind, List.length_append, List.length_cons, List.length_drop]
    omega
  have hslack : ((packet ++ 0 :: behind).drop (query.length + 1)).length =
      mem.length - (query.length + 1) := by
    rw [List.length_drop, htotal]
  have htextLen : (query ++ 0 :: (packet ++ 0 :: behind).drop (query.length + 1)).length =
      mem.length := by
    rw [List.length_append, List.length_cons, hslack]
    omega
  have hpairLen : ¬ (some pair).map List.length = some 3 := by
    rw [Option.map_some, hdigits]
    decide
  refine ⟨(packet ++ 0 :: behind).drop (query.length + 1), by omega, ?_⟩
  unfold gdbGet
  rw [show ((0 : ℕ) : ℤ) = 0 from rfl] at hrecv
  rw [hrecv, Option.bind_eq_bind, Option.bind_some]
  dsimp only
  rw [if_neg (by omega), Option.bind_eq_bind, hput, Option.bind_some, hstr, hpacket,
    gdbExtract_digits hquery hdigits, if_neg hpairLen, if_neg (by omega), Option.bind_some,
    gdbCalc_packet hquery hpair hmax, ← hpacket]
  split_ifs with hlong hsum
  · rfl
  all_goals
    rw [Option.bind_eq_bind, Option.bind_some]
    dsimp only
    rw [htext, htextLen]
  · rw [if_pos hsum]
  · rw [if_neg hsum]

/-! ## Digits -/

theorem gdbDigit_digitChar {d : ℕ} (hd : d < 16) : gdbDigit (digitChar d) = some d := by
  have hall : ∀ d : Fin 16, gdbDigit (digitChar d) = some (d : ℕ) := by decide
  exact hall ⟨d, hd⟩

theorem gdbAtohLoop_digits {ds : List ℕ} {hex : ℕ} (hds : ∀ d ∈ ds, d < 16)
    (hfit : hex + value 16 ds < 2 ^ 32) :
    gdbAtohLoop (ds.map digitChar) hex = hex + value 16 ds := by
  induction ds generalizing hex with
  | nil => rfl
  | cons d ds ih =>
    rw [value_cons] at hfit
    have hdigit := gdbDigit_digitChar (hds d List.mem_cons_self)
    have hsmall : (hex + d * 16 ^ ds.length) % 2 ^ 32 = hex + d * 16 ^ ds.length :=
      Nat.mod_eq_of_lt (by omega)
    rw [List.map_cons, gdbAtohLoop, hdigit]
    dsimp only
    rw [List.length_map, hsmall, ih (fun d hd => hds d (List.mem_cons_of_mem _ hd)) (by omega),
      value_cons, Nat.add_assoc]

/-- **A number of 32 bits is read back**, whatever its width. -/
theorem gdbAtoh_hexText {n : ut64} (w : ℕ) (hn : n.toNat < 2 ^ 32) :
    gdbAtoh (hexText w n) = n.toNat := by
  have hvalue : value 16 (padded w (digits 16 16 n.toNat)) = n.toNat :=
    value_padded (show n.toNat < 16 ^ 16 by omega)
  unfold gdbAtoh hexText
  rw [gdbAtohLoop_digits (fun d hd => lt_of_mem_padded (by decide) hd) (by omega), hvalue,
    Nat.zero_add]

/-! ## The protocol -/

theorem gdbChecked_plain (hquery : ∀ b ∈ query, GdbPlain b) (hmax : query.length ≤ max) :
    gdbChecked max query = query := by
  have hnot : ¬ 0x24 ∈ query := fun h => (hquery _ h).2.2 rfl
  unfold gdbChecked gdbExtract
  dsimp only
  rw [if_neg hnot]
  exact List.take_of_length_le hmax

/-- A message is a packet of its text and its sum. -/
theorem gdbMake_plain (hquery : ∀ b ∈ query, GdbPlain b) (hint : max < 2 ^ 31)
    (hmax : query.length + 5 ≤ max) :
    gdbMake max query = gdbPacket query (hexText 2 (gdbSum query).toUInt64) := by
  have hlen : (gdbPacket query (hexText 2 (gdbSum query).toUInt64)).length = query.length + 4 :=
    length_gdbPacket query (by rw [hexText_two]; rfl)
  unfold gdbMake
  rw [gdbChecked_plain hquery (by omega)]
  dsimp only
  rw [if_pos (by omega)]
  exact List.take_of_length_le (hlen.le.trans (by omega))

theorem hexText_digit (b : u8) : ∀ c ∈ hexText 2 b.toUInt64, c ≠ 0 ∧ c ≠ 0x23 := by
  intro c hc
  have hrange := of_mem_hexText hc
  refine ⟨?_, ?_⟩
  all_goals
    rintro rfl
    revert hrange
    decide

theorem gdbAtoh_sum (b : u8) : gdbAtoh (hexText 2 b.toUInt64) = b.toNat := by
  have hlt := b.toNat_lt
  have hatoh : gdbAtoh (hexText 2 b.toUInt64) = b.toUInt64.toNat :=
    gdbAtoh_hexText 2 (by rw [UInt8.toNat_toUInt64]; omega)
  rw [hatoh, UInt8.toNat_toUInt64]

/-- A text of one character at most is decoded, unless it is a `*`: its count
would be of the byte in front of the memory. -/
theorem rleLoop_short (hquery : ∀ b ∈ query, GdbPlain b) (hshort : ¬ 1 < query.length)
    (hfuel : fuel ≠ 0) (slack : List u8) :
    rleLoop fuel (query ++ 0 :: slack) 0 =
      if query = [0x2a] then none else some (query ++ 0 :: slack) := by
  obtain ⟨fuel, rfl⟩ := Nat.exists_eq_succ_of_ne_zero hfuel
  have hstr : cstr ((query ++ 0 :: slack).drop 0) = query :=
    cstr_front fun hzero => (hquery 0 hzero).1 rfl
  rw [rleLoop, hstr]
  cases query with
  | nil => rfl
  | cons c rest =>
    obtain rfl : rest = [] := by
      rw [List.length_cons] at hshort
      exact List.length_eq_zero_iff.mp (by omega)
    by_cases hstar : c = 0x2a
    · obtain rfl := hstar
      rfl
    · have hnot : ¬ 0x2a ∈ [c] := fun h => hstar (List.mem_singleton.mp h).symm
      have hne : ¬ [c] = [0x2a] := fun h => hstar (List.head_eq_of_cons_eq h)
      rw [if_neg hnot, if_neg hne]

/-- **A message arrives** whole, however the stream is cut, just if its first
piece has three bytes. Then the text is returned if it is one character, not a
`*`, or none: any other is copied over itself, or decoded from the byte in front
of the memory. -/
theorem gdbGet_make (hquery : ∀ b ∈ query, GdbPlain b) (hint : max < 2 ^ 31)
    (hmem : max < mem.length) (htext : query.length + 5 ≤ max)
    (hpieces : RecvPieces pieces (gdbMake max query)) (interrupted : Bool) :
    ((∃ mem' rval, gdbRecv (pieces.map GdbRecv.ofBytes) (mem.set 0 0) 0 =
        some (mem', ((gdbMake max query).length : ℤ), rval)) ↔
      ∀ piece ∈ pieces.head?, 3 ≤ piece.length) ∧
    ((∀ piece ∈ pieces.head?, 3 ≤ piece.length) →
      gdbGet max interrupted mem (pieces.map GdbRecv.ofBytes) =
        if query.length ≤ 1 ∧ query ≠ [0x2a] then some (some query) else none) := by
  rw [gdbMake_plain hquery hint htext] at hpieces ⊢
  set pair := hexText 2 (gdbSum query).toUInt64 with hpair
  have hdigits : pair.length = 2 := by
    rw [hpair, hexText_two]
    rfl
  have hset : (mem.set 0 0).length = mem.length := List.length_set
  refine ⟨gdbRecv_packet hquery hdigits hpieces (by omega), fun hfirst => ?_⟩
  obtain ⟨slack, hlen, hget⟩ := gdbGet_packet interrupted hquery hdigits
    (fun b hb => (hexText_digit _ b hb).1) (show query.length ≤ max by omega) hpieces hfirst
    (show query.length + 4 < mem.length by omega)
  rw [hget]
  by_cases hlong : 1 < query.length
  · rw [if_pos hlong, if_neg (fun h => by omega)]
  have hsum : gdbAtoh pair = (gdbSum query).toNat := gdbAtoh_sum _
  have hstr : cstr (query ++ 0 :: slack) = query :=
    cstr_front fun hzero => (hquery 0 hzero).1 rfl
  rw [if_neg hlong, if_pos (.inl hsum), rleLoop_short hquery hlong (by omega)]
  by_cases hstar : query = [0x2a]
  · rw [if_pos hstar, if_neg (fun h => h.2 hstar), Option.map_none]
  · rw [if_neg hstar, if_pos ⟨by omega, hstar⟩, Option.map_some, hstr]

/-- `$c#63` in two pieces. -/
theorem gdbGet_make_c : gdbGet 20 false (List.replicate 22 0)
    [.ofBytes [0x24, 0x63, 0x23], .ofBytes [0x36, 0x33]] = some (some [0x63]) := by
  have hquery : ∀ b ∈ [(0x63 : u8)], GdbPlain b := by
    simp [GdbPlain]
  have hpieces : RecvPieces [[0x24, 0x63, 0x23], [0x36, 0x33]] (gdbMake 20 [0x63]) :=
    ⟨by decide +kernel, by decide⟩
  have hfirst : ∀ piece ∈ [[0x24, 0x63, 0x23], [(0x36 : u8), 0x33]].head?, 3 ≤ piece.length := by
    decide
  have hmem : 20 < (List.replicate 22 (0 : u8)).length := by
    rw [List.length_replicate]
    omega
  exact (gdbGet_make hquery (by decide) hmem (by decide) hpieces false).2 hfirst

/-! ## Registers -/

theorem gdbLittleEndian_succ (k addr : ℕ) : gdbLittleEndian (k + 1) addr =
    addr % 256 * 256 ^ k + gdbLittleEndian k (addr / 256) := by
  have hzero : ∀ k, gdbLittleEndian k 0 = 0 := by
    intro k
    cases k with
    | zero => rfl
    | succ k => rfl
  rw [gdbLittleEndian]
  split_ifs with hpos
  · rfl
  · obtain rfl : addr = 0 := by omega
    rw [hzero, Nat.zero_mod, Nat.zero_mul]

/-- A byte goes from the one end to the other. -/
theorem gdbLittleEndian_byte (k : ℕ) {b : ℕ} (hb : b < 256) (n : ℕ) :
    gdbLittleEndian (k + 1) (b + 256 * n) = b * 256 ^ k + gdbLittleEndian k n := by
  have hlow : (b + 256 * n) % 256 = b := by omega
  have hhigh : (b + 256 * n) / 256 = n := by omega
  rw [gdbLittleEndian_succ, hlow, hhigh]

theorem gdbLittleEndian_bytes {b₀ b₁ b₂ b₃ : ℕ} (h₀ : b₀ < 256) (h₁ : b₁ < 256) (h₂ : b₂ < 256)
    (h₃ : b₃ < 256) : gdbLittleEndian 4 (b₀ + 256 * (b₁ + 256 * (b₂ + 256 * b₃))) =
      b₃ + 256 * (b₂ + 256 * (b₁ + 256 * b₀)) := by
  have hlast : gdbLittleEndian 1 b₃ = b₃ := by
    rw [gdbLittleEndian_succ, gdbLittleEndian]
    omega
  rw [gdbLittleEndian_byte 3 h₀, gdbLittleEndian_byte 2 h₁, gdbLittleEndian_byte 1 h₂, hlast]
  omega

/-- **Twice the other order** is the order. -/
theorem gdbLittleEndian_twice {n : ℕ} (hn : n < 2 ^ 32) :
    gdbLittleEndian 4 n < 2 ^ 32 ∧ gdbLittleEndian 4 (gdbLittleEndian 4 n) = n := by
  obtain ⟨b₀, n₁, h₀, rfl⟩ : ∃ b₀ n₁, b₀ < 256 ∧ n = b₀ + 256 * n₁ :=
    ⟨n % 256, n / 256, Nat.mod_lt _ (by omega), by omega⟩
  obtain ⟨b₁, n₂, h₁, rfl⟩ : ∃ b₁ n₂, b₁ < 256 ∧ n₁ = b₁ + 256 * n₂ :=
    ⟨n₁ % 256, n₁ / 256, Nat.mod_lt _ (by omega), by omega⟩
  obtain ⟨b₂, b₃, h₂, rfl⟩ : ∃ b₂ b₃, b₂ < 256 ∧ n₂ = b₂ + 256 * b₃ :=
    ⟨n₂ % 256, n₂ / 256, Nat.mod_lt _ (by omega), by omega⟩
  have h₃ : b₃ < 256 := by omega
  rw [gdbLittleEndian_bytes h₀ h₁ h₂ h₃, gdbLittleEndian_bytes h₃ h₂ h₁ h₀]
  omega

theorem length_hexText_eight {n : ut64} (hn : n.toNat < 2 ^ 32) : (hexText 8 n).length = 8 := by
  have hle : (digits 16 16 n.toNat).length ≤ 8 :=
    length_digits_le_of_lt (by omega) (show n.toNat < 16 ^ 8 by omega)
  unfold hexText
  rw [List.length_map, length_padded]
  omega

/-- Texts of eight characters, one behind the other. -/
theorem take_drop_texts {α : Type} {f : α → List u8} {l : List α} (hf : ∀ a ∈ l, (f a).length = 8)
    (hi : i < l.length) (rest : List u8) :
    ((l.flatMap f ++ rest).drop (8 * i)).take 8 = f l[i] := by
  induction l generalizing i with
  | nil => exact absurd hi (Nat.not_lt_zero i)
  | cons a l ih =>
    have hlen : (f a).length = 8 := hf a List.mem_cons_self
    rw [List.flatMap_cons, List.append_assoc]
    cases i with
    | zero => exact List.take_left' hlen
    | succ i =>
      rw [Nat.mul_succ, Nat.add_comm, ← List.drop_drop, List.drop_left' hlen]
      exact ih (fun a ha => hf a (List.mem_cons_of_mem _ ha)) (Nat.lt_of_succ_lt_succ hi)

/-- The number of characters of which one is no digit. -/
theorem gdbAtohLoop_none {str : List u8} (h : ∃ c ∈ str, gdbDigit c = none) (hex : ℕ) :
    gdbAtohLoop str hex = 0 := by
  induction str generalizing hex with
  | nil =>
    obtain ⟨c, hc, -⟩ := h
    cases hc
  | cons b str ih =>
    rw [gdbAtohLoop]
    cases hb : gdbDigit b with
    | none => rfl
    | some d =>
      obtain ⟨c, hc, hnone⟩ := h
      rcases List.mem_cons.mp hc with rfl | hc
      · rw [hb] at hnone
        cases hnone
      · exact ih ⟨c, hc, hnone⟩ _

/-- **A register in a text**: of less than eight characters it is nought. -/
theorem gdbReg_text {text : List u8} {i : ℕ} (hi : 8 * i ≤ text.length) (slack : List u8) :
    gdbReg (text ++ 0 :: slack) i = some (if ((text.drop (8 * i)).take 8).length = 8 then
      gdbLittleEndian 4 (gdbAtoh ((text.drop (8 * i)).take 8)) else 0) := by
  have hdrop : (text ++ 0 :: slack).drop (8 * i) = text.drop (8 * i) ++ 0 :: slack :=
    List.drop_append_of_le_length hi
  unfold gdbReg
  dsimp only
  rw [hdrop]
  by_cases hfull : ((text.drop (8 * i)).take 8).length = 8
  · have hlong : 8 ≤ (text.drop (8 * i)).length := by
      rw [List.length_take] at hfull
      omega
    rw [List.take_append_of_le_length hlong, if_pos (.inl hfull), if_pos hfull]
  · have hshort : (text.drop (8 * i)).length < 8 := by
      rw [List.length_take] at hfull
      omega
    have hnul : ∃ c ∈ (text.drop (8 * i) ++ 0 :: slack).take 8, gdbDigit c = none := by
      refine ⟨0, ?_, rfl⟩
      have hsucc : 8 - (text.drop (8 * i)).length = 7 - (text.drop (8 * i)).length + 1 := by omega
      rw [List.take_append, hsucc, List.take_succ_cons]
      exact List.mem_append_right _ List.mem_cons_self
    have hzero : gdbAtoh ((text.drop (8 * i) ++ 0 :: slack).take 8) = 0 := gdbAtohLoop_none hnul 0
    rw [if_pos (.inr hnul), if_neg hfull, hzero]
    rfl

/-- The text of the nine registers. -/
def gdbLocreg (savedregs : List ut64) : List u8 :=
  (savedregs.take 9).flatMap fun r => hexText 8 (UInt64.ofNat (gdbLittleEndian 4 r.toNat))

theorem toNat_littleEndian {r : ut64} (hr : r.toNat < 2 ^ 32) :
    (UInt64.ofNat (gdbLittleEndian 4 r.toNat)).toNat = gdbLittleEndian 4 r.toNat := by
  have hlt := (gdbLittleEndian_twice hr).1
  rw [UInt64.toNat_ofNat']
  omega

theorem length_hexText_littleEndian {r : ut64} (hr : r.toNat < 2 ^ 32) :
    (hexText 8 (UInt64.ofNat (gdbLittleEndian 4 r.toNat))).length = 8 := by
  refine length_hexText_eight ?_
  rw [toNat_littleEndian hr]
  exact (gdbLittleEndian_twice hr).1

theorem length_gdbLocreg {savedregs : List ut64} (hsaved : 9 ≤ savedregs.length)
    (hword : ∀ r ∈ savedregs, r.toNat < 2 ^ 32) : (gdbLocreg savedregs).length = 72 := by
  have hall : ∀ l : List ut64, (∀ r ∈ l, r.toNat < 2 ^ 32) →
      (l.flatMap fun r => hexText 8 (UInt64.ofNat (gdbLittleEndian 4 r.toNat))).length =
        8 * l.length := by
    intro l hl
    induction l with
    | nil => rfl
    | cons r l ih =>
      rw [List.flatMap_cons, List.length_append,
        length_hexText_littleEndian (hl r List.mem_cons_self),
        ih fun r hr => hl r (List.mem_cons_of_mem _ hr), List.length_cons]
      omega
  unfold gdbLocreg
  rw [hall _ fun r hr => hword r (List.mem_of_mem_take hr), List.length_take]
  omega

/-- What is shipped: the nine registers, and the answer from there on. -/
theorem gdbShip_text {savedregs : List ut64} {ret : List u8} (hsaved : 9 ≤ savedregs.length)
    (hword : ∀ r ∈ savedregs, r.toNat < 2 ^ 32) (hret : 72 ≤ ret.length) (hnul : (0 : u8) ∉ ret)
    (slack : List u8) :
    (gdbShip savedregs (ret ++ 0 :: slack)).tail =
      (gdbLocreg savedregs ++ ret.drop 72).take 698 := by
  have hlen := length_gdbLocreg hsaved hword
  have hover : overlay (ret ++ 0 :: slack) 0 (gdbLocreg savedregs) =
      (gdbLocreg savedregs ++ ret.drop 72) ++ 0 :: slack := by
    unfold overlay
    rw [List.take_zero, List.nil_append, Nat.zero_add, hlen,
      List.drop_append_of_le_length hret, List.append_assoc]
  have hplain : (0 : u8) ∉ gdbLocreg savedregs ++ ret.drop 72 := by
    intro hzero
    rcases List.mem_append.mp hzero with hzero | hzero
    · obtain ⟨r, -, hr⟩ := List.mem_flatMap.mp hzero
      have hrange := of_mem_hexText hr
      revert hrange
      decide
    · exact hnul (List.mem_of_mem_drop hzero)
  have hstr : cstr (overlay (ret ++ 0 :: slack) 0 (gdbLocreg savedregs)) =
      gdbLocreg savedregs ++ ret.drop 72 := by
    rw [hover, cstr_front hplain]
  unfold gdbLocreg at hstr ⊢
  unfold gdbShip
  dsimp only
  rw [hstr]
  rfl

/-- **The registers that are shipped** are read back from what is sent, and the
others are those of the answer before it. -/
theorem gdbReg_ship {savedregs : List ut64} {ret : List u8} (hsaved : 9 ≤ savedregs.length)
    (hword : ∀ r ∈ savedregs, r.toNat < 2 ^ 32) (hret : 72 ≤ ret.length) (hnul : (0 : u8) ∉ ret)
    (slack slack' : List u8) {i : ℕ} (hi : i < 16) (hin : 8 * i ≤ ret.length) :
    gdbReg ((gdbShip savedregs (ret ++ 0 :: slack)).tail ++ 0 :: slack') i =
      if i < 9 then some (savedregs.getD i 0).toNat else gdbReg (ret ++ 0 :: slack) i := by
  have hlen := length_gdbLocreg hsaved hword
  have htext : 8 * i ≤ ((gdbLocreg savedregs ++ ret.drop 72).take 698).length := by
    rw [List.length_take, List.length_append, hlen, List.length_drop]
    omega
  -- what is cut off is behind the registers
  have hgroup : (((gdbLocreg savedregs ++ ret.drop 72).take 698).drop (8 * i)).take 8 =
      ((gdbLocreg savedregs ++ ret.drop 72).drop (8 * i)).take 8 := by
    rw [List.drop_take, List.take_take, min_eq_left (by omega)]
  rw [gdbShip_text hsaved hword hret hnul, gdbReg_text htext, gdbReg_text hin, hgroup]
  by_cases hnine : i < 9
  · have hlt : i < savedregs.length := by omega
    have htake : i < (savedregs.take 9).length := by
      rw [List.length_take]
      omega
    have hr := hword _ (List.getElem_mem hlt)
    have height : ∀ r ∈ savedregs.take 9,
        (hexText 8 (UInt64.ofNat (gdbLittleEndian 4 r.toNat))).length = 8 := fun r hr =>
      length_hexText_littleEndian (hword r (List.mem_of_mem_take hr))
    have hatoh : gdbAtoh (hexText 8 (UInt64.ofNat (gdbLittleEndian 4 savedregs[i].toNat))) =
        gdbLittleEndian 4 savedregs[i].toNat := by
      have hsmall := (gdbLittleEndian_twice hr).1
      rw [← toNat_littleEndian hr] at hsmall
      rw [gdbAtoh_hexText 8 hsmall, toNat_littleEndian hr]
    unfold gdbLocreg
    rw [take_drop_texts height htake, List.getElem_take, if_pos (length_hexText_littleEndian hr),
      if_pos hnine, hatoh, (gdbLittleEndian_twice hr).2, List.getD_eq_getElem _ _ hlt]
  · obtain ⟨k, rfl⟩ := Nat.exists_eq_add_of_le (show 9 ≤ i by omega)
    have hdrop : (gdbLocreg savedregs ++ ret.drop 72).drop (8 * (9 + k)) =
        ret.drop (8 * (9 + k)) := by
      rw [Nat.mul_add, ← List.drop_drop, List.drop_left' hlen, List.drop_drop]
    rw [hdrop, if_neg hnine]

/-- The ninth register of a shipped packet. -/
theorem gdbReg_ship_ones :
    gdbReg ((gdbShip (List.replicate 16 1) (List.replicate 128 0x30 ++ [0])).tail ++ [0]) 8 =
      some 1 := by
  have hsaved : 9 ≤ (List.replicate 16 (1 : ut64)).length := by
    rw [List.length_replicate]
    omega
  have hword : ∀ r ∈ List.replicate 16 (1 : ut64), r.toNat < 2 ^ 32 := by
    intro r hr
    rw [List.eq_of_mem_replicate hr]
    decide
  have hret : 72 ≤ (List.replicate 128 (0x30 : u8)).length := by
    rw [List.length_replicate]
    omega
  have hnul : (0 : u8) ∉ List.replicate 128 0x30 := by
    intro hzero
    cases List.eq_of_mem_replicate hzero
  have hin : 8 * 8 ≤ (List.replicate 128 (0x30 : u8)).length := by
    rw [List.length_replicate]
    omega
  rw [gdbReg_ship hsaved hword hret hnul [] [] (by decide) hin]
  rfl

end Radare
