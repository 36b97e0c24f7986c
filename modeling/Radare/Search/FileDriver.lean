import Radare.Search.Drivers
/-!
# The driver of a file of keywords

`search_from_file` goes on through the block the callback has read: behind
a hit the bytes it feeds are those of the hit's block, at the places of
the block it is searching (`Filter.blockSrc`). So the bytes fed are those
that follow from the bytes fed (`fileLoop_gives`), and they are the file's
only where the two blocks agree.
-/

namespace Radare

open Common

variable {f : Filter} {s : State} {d : Driver} {tls : List TokenList} {bytes : List u8}
variable {start src p : ut64} {i n b bs : ℕ} {c : u8}

/-- Where the block shown was read, over the block that starts with byte
`b`: there, or at the last hit accepted since. -/
def Filter.blockSrc (f : Filter) (tls : List TokenList) (start : ut64) (b : ℕ) (bytes : List u8) :
    ut64 :=
  if (f.run tls start bytes).s.1 = (f.run tls start (bytes.take b)).s.1 then start + UInt64.ofNat b
  else (f.run tls start bytes).s.2

/-- The byte behind those fed. -/
def Filter.next (f : Filter) (file : List u8) (bs : ℕ) (tls : List TokenList) (start : ut64)
    (bytes : List u8) : u8 :=
  file.getD ((f.blockSrc tls start (bytes.length - bytes.length % bs) bytes).toNat +
    bytes.length % bs) 0xff

theorem Filter.blockSrc_length :
    f.blockSrc tls start bytes.length bytes = start + UInt64.ofNat bytes.length := by
  unfold Filter.blockSrc
  rw [List.take_length, if_pos rfl]

/-- The block shown after one more byte. -/
theorem Filter.shown_blockSrc (hb : b ≤ bytes.length) :
    f.shown tls start (f.blockSrc tls start b bytes) bytes c =
      f.blockSrc tls start b (bytes ++ [c]) := by
  have hle : (f.run tls start (bytes.take b)).s.1 ≤ (f.run tls start bytes).s.1 :=
    f.run_hits_le (List.take_prefix b bytes)
  unfold Filter.shown Filter.blockSrc
  rw [List.take_append_of_le_length hb]
  rcases f.run_hits tls start bytes c with h | h
  · rw [h, if_pos rfl]
  · rw [if_neg (by omega), if_neg (by omega)]

/-- **The rest of a block**, from the block shown. -/
theorem fileBlock_gives (hs : s.Opened) (hrest : ∀ tk ∈ tls, tk.estat = 0) (htls : tls ≠ [])
    (h : d.At f s tls start (f.blockSrc tls start b bytes) p bytes)
    (hi : i + n ≤ s.config.block.length) (hb : s.config.block.length ∣ b)
    (hlen : bytes.length = b + i) (hp : p.toNat + i = start.toNat + bytes.length)
    (hsmall : start.toNat + bytes.length + n < 2 ^ 63) :
    let bytes' := grow (f.next s.file s.config.block.length tls start) n bytes
    Gives (fileBlock f i n d) (f.run tls start bytes').defined
      (Driver.At f s tls start (f.blockSrc tls start b bytes') p bytes') := by
  induction n generalizing i d bytes with
  | zero => exact ⟨fun _ => ⟨d, rfl, h⟩, fun hdef => absurd (hdef.symm.trans h.defined) (by decide)⟩
  | succ n ih =>
    have hc : s.file.getD ((f.blockSrc tls start b bytes).toNat + i) 0xff =
        f.next s.file s.config.block.length tls start bytes := by
      have hmod : bytes.length % s.config.block.length = i := by
        obtain ⟨q, rfl⟩ := hb
        rw [hlen, Nat.mul_add_mod]
        exact Nat.mod_eq_of_lt (by omega)
      have hstart : bytes.length - i = b := by omega
      rw [Filter.next, hmod, hstart]
    dsimp only
    unfold fileBlock
    rw [grow_succ]
    refine (h.update hs hrest htls (by omega) hp (by omega) hc).bind ?_
      fun hdef => f.run_defined prefix_grow hdef
    rintro ⟨d', ret⟩ ⟨hd', hret, -⟩
    rw [Filter.shown_blockSrc (by omega)] at hd'
    simp only [if_neg hret]
    refine ih hd' (by omega) ?_ ?_ ?_
    all_goals
      rw [List.length_append, List.length_singleton]
      omega

/-- A turn of the search loop. -/
theorem fileLoop_succ (f : Filter) (fuel : ℕ) (hs : s.Opened) (hint : s.config.interrupted = false)
    (h : d.s = s.load p p) :
    fileLoop f (fuel + 1) d =
      if p.toNat < s.file.length then
        (fileBlock f 0 s.config.block.length d).bind fun d => fileLoop f fuel (d.read true)
      else some d := by
  have hsmall := hs.small
  have hsize : s.config.size.toNat = s.file.length := by
    rw [hs.size, UInt64.toNat_ofNat']
    omega
  have hinterrupted : d.s.config.interrupted = false := by
    rw [h]
    exact hint
  have hseek : d.s.config.seek = p := by
    rw [h]
    rfl
  have hdsize : d.s.config.size = s.config.size := by
    rw [h]
    rfl
  have hblock : d.s.config.block.length = s.config.block.length := by
    rw [h]
    exact blockAt_length
  have hiff : ((!false) = true ∧ p < s.config.size) ↔ p.toNat < s.file.length := by
    rw [UInt64.lt_iff_toNat_lt, hsize]
    exact and_iff_right rfl
  rw [fileLoop, hinterrupted, hseek, hdsize, hblock]
  simp only [hiff]

/-- **The search loop of a file of keywords**, with `m` blocks to come. -/
theorem fileLoop_gives (hs : s.Opened) (hint : s.config.interrupted = false)
    (hrest : ∀ tk ∈ tls, tk.estat = 0) (htls : tls ≠ []) {fuel m : ℕ}
    (h : d.At f s tls start p p bytes) (hb : s.config.block.length ∣ bytes.length)
    (hp : p.toNat = start.toNat + bytes.length)
    (hle : s.file.length - p.toNat ≤ m * s.config.block.length)
    (hlt : m * s.config.block.length < s.file.length - p.toNat + s.config.block.length) :
    let bytes' := grow (f.next s.file s.config.block.length tls start)
      (m * s.config.block.length) bytes
    Gives (fileLoop f fuel d) (decide (m < fuel) && (f.run tls start bytes').defined)
      fun d' => d'.fed = pairs start bytes' := by
  have hbs := hs.block
  have hsmall := hs.small
  dsimp only
  induction fuel generalizing m d p bytes with
  | zero => exact ⟨fun ht => absurd ht (by simp), fun _ => rfl⟩
  | succ fuel ih =>
    rw [fileLoop_succ f fuel hs hint h.program]
    cases m with
    | zero =>
      rw [if_neg (by omega), Nat.zero_mul, grow_zero]
      exact ⟨fun _ => ⟨d, rfl, h.fed⟩, fun ht => absurd ht (by simp [h.defined])⟩
    | succ m =>
      have hbefore : p.toNat < s.file.length := by
        rw [Nat.succ_mul] at hlt
        omega
      have hsplit : (m + 1) * s.config.block.length =
          s.config.block.length + m * s.config.block.length := by
        rw [Nat.succ_mul, Nat.add_comm]
      have htest : decide (m + 1 < fuel + 1) = decide (m < fuel) := by simp
      rw [if_pos hbefore, htest]
      rw [hsplit] at hle hlt ⊢
      rw [grow_add]
      have hstart : start + UInt64.ofNat bytes.length = p := by
        have hzero : p + UInt64.ofNat 0 = start + UInt64.ofNat bytes.length :=
          add_ofNat_eq (by omega)
        simpa using hzero.symm
      have hshown : d.At f s tls start (f.blockSrc tls start bytes.length bytes) p bytes := by
        rwa [Filter.blockSrc_length, hstart]
      have hturn := fileBlock_gives hs hrest htls hshown (i := 0) (n := s.config.block.length)
        (by omega) hb (by omega) (by omega) (by omega)
      refine hturn.bind (fun d' hd' => ?_) fun ht =>
        f.run_defined prefix_grow (Bool.and_eq_true_iff.mp ht).2
      -- the next block is read afresh
      have hnext : (p + UInt64.ofNat s.config.block.length).toNat =
          p.toNat + s.config.block.length := toNat_add_ofNat (by omega)
      obtain ⟨hat, -⟩ := hd'.readNext hs (by omega) rfl (by omega)
      refine ih hat ?_ ?_ ?_ ?_
      · rw [grow_length]
        exact Nat.dvd_add hb dvd_rfl
      · rw [hnext, grow_length]
        omega
      · rw [hnext]
        omega
      · rw [hnext]
        omega

/-- Without keywords one byte is fed, and the loop is left. -/
theorem fileLoop_nil (hs : s.Opened) (hint : s.config.interrupted = false) {fuel : ℕ}
    (h : d.s = s.load p p) (htls : d.tls = []) (hp : p.toNat < s.file.length) :
    Gives (fileLoop f fuel d) (decide (1 < fuel))
      fun d' => d'.fed = d.fed ++ [(s.file.getD p.toNat 0xff, p)] := by
  have hbs := hs.block
  have hsmall := hs.small
  cases fuel with
  | zero => exact ⟨fun ht => absurd ht (by simp), fun _ => rfl⟩
  | succ fuel =>
    obtain ⟨d', hupdate, hstopped⟩ := Driver.update_nil (f := f) hs h htls
    have hturn : fileBlock f 0 s.config.block.length d = some d' := by
      obtain ⟨k, hk⟩ := Nat.exists_eq_add_one.mpr hbs
      rw [hk]
      unfold fileBlock
      rw [hupdate]
      rfl
    have hnext := hstopped.readNext hs (by omega) rfl
      ((toNat_add_ofNat (by omega)).trans_lt (by omega))
    rw [fileLoop_succ f fuel hs hint h, if_pos hp, hturn]
    cases fuel with
    | zero => exact ⟨fun ht => absurd ht (by simp), fun _ => rfl⟩
    | succ fuel =>
      have hleft : fileLoop f (fuel + 1) (d'.read true) = some _ :=
        if_neg (by rw [hnext.interrupted]; rintro ⟨h, -⟩; cases h)
      exact ⟨fun _ => ⟨_, hleft, hnext.fed⟩, fun ht => absurd ht (by simp)⟩

end Radare
