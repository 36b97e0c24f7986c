import Radare.Rahash.Generate
/-!
# Hash files that verify

`radare_hash_check` reads the size of the header from behind the magic,
where it is only if the struct has no gap there, and the machine the lowest
byte first, and stores four bytes more than the variable has. It reads each block over
its pointer to the buffer, and takes the digest from there or from where those bytes
point to. So what `radare_hash_generate` has written verifies only where those four
bytes are nothing's, for blocks that are no longer than a pointer, of algorithms that
do not follow it (`hash_verifies_iff`).
-/

namespace Radare

open Common

variable {H : Hashes} {V : Vendored} {m : Machine} {h : Header} {a : Algo} {fuel i n : ℕ}
variable {spare : Bool} {ptr : ut64} {src rest buffer data digest hashed name : List u8} {fresh : ℕ → u8}

/-! ## The header -/

/-- The header for a whole file. -/
def wholeHeader (m : Machine) (a : Algo) (bs : ut64) (size : ℕ) (name : List u8) : Header :=
  { mainHeader m a 0 0 0 bs with
    headerSize := m.headerSize
    fileSize := if size = 0 then -1 else UInt64.ofNat size
    to_ := UInt64.ofNat size
    length := UInt64.ofNat size
    fileName := name }

theorem hashRange_main (bs : ut64) (hsize : n < 2 ^ 63) :
    hashRange m (mainHeader m a 0 0 0 bs) (UInt64.ofNat n) = some (wholeHeader m a bs n []) := by
  have hzero : UInt64.ofNat n = 0 ↔ n = 0 := by
    rw [← UInt64.toNat_inj, toNat_size hsize, UInt64.toNat_zero]
  have hlength : UInt64.ofNat n - 0 = UInt64.ofNat n := by
    rw [UInt64.sub_zero]
  unfold hashRange mainHeader wholeHeader
  simp only [ne_eq, not_true_eq_false, if_false, false_and, hlength, hzero]
  split_ifs <;> rfl

/-- What is read of the size, where the pointers do not matter. -/
def storedHsize (bigEndian aligned : Bool) : ut64 :=
  let m : Machine := { lp64 with bigEndian := bigEndian, aligned := aligned }
  readHsize m { mainHeader m .md5 0 0 0 0 with headerSize := htonl m m.headerSize }

theorem storedHsize_iff : ∀ bigEndian aligned : Bool,
    storedHsize bigEndian aligned = (if aligned then 200 else 188) ↔
      bigEndian = false ∧ aligned = false := by
  decide +kernel

/-- **The size of the header is found behind the magic** by machines that
have the lowest byte first and no gap there. -/
theorem readHsize_iff (hsize : h.headerSize = m.headerSize) :
    readHsize m (endianHeader m h) = m.headerSize ↔ m.bigEndian = false ∧ m.aligned = false := by
  -- the four bytes do not depend on the length of a pointer
  have hread : readHsize m (endianHeader m h) = storedHsize m.bigEndian m.aligned := by
    unfold readHsize endianHeader storedHsize
    dsimp only
    rw [hsize]
    rfl
  rw [hread]
  exact storedHsize_iff m.bigEndian m.aligned

/-- A number is turned back as it was if it has 32 bits. -/
theorem htonl_htonl_iff (x : ut64) : htonl m (htonl m x) = x ↔ x.toNat < 2 ^ 32 := by
  rw [htonl_htonl, ← UInt64.toNat_inj, UInt64.toNat_ofNat']
  omega

/-- The header of a whole file is read back as it was. -/
theorem endianHeader_wholeHeader_iff {bs : ut64} (hsize : n < 2 ^ 63) :
    endianHeader m (endianHeader m (wholeHeader m a bs n name)) = wholeHeader m a bs n name ↔
      0 < n ∧ n < 2 ^ 32 ∧ bs.toNat < 2 ^ 32 := by
  have hn := toNat_size hsize
  constructor
  · intro heq
    have hfile := congrArg Header.fileSize heq
    have hbs := congrArg Header.blockSize heq
    have hbs := (htonl_htonl_iff (m := m) bs).mp hbs
    -- the size of an empty file is -1, which loses its upper half
    by_cases hzero : n = 0
    · subst hzero
      have hone := (htonl_htonl_iff (m := m) (-1)).mp hfile
      exact absurd hone (by decide)
    · have hof : (wholeHeader m a bs n name).fileSize = UInt64.ofNat n := if_neg hzero
      have hfile : htonl m (htonl m (wholeHeader m a bs n name).fileSize) = _ := hfile
      rw [hof, htonl_htonl_iff, hn] at hfile
      exact ⟨Nat.pos_of_ne_zero hzero, hfile, hbs⟩
  · rintro ⟨hpos, hlt, hbs⟩
    have hback : ∀ x : ut64, x.toNat < 2 ^ 32 → htonl m (htonl m x) = x := fun x hx =>
      (htonl_htonl_iff x).mpr hx
    have hn32 : (UInt64.ofNat n).toNat < 2 ^ 32 := hn.symm ▸ hlt
    have hheader : m.headerSize.toNat < 2 ^ 32 := by
      unfold Machine.headerSize
      split_ifs <;> decide
    unfold wholeHeader mainHeader endianHeader
    simp only [if_neg hpos.ne', hback _ hn32, hback _ hbs, hback _ hheader,
      hback 0 (by decide : (0 : ut64).toNat < 2 ^ 32)]

/-! ## The digests of both sides -/

theorem length_digestArray : (digestArray a digest).length = a.size := by
  rw [digestArray, List.length_take, List.length_append, List.length_replicate]
  omega

theorem length_turn (ctx : H.Ctx) : (H.turn a ctx data).1.length = a.size := by
  unfold Hashes.turn
  split_ifs <;> exact length_digestArray

/-- The algorithm and the block are such that the pointer is not followed. -/
def Algo.InPlace (a : Algo) (len : ℕ) : Prop :=
  a = .md5 ∨ a = .sha1 ∨ a = .xorpair ∧ len = 1

instance (len : ℕ) : Decidable (a.InPlace len) :=
  inferInstanceAs (Decidable (a = .md5 ∨ a = .sha1 ∨ a = .xorpair ∧ len = 1))

/-- **A block that is there is hashed as it was**, or its bytes are followed
as a pointer. -/
theorem checkTurn_eq (ha : a.checked) (hdata : data ≠ []) (ctx : V.hashes.Ctx) :
    checkTurn V.hashes a ctx digest data =
      if a.InPlace data.length then some (V.hashes.turn a ctx data) else none := by
  have hlength := List.length_pos_iff.mpr hdata
  have hfollowed : ∀ b : Algo, b ≠ .xorpair → ¬b.reads data.length = 0 := by
    intro b hb
    rw [Algo.reads, if_neg hb]
    omega
  cases a with
  | md5 => rfl
  | sha1 => rfl
  | xorpair =>
    have hreads : Algo.xorpair.reads data.length = 0 ↔ Algo.xorpair.InPlace data.length := by
      rw [Algo.reads, if_pos rfl]
      unfold Algo.InPlace
      simp only [reduceCtorEq, false_or, true_and]
      omega
    unfold checkTurn
    dsimp only
    rw [if_congr hreads rfl rfl]
    split_ifs with hplace
    · -- of one byte there is no pair
      have hone : data.length = 1 := by
        have hzero := hreads.mpr hplace
        rw [Algo.reads, if_pos rfl] at hzero
        omega
      obtain ⟨b, rfl⟩ := List.length_eq_one_iff.mp hone
      rfl
    · rfl
  | par | xor | crc16 | crc32 =>
    unfold checkTurn
    dsimp only
    rw [if_neg (hfollowed _ (by decide)), if_neg]
    rintro (h | h | ⟨h, -⟩) <;> cases h
  | md4 | sha256 | sha384 | sha512 | hamdist | entropy | mod255 => cases ha

/-! ## The loops side by side -/

/-- A header of a whole file, for which the check can be followed. -/
structure Header.Checks (m : Machine) (h : Header) (size : ℕ) : Prop where
  algorithm : h.algorithm.checked
  fileSize : h.fileSize.toNat = size
  small : size < 2 ^ 32
  blockSize_ne : h.blockSize.toNat ≠ 0
  blockSize_lt : h.blockSize.toNat < 2 ^ 32

/-- One block of the check. -/
theorem checkLoop_turn (hh : h.Checks m n) (hptr : ptr.toNat < n) (hrest : rest ≠ [])
    (ctx : V.hashes.Ctx) {digests : List u8} :
    checkLoop V.hashes m h (fuel + 1) ptr rest digests digest hashed ctx =
      if h.algorithm.InPlace (min h.blockSize.toNat rest.length) ∧
          min h.blockSize.toNat rest.length ≤ m.pointer then
        let turn := V.hashes.turn h.algorithm ctx (rest.take h.blockSize.toNat)
        let hashed := overlay hashed (digests.take h.algorithm.size)
        let differ := if turn.1 = hashed.take h.algorithm.size then [] else [ptr]
        if rest.length < h.blockSize.toNat then some differ
        else (checkLoop V.hashes m h fuel (ptr + h.blockSize) (rest.drop h.blockSize.toNat)
          (digests.drop h.algorithm.size) turn.1 hashed turn.2).map (differ ++ ·)
      else none := by
  have hdata := take_ne_nil hh.blockSize_ne hrest
  have hlength : (rest.take h.blockSize.toNat).length = min h.blockSize.toNat rest.length :=
    List.length_take
  have hdone : ¬(h.fileSize ≠ -1 ∧ h.fileSize ≤ ptr) := fun hand => by
    have hle := UInt64.le_iff_toNat_le.mp hand.2
    rw [hh.fileSize] at hle
    omega
  have hbs := hh.blockSize_lt
  -- a short block is the last one, and ends the loop
  have hshort : UInt64.ofNat (rest.take h.blockSize.toNat).length < h.blockSize ↔
      rest.length < h.blockSize.toNat := by
    rw [UInt64.lt_iff_toNat_lt, hlength, UInt64.toNat_ofNat', Nat.mod_eq_of_lt (by omega)]
    omega
  have htake : ∀ ctx : V.hashes.Ctx, ∀ data, (V.hashes.turn h.algorithm ctx data).1.take
      h.algorithm.size = (V.hashes.turn h.algorithm ctx data).1 := fun ctx data =>
    List.take_of_length_le (length_turn ctx).le
  rw [checkLoop, if_neg hdone]
  simp only [checkTurn_eq hh.algorithm hdata, hlength]
  by_cases hfits : min h.blockSize.toNat rest.length ≤ m.pointer
  · by_cases hplace : h.algorithm.InPlace (min h.blockSize.toNat rest.length)
    · rw [if_neg (Nat.not_lt.mpr hfits), if_pos hplace, if_pos ⟨hplace, hfits⟩]
      rw [hlength] at hshort
      simp only [Option.bind_eq_bind, Option.bind_some, htake, hshort]
      split_ifs
      all_goals first | rfl | exact Option.map_eq_bind.symm
    · rw [if_neg (Nat.not_lt.mpr hfits), if_neg hplace, if_neg fun hand => hplace hand.1]
      rfl
  · rw [if_pos (Nat.not_le.mp hfits), if_neg fun hand => hfits hand.2]

theorem Algo.InPlace.block {size left : ℕ} (hplace : a.InPlace (min n size)) (hle : left ≤ size)
    (hleft : 0 < left) (hn : 0 < n) : a.InPlace (min n left) := by
  rcases hplace with hmd5 | hsha1 | ⟨hpair, hone⟩
  · exact Or.inl hmd5
  · exact Or.inr (Or.inl hsha1)
  · exact Or.inr (Or.inr ⟨hpair, by omega⟩)

/-- **The check goes over the chunks of the file** as they were hashed. -/
theorem checkLoop_chunks (hh : h.Checks m src.length) {bs : ℕ} (hbs : h.blockSize.toNat = bs)
    (hplace : h.algorithm.InPlace (min bs src.length)) (hfits : min bs src.length ≤ m.pointer)
    (hptr : ptr.toNat = i * bs) (hfuel : chunkCount bs src.length - i < fuel) (ctx : V.hashes.Ctx) :
    checkLoop V.hashes m h fuel ptr (src.drop (i * bs))
      (V.hashes.digests h.algorithm ctx
        (chunksFrom bs src i (chunkCount bs src.length - i))).flatten digest hashed ctx =
      some [] := by
  have hpos : 0 < bs := by
    have hne := hh.blockSize_ne
    omega
  induction fuel generalizing ptr i digest hashed ctx with
  | zero => exact absurd hfuel (Nat.not_lt_zero _)
  | succ fuel ih =>
    by_cases hin : i * bs < src.length
    · -- one chunk, and those behind it
      have hi := (lt_chunkCount_iff hpos).mpr hin
      obtain ⟨count, hcount⟩ := Nat.exists_eq_add_of_lt hi
      have hsucc : chunkCount bs src.length - i = count + 1 := by omega
      have hnext : chunkCount bs src.length - (i + 1) = count := by omega
      have hrest : src.drop (i * bs) ≠ [] := by
        rw [ne_eq, List.drop_eq_nil_iff]
        omega
      have hlength : (src.drop (i * bs)).length = src.length - i * bs := List.length_drop
      have hblock := hplace.block (Nat.sub_le src.length (i * bs)) (by omega) hpos
      have hchunk : (src.drop (i * bs)).take bs = chunk bs src i := rfl
      rw [checkLoop_turn hh (by omega) hrest, hbs, hlength, if_pos ⟨hblock, by omega⟩, hsucc,
        chunksFrom_succ, hchunk, Hashes.digests, List.flatten_cons, drop_succ_mul]
      generalize hturn : V.hashes.turn h.algorithm ctx (chunk bs src i) = turn
      have hsize : turn.1.length = h.algorithm.size := hturn ▸ length_turn ctx
      -- the digest that is read is the one that is computed again
      have hsame : (overlay hashed turn.1).take h.algorithm.size = turn.1 := List.take_left' hsize
      have hstep : (ptr + h.blockSize).toNat = (i + 1) * bs := by
        have hlt := hh.blockSize_lt
        have hsmall := hh.small
        rw [UInt64.toNat_add, hptr, hbs, Nat.succ_mul]
        omega
      have hrun : checkLoop V.hashes m h fuel (ptr + h.blockSize) (src.drop ((i + 1) * bs))
          (V.hashes.digests h.algorithm turn.2 (chunksFrom bs src (i + 1) count)).flatten turn.1
          (overlay hashed turn.1) turn.2 = some [] := by
        rw [← hnext]
        exact ih hstep (by omega) turn.2
      simp only [List.take_left' hsize, List.drop_left' hsize, hsame, if_true, hrun]
      split_ifs <;> rfl
    · have hdone : h.fileSize ≤ ptr := by
        rw [UInt64.le_iff_toNat_le, hh.fileSize, hptr]
        omega
      have hne : h.fileSize ≠ -1 := fun hneg => by
        have hfile := hh.fileSize
        have hsmall := hh.small
        rw [hneg, show (-1 : ut64).toNat = 2 ^ 64 - 1 from rfl] at hfile
        omega
      rw [checkLoop, if_pos ⟨hne, hdone⟩]

/-! ## Files just generated -/

/-- The file that is generated is read back with the same header and without
a block that differs. -/
def Verifies (V : Vendored) (m : Machine) (spare : Bool) (fresh : ℕ → u8) (hashed : List u8)
    (a : Algo) (bs : ut64) (src name : List u8) : Prop :=
  ∃ g, radareHashGenerate V.hashes m fresh (V.hashes.init a) (mainHeader m a 0 0 0 bs) src name
      true = some g ∧ g.ret = 0 ∧
    radareHashCheck V.hashes m spare (V.hashes.init a) hashed src (g.file m) =
      some (.done g.header [])

theorem wholeHeader_checks (m : Machine) (name : List u8) {bs : ut64} (ha : a.checked)
    (hpos : 0 < n) (hlt : n < 2 ^ 32) (hne : bs.toNat ≠ 0) (hbs : bs.toNat < 2 ^ 32) :
    (wholeHeader m a bs n name).Checks m n where
  algorithm := ha
  fileSize := by
    rw [wholeHeader, if_neg hpos.ne']
    exact toNat_size (by omega)
  small := hlt
  blockSize_ne := hne
  blockSize_lt := hbs

section Generated

variable {bs : ut64} {g : Generated}

/-- What is generated has the header of the whole file. -/
theorem generate_header (hsize : src.length < 2 ^ 63) {ctx : H.Ctx}
    (hg : radareHashGenerate H m fresh ctx (mainHeader m a 0 0 0 bs) src name true = some g) :
    g.header = wholeHeader m a bs src.length (name.take 128) ∧ bs ≠ 0 := by
  unfold radareHashGenerate at hg
  rw [hashRange_main bs hsize] at hg
  dsimp only at hg
  split_ifs at hg with hbs htrue
  · obtain ⟨⟨digests, ok⟩, -, rfl⟩ := Option.map_eq_some_iff.mp hg
    exact ⟨rfl, hbs⟩
  · exact absurd rfl htrue

/-- **The header alone decides** how far the check comes. -/
theorem check_file (hheader : g.header = wholeHeader m a bs src.length name) (hbs : bs ≠ 0)
    (hsize : src.length < 2 ^ 63) {ctx : H.Ctx} {result : List ut64} :
    radareHashCheck H m spare ctx hashed src (g.file m) = some (.done g.header result) ↔
      spare = true ∧ (m.bigEndian = false ∧ m.aligned = false) ∧
      (0 < src.length ∧ src.length < 2 ^ 32 ∧ bs.toNat < 2 ^ 32) ∧
      checkLoop H m g.header (src.length + 2) 0 src (g.file m).digests
        (List.replicate a.size 0) hashed ctx = some result := by
  have hmagic : (g.file m).header.magic = magic := by
    rw [Generated.file, hheader]
    rfl
  have hhsize : g.header.headerSize = m.headerSize := by
    rw [hheader]
    rfl
  have hread := readHsize_iff hhsize
  have hback : endianHeader m (endianHeader m g.header) = g.header ↔
      0 < src.length ∧ src.length < 2 ^ 32 ∧ bs.toNat < 2 ^ 32 := by
    rw [hheader]
    exact endianHeader_wholeHeader_iff hsize
  unfold radareHashCheck
  rw [if_neg (not_not.mpr hmagic), show (g.file m).header = endianHeader m g.header from rfl]
  by_cases hspare : spare = false
  · rw [if_pos hspare, hspare]
    exact iff_of_false nofun nofun
  rw [if_neg hspare, and_iff_right (Bool.eq_true_of_not_eq_false hspare)]
  by_cases hfound : m.bigEndian = false ∧ m.aligned = false
  · rw [if_neg (not_not.mpr (hread.mpr hfound)), and_iff_right hfound]
    dsimp only
    by_cases hnumbers : 0 < src.length ∧ src.length < 2 ^ 32 ∧ bs.toNat < 2 ^ 32
    · have hblock : ¬g.header.blockSize = 0 := by
        rw [hheader]
        exact hbs
      have halgorithm : g.header.algorithm = a := by
        rw [hheader]
        rfl
      rw [hback.mpr hnumbers, if_neg hblock, halgorithm, and_iff_right hnumbers,
        Option.map_eq_some_iff]
      constructor
      · rintro ⟨found, hloop, hdone⟩
        cases hdone
        exact hloop
      · exact fun hloop => ⟨result, hloop, rfl⟩
    · refine iff_of_false (fun hcheck => hnumbers (hback.mp ?_)) fun hand => hnumbers hand.1
      split_ifs at hcheck
      obtain ⟨found, -, hdone⟩ := Option.map_eq_some_iff.mp hcheck
      exact (Checked.done.inj hdone).1
  · rw [if_pos fun heq => hfound (hread.mp heq)]
    exact iff_of_false (fun hdone => Checked.noConfusion (Option.some.inj hdone))
      fun hand => hfound hand.1

/-- The digests written for a whole file are those of its chunks. -/
theorem generate_digests (name : List u8) (fresh : ℕ → u8) (ctx : H.Ctx) (hpos : 0 < src.length)
    (hlt : src.length < 2 ^ 32) (hne : bs.toNat ≠ 0) (hbs : bs.toNat < 2 ^ 32)
    (hfits : min bs.toNat src.length < 2 ^ 31) : ∃ g,
      radareHashGenerate H m fresh ctx (mainHeader m a 0 0 0 bs) src name true = some g ∧
        g.ret = 0 ∧ g.header = wholeHeader m a bs src.length (name.take 128) ∧
        g.digests = H.digests a ctx
          (chunksFrom bs.toNat src 0 (chunkCount bs.toNat src.length)) := by
  have hsize : src.length < 2 ^ 63 := by omega
  have hn := toNat_size hsize
  have hbs0 : bs ≠ 0 := fun hzero => hne (by rw [hzero]; rfl)
  have hfrom : (mainHeader m a 0 0 0 bs).from_.toNat = 0 := rfl
  have hstop : ((mainHeader m a 0 0 0 bs).stop src.length).toNat = src.length := hn
  have hloop : ((mainHeader m a 0 0 0 bs).looped m src.length true name).blockSize.toNat =
      bs.toNat := loopHeader_blockSize.trans (cut_of_lt fun _ => hbs)
  have hto : ((mainHeader m a 0 0 0 bs).looped m src.length true name).to_.toNat =
      src.length := loopHeader_to.trans ((cut_of_lt fun _ => hstop.symm ▸ hlt).trans hstop)
  have hstart : ((mainHeader m a 0 0 0 bs).looped m src.length true name).from_.toNat = 0 :=
    loopHeader_from.trans (cut_of_lt fun _ => (by decide : (0 : ut64).toNat < 2 ^ 32))
  have hin : ((mainHeader m a 0 0 0 bs).looped m src.length true name).InFile src.length :=
    loopHeader_inFile _ hsize (by omega) hstop.le fun _ => hstop.symm ▸ hlt
  have hblocks := (blocksLoop_eq_iff hin
    (Nat.pos_of_ne_zero hne) hloop.le (Or.inl hloop)
    (length_malloc fresh _)).mpr ?_
  · rw [radareHashGenerate_eq hsize (by omega) hstop.le hbs0 rfl, hblocks, hstart, hto,
      ← (chunksFrom_eq_iff (Nat.pos_of_ne_zero hne) (Nat.le_refl src.length)).mpr (Or.inr rfl)]
    refine ⟨_, rfl, rfl, ?_, rfl⟩
    have hranged : hashRange m (mainHeader m a 0 0 0 bs) (UInt64.ofNat src.length) =
        some ((mainHeader m a 0 0 0 bs).ranged m src.length []) :=
      hashRange_eq hsize (by omega) hstop.le
    rw [hashRange_main bs hsize] at hranged
    have heq := Option.some.inj hranged
    show ({ (mainHeader m a 0 0 0 bs).ranged m src.length [] with
      fileName := name.take 128 } : Header) = _
    rw [← heq]
    rfl
  · rw [hloop, hto, hstart]
    refine ⟨Or.inr ⟨rfl, rfl, Or.inr rfl⟩, fun i _ => ?_⟩
    unfold negativeInt
    rw [decide_eq_true_iff]
    omega

end Generated

/-- **A file just generated verifies** exactly where nothing is behind the variable for
the size of the header, this is found, all numbers have 32 bits, and each block is no
longer than a pointer and of an algorithm that does not follow it. -/
theorem hash_verifies_iff (V : Vendored) (m : Machine) (spare : Bool) (fresh : ℕ → u8)
    (hashed : List u8) (a : Algo) (bs : ut64) (src name : List u8) (ha : a.checked)
    (hsize : src.length < 2 ^ 63) :
    Verifies V m spare fresh hashed a bs src name ↔
      spare = true ∧ (m.bigEndian = false ∧ m.aligned = false) ∧
      (0 < src.length ∧ src.length < 2 ^ 32) ∧ (0 < bs.toNat ∧ bs.toNat < 2 ^ 32) ∧
      min bs.toNat src.length ≤ m.pointer ∧ a.InPlace (min bs.toNat src.length) := by
  constructor
  · rintro ⟨g, hg, -, hcheck⟩
    obtain ⟨hheader, hbs⟩ := generate_header hsize hg
    obtain ⟨hspare, hfound, ⟨hpos, hlt, hbs32⟩, hloop⟩ := (check_file hheader hbs hsize).mp hcheck
    have hne : bs.toNat ≠ 0 := fun hzero => hbs (UInt64.toNat_inj.mp hzero)
    have hsrc : src ≠ [] := List.length_pos_iff.mp hpos
    have hchecks := wholeHeader_checks m (name.take 128) ha hpos hlt hne hbs32
    rw [hheader, checkLoop_turn hchecks (show (0 : ut64).toNat < src.length from hpos) hsrc] at hloop
    split_ifs at hloop with hand
    · exact ⟨hspare, hfound, ⟨hpos, hlt⟩, ⟨Nat.pos_of_ne_zero hne, hbs32⟩, hand.2, hand.1⟩
    · exact ⟨hspare, hfound, ⟨hpos, hlt⟩, ⟨Nat.pos_of_ne_zero hne, hbs32⟩, hand.2, hand.1⟩
  · rintro ⟨hspare, hfound, ⟨hpos, hlt⟩, ⟨hbspos, hbs32⟩, hfits, hplace⟩
    have hpointer := m.pointer_le
    obtain ⟨g, hg, hret, hheader, hdigests⟩ := generate_digests (m := m) (a := a) name fresh
      (V.hashes.init a) hpos hlt hbspos.ne' hbs32 (by omega)
    have hbs : bs ≠ 0 := fun hzero => hbspos.ne' (by rw [hzero]; rfl)
    refine ⟨g, hg, hret, (check_file hheader hbs hsize).mpr ⟨hspare, hfound, ⟨hpos, hlt, hbs32⟩, ?_⟩⟩
    have hwritten : writtenDigest a = id := by
      funext digest
      rw [writtenDigest, if_neg]
      · rfl
      · rintro rfl
        cases ha
    have hchecks := wholeHeader_checks m (name.take 128) ha hpos hlt hbspos.ne' hbs32
    have hcount : chunkCount bs.toNat src.length ≤ src.length :=
      (chunkCount_le_iff hbspos).mpr (Nat.le_mul_of_pos_right _ hbspos)
    have hsame : (wholeHeader m a bs src.length (name.take 128)).blockSize.toNat = bs.toNat := rfl
    have hzero : (0 : ut64).toNat = 0 * bs.toNat := (Nat.zero_mul bs.toNat).symm
    have hrun : checkLoop V.hashes m (wholeHeader m a bs src.length (name.take 128))
        (src.length + 2) 0 (src.drop (0 * bs.toNat)) (V.hashes.digests a (V.hashes.init a)
          (chunksFrom bs.toNat src 0 (chunkCount bs.toNat src.length - 0))).flatten
        (List.replicate a.size 0) hashed (V.hashes.init a) = some [] :=
      checkLoop_chunks hchecks hsame hplace hfits hzero (by omega) _
    have hfile : (g.file m).digests = g.digests.flatten := by
      rw [Generated.file, hheader]
      show g.digests.flatMap (writtenDigest a) = _
      rw [hwritten, List.flatMap_id]
    rw [hfile, hdigests, hheader]
    rw [Nat.zero_mul, List.drop_zero, Nat.sub_zero] at hrun
    exact hrun

/-- A machine of 32 bits. -/
def ilp32 : Machine := ⟨false, false, 4, by decide⟩

/-- One byte has no pair. -/
theorem xorpair_verifies : Verifies noVendored ilp32 true (fun _ => 0) [] .xorpair 16 [7] [] :=
  (hash_verifies_iff noVendored ilp32 true (fun _ => 0) [] .xorpair 16 [7] [] rfl (by decide)).mpr
    (by decide)

/-- **The file of digests is not read back** by a machine of 64 bits, and the
block is taken for a pointer by one of 32. -/
theorem par_unverified :
    ¬Verifies noVendored lp64 true (fun _ => 0) [] .par 2 [1, 2] [] ∧
      ¬Verifies noVendored ilp32 true (fun _ => 0) [] .par 2 [1, 2] [] := by
  constructor
  · rintro ⟨g, hg, -, hcheck⟩
    obtain rfl := Option.some.inj hg
    exact absurd hcheck (by decide)
  · rintro ⟨g, hg, -, hcheck⟩
    obtain rfl := Option.some.inj hg
    exact absurd hcheck (by decide)

end Radare
