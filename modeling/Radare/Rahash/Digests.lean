import Radare.Rahash.Check
import Radare.Rahash.Md4
import Radare.Rahash.Sha1
import Radare.Rahash.Sha2
/-!
# The digests of a file

`rahash` with the algorithms that it has (`Vendored.real`). A file that is one
block has the digest of its bytes. Of several blocks each has its own with MD4
and SHA-1. With MD5 this is so of the first one only:
`MD5Final` clears the context, `MD5Init` is not called again, and the blocks
behind are worked into four zeros (`digests_file`).
-/

namespace Radare

open Common

/-- The context of the algorithm that is run. -/
inductive RahashCtx (w : ℕ) where
  | md5 (context : Md5Ctx w)
  | sha1 (ctx : Sha1Ctx)
  | sha256 (context : Sha2Ctx sha256)
  | sha384 (context : Sha2Ctx sha384)
  | sha512 (context : Sha2Ctx sha512)
  | empty

variable {w : ℕ}

/-- What `main` initialises. A static context has zeros before. -/
def RahashCtx.init (w : ℕ) : Algo → RahashCtx w
  | .md5 => .md5 (md5Init (md5Zero w))
  | .sha1 => .sha1 sha1Init
  | .sha256 => .sha256 Radare.sha256.init
  | .sha384 => .sha384 Radare.sha384.init
  | .sha512 => .sha512 Radare.sha512.init
  | _ => .empty

/-- The bytes of one read, fewer than `2 ^ 31`, so that `MD5Update` has a
result. -/
def RahashCtx.update : RahashCtx w → List u8 → RahashCtx w
  | .md5 context, data => .md5 ((md5Update context data).getD context)
  | .sha1 ctx, data => .sha1 (sha1Update ctx data)
  | .sha256 context, data => .sha256 (Radare.sha256.update context data)
  | .sha384 context, data => .sha384 (Radare.sha384.update context data)
  | .sha512 context, data => .sha512 (Radare.sha512.update context data)
  | .empty, _ => .empty

/-- The digest, and the context behind. -/
def RahashCtx.final : Algo → RahashCtx w → List u8 × RahashCtx w
  | .sha1, c =>
    let digest := match c with
      | .sha1 ctx => ((sha1Final ctx).getD ([], sha1Init)).1
      | _ => []
    (digest, .sha1 sha1Init)
  | _, .md5 context =>
    let (digest, context) := (md5Final context).getD ([], md5Zero w)
    (digest, .md5 context)
  | _, .sha256 context => (Radare.sha256.final context, .sha256 (Radare.sha256.left context))
  | _, .sha384 context => (Radare.sha384.final context, .sha384 (Radare.sha384.left context))
  | _, .sha512 context => (Radare.sha512.final context, .sha512 (Radare.sha512.left context))
  | _, c => ([], c)

/-- The algorithms, where a `UINT4` of `md5.h` has `w` bits. What a CRC is
written as, and what is printed of the entropy, is left open. -/
def Vendored.real (w : ℕ) (crc16 crc32 entropy : List u8 → List u8) : Vendored where
  mdfour := Radare.mdfour
  crc16 := crc16
  crc32 := crc32
  entropy := entropy
  Ctx := RahashCtx w
  init := RahashCtx.init w
  update _ := RahashCtx.update
  final := RahashCtx.final
  sha1_final _ := rfl

/-- The algorithms of which the digests are those of padded messages. -/
def Algo.padded : Algo → Bool
  | .md4 | .md5 | .sha1 | .sha256 | .sha384 | .sha512 => true
  | _ => false

/-- The digest that the algorithm has for a message. That of `md5c.c` is the
MD5 where a `UINT4` has 32 bits. -/
def Algo.messageDigest (w : ℕ) : Algo → List u8 → List u8
  | .md4, msg => md4Digest msg
  | .md5, msg => md5Digest (md5Start w) msg
  | .sha1, msg => sha1Digest sha1Start msg
  | .sha256, msg => Radare.sha256.digest msg
  | .sha384, msg => Radare.sha384.digest msg
  | .sha512, msg => Radare.sha512.digest msg
  | _, _ => []

variable {crc16 crc32 entropy : List u8 → List u8} {data : List u8} {a : Algo}

/-! ## One block -/

theorem length_flatMap_words {α : Type*} {f : α → List u8} {k : ℕ} (hf : ∀ x, (f x).length = k)
    (l : List α) : (l.flatMap f).length = l.length * k := by
  induction l with
  | nil => rw [List.flatMap_nil, List.length_nil, List.length_nil, Nat.zero_mul]
  | cons x l ih =>
    rw [List.flatMap_cons, List.length_append, hf, ih, List.length_cons, Nat.succ_mul, Nat.add_comm]

theorem length_md5Encode (l : List (BitVec w)) : (md5Encode l).length = l.length * 4 :=
  length_flatMap_words (fun _ => length_bytesOf 4 _) l

theorem length_reversed (k : ℕ) (x : BitVec w) : (bytesOf k x.toNat).reverse.length = k := by
  rw [List.length_reverse, length_bytesOf]

theorem length_sha2Digest (p : Sha2Kind w) (hwords : p.digestWords ≤ 8) (msg : List u8) :
    (p.digest msg).length = p.digestWords * (w / 8) := by
  unfold Sha2Kind.digest
  rw [length_flatMap_words (length_reversed (w / 8)), List.length_take]
  congr 1
  exact Nat.min_eq_left hwords

/-- **The digests have the size of their algorithm.** -/
theorem length_messageDigest (ha : a.padded) (msg : List u8) :
    (a.messageDigest w msg).length = a.size := by
  cases a with
  | md4 => exact length_md5Encode _
  | md5 => exact length_md5Encode _
  | sha1 =>
    exact length_flatMap_words (length_reversed 4) _
  | sha256 => exact length_sha2Digest sha256 (by decide) msg
  | sha384 => exact length_sha2Digest sha384 (by decide) msg
  | sha512 => exact length_sha2Digest sha512 (by decide) msg
  | _ => cases ha

theorem digestArray_of_length {digest : List u8} (hlen : digest.length = a.size) :
    digestArray a digest = digest := by
  rw [digestArray, ← hlen, List.take_left]

/-- `MD5Update` and `MD5Final`, of a context without bits. -/
theorem md5_turn (crc16 crc32 entropy : List u8 → List u8) (hw : w = 32 ∨ w = 64)
    (context : Md5Ctx w) (hlen : data.length + 63 < 2 ^ 32)
    (hbuffer : context.buffer.length = 64) (h₀ : context.count0 = 0) (h₁ : context.count1 = 0) :
    (Vendored.real w crc16 crc32 entropy).hashes.turn .md5 (.md5 context) data =
      (md5Digest context.state data, .md5 (md5Zero w)) := by
  obtain ⟨context', hupdate, hfinal⟩ := md5_piece hw context data hlen hbuffer h₀ h₁
  have hdigest : RahashCtx.final .md5 (RahashCtx.update (.md5 context) data) =
      (md5Digest context.state data, .md5 (md5Zero w)) := by
    simp only [RahashCtx.update, RahashCtx.final, hupdate, Option.getD_some, hfinal]
  have hturn : (Vendored.real w crc16 crc32 entropy).hashes.turn .md5 (.md5 context) data =
      (digestArray .md5 (RahashCtx.final .md5 (RahashCtx.update (.md5 context) data)).1,
        (RahashCtx.final .md5 (RahashCtx.update (.md5 context) data)).2) := rfl
  have harray : digestArray .md5 (md5Digest context.state data) = md5Digest context.state data :=
    digestArray_of_length (length_md5Encode _)
  rw [hturn, hdigest]
  exact Prod.ext harray rfl

/-- **The digest of one block.** -/
theorem real_digest (hw : w = 32 ∨ w = 64) (ha : a.padded) (hlen : data.length + 63 < 2 ^ 32) :
    (Vendored.real w crc16 crc32 entropy).hashes.digest a data = a.messageDigest w data := by
  have hsize := digestArray_of_length (length_messageDigest (w := w) ha data)
  have hone : [data].flatten = data := by
    rw [List.flatten_cons, List.flatten_nil, List.append_nil]
  cases a with
  | md4 =>
    refine Eq.trans ?_ hsize
    exact congrArg (digestArray .md4) (mdfour_eq data)
  | md5 =>
    have hturn := md5_turn crc16 crc32 entropy hw (md5Init (md5Zero w)) hlen rfl rfl rfl
    exact congrArg Prod.fst hturn
  | sha1 =>
    refine Eq.trans ?_ hsize
    have hmsg := sha1_pieces [data]
    rw [hone] at hmsg
    have hdigest : ((sha1Final (sha1Update sha1Init data)).getD ([], sha1Init)).1 =
        sha1Digest sha1Start data := by
      have hrun : sha1Final (sha1Update sha1Init data) = _ := hmsg
      rw [hrun, Option.getD_some]
    exact congrArg (digestArray .sha1) hdigest
  | sha256 =>
    refine Eq.trans ?_ hsize
    have hmsg := sha2_pieces sha256 [data]
    rw [hone] at hmsg
    exact congrArg (digestArray .sha256) hmsg
  | sha384 =>
    refine Eq.trans ?_ hsize
    have hmsg := sha2_pieces sha384 [data]
    rw [hone] at hmsg
    exact congrArg (digestArray .sha384) hmsg
  | sha512 =>
    refine Eq.trans ?_ hsize
    have hmsg := sha2_pieces sha512 [data]
    rw [hone] at hmsg
    exact congrArg (digestArray .sha512) hmsg
  | _ => cases ha

/-! ## A file -/

variable {m : Machine} {src : List u8} {bs : ut64} {blocks : List (List u8)}

/-- Blocks behind the first with MD5, of a context that was cleared. -/
theorem md5_digests_cleared (crc16 crc32 entropy : List u8 → List u8) (hw : w = 32 ∨ w = 64)
    (hlen : ∀ block ∈ blocks, block.length + 63 < 2 ^ 32) :
    (Vendored.real w crc16 crc32 entropy).hashes.digests .md5 (.md5 (md5Zero w)) blocks =
      blocks.map (md5Digest (md5Zero w).state) := by
  induction blocks with
  | nil => rfl
  | cons block blocks ih =>
    have hturn := md5_turn crc16 crc32 entropy hw (md5Zero w) (hlen block List.mem_cons_self)
      rfl rfl rfl
    have hrest := ih fun b hb => hlen b (List.mem_cons_of_mem block hb)
    have hstep : (Vendored.real w crc16 crc32 entropy).hashes.digests .md5 (.md5 (md5Zero w))
        (block :: blocks) =
        ((Vendored.real w crc16 crc32 entropy).hashes.turn .md5 (.md5 (md5Zero w)) block).1 ::
          (Vendored.real w crc16 crc32 entropy).hashes.digests .md5
            ((Vendored.real w crc16 crc32 entropy).hashes.turn .md5 (.md5 (md5Zero w)) block).2
            blocks := rfl
    rw [hstep, hturn, List.map_cons, ← hrest]

/-- The digests that `rahash` has for the blocks of a file. -/
def Algo.blockDigests (w : ℕ) : Algo → List (List u8) → List (List u8)
  | .md5, first :: blocks =>
    md5Digest (md5Start w) first :: blocks.map (md5Digest (md5Zero w).state)
  | a, blocks => blocks.map (a.messageDigest w)

/-- The blocks are full, or the last one. -/
theorem length_mem_chunks {k count : ℕ} {block : List u8} (hmem : block ∈ chunksFrom k src 0 count) :
    block.length ≤ min k src.length := by
  obtain ⟨i, -, rfl⟩ := List.mem_map.mp hmem
  rw [length_chunk]
  omega

/-- **The digests of the blocks.** -/
theorem real_digests (hw : w = 32 ∨ w = 64) (ha : a.padded)
    (hcarry : a.carries → a = .md5 ∨ blocks.length ≤ 1)
    (hlen : ∀ block ∈ blocks, block.length + 63 < 2 ^ 32) :
    (Vendored.real w crc16 crc32 entropy).hashes.digests a (RahashCtx.init w a) blocks =
      a.blockDigests w blocks := by
  by_cases hmd5 : a = .md5
  · subst hmd5
    cases blocks with
    | nil => rfl
    | cons first blocks =>
      have hturn := md5_turn crc16 crc32 entropy hw (md5Init (md5Zero w))
        (hlen first List.mem_cons_self) rfl rfl rfl
      have hrest := md5_digests_cleared crc16 crc32 entropy hw
        fun b hb => hlen b (List.mem_cons_of_mem first hb)
      have hstep : (Vendored.real w crc16 crc32 entropy).hashes.digests .md5
          (RahashCtx.init w .md5) (first :: blocks) =
          ((Vendored.real w crc16 crc32 entropy).hashes.turn .md5
            (.md5 (md5Init (md5Zero w))) first).1 ::
            (Vendored.real w crc16 crc32 entropy).hashes.digests .md5
              ((Vendored.real w crc16 crc32 entropy).hashes.turn .md5
                (.md5 (md5Init (md5Zero w))) first).2 blocks := rfl
      rw [hstep, hturn, hrest]
      rfl
  · -- the context is fresh for each block, or there is only one
    have hinit : (Vendored.real w crc16 crc32 entropy).hashes.digests a (RahashCtx.init w a)
        blocks = blocks.map ((Vendored.real w crc16 crc32 entropy).hashes.digest a) :=
      digests_init fun hc => (hcarry hc).resolve_left hmd5
    have hmap : a.blockDigests w blocks = blocks.map (a.messageDigest w) := by
      cases a <;> first | rfl | exact absurd rfl hmd5
    rw [hinit, hmap]
    exact List.map_congr_left fun block hmem => real_digest hw ha (hlen block hmem)

/-- **The digests of a file**, of which one read gives a block. Its blocks have
their own, but with MD5 only the first one has, and with SHA-2 there is to be
only one. -/
theorem digests_file (hw : w = 32 ∨ w = 64) (m : Machine) (fresh : ℕ → u8) (name : List u8)
    (crc16 crc32 entropy : List u8 → List u8) (ha : a.padded)
    (hcarry : a.carries → a = .md5 ∨ src.length ≤ bs.toNat) (hpos : 0 < src.length)
    (hlt : src.length < 2 ^ 32) (hne : bs.toNat ≠ 0) (hbs : bs.toNat < 2 ^ 32)
    (hfits : min bs.toNat src.length ≤ 0x7ffff000) :
    ∃ g, radareHashGenerate (Vendored.real w crc16 crc32 entropy).hashes m fresh
        (RahashCtx.init w a) (mainHeader m a 0 0 0 bs) src name true = some g ∧
      g.ret = 0 ∧ g.digests =
        a.blockDigests w (chunksFrom bs.toNat src 0 (chunkCount bs.toNat src.length)) := by
  obtain ⟨g, hg, hret, -, hdigests⟩ := generate_digests
    (H := (Vendored.real w crc16 crc32 entropy).hashes) (m := m) (a := a) name fresh
    (RahashCtx.init w a) hpos hlt hne hbs (by omega)
  refine ⟨g, hg, hret, hdigests.trans (real_digests hw ha ?_ ?_)⟩
  · refine fun hc => (hcarry hc).imp_right fun hle => ?_
    rw [chunkCount_eq_one hpos hle]
    exact Nat.le_refl 1
  · intro block hmem
    have := length_mem_chunks hmem
    omega

/-- Two blocks of two bytes. -/
theorem digests_file_md5 : ∃ g,
    radareHashGenerate (Vendored.real 32 id id id).hashes ilp32 (fun _ => 0)
        (RahashCtx.init 32 .md5) (mainHeader ilp32 .md5 0 0 0 2) [1, 2, 3, 4] [] true = some g ∧
      g.ret = 0 ∧ g.digests = Algo.blockDigests 32 .md5 (chunksFrom 2 [1, 2, 3, 4] 0 2) :=
  digests_file (Or.inl rfl) ilp32 (fun _ => 0) [] id id id rfl (fun _ => Or.inl rfl)
    (by decide) (by decide) (by decide) (by decide) (by decide)

end Radare
