import Radare.Model.Bytes
import Radare.Rio.Model
/-!
# Hashes of files

`rahash` computes a digest of every block of a file, or of a range of it,
and keeps them in a file behind a header. The header is a struct, written as
it lies in memory, its numbers turned by `htonl` before.

The functions of the algorithms are left to `Hashes`; those of `hash.c` are
in it as they are (`Vendored.hashes`). Files are regular ones. Where bytes
are read or written beside the memory there is for them, there is no result.
-/

namespace Radare

/-- The algorithms, in the order of their table. -/
inductive Algo where
  | md4
  | md5
  | crc16
  | crc32
  | sha1
  | sha256
  | sha384
  | sha512
  | par
  | xor
  | xorpair
  | hamdist
  | entropy
  | mod255
deriving DecidableEq

/-- `algo_size`. -/
def Algo.size : Algo → ℕ
  | .md4 | .md5 => 16
  | .crc16 => 2
  | .crc32 | .xorpair | .entropy => 4
  | .sha1 => 20
  | .sha256 => 32
  | .sha384 => 48
  | .sha512 => 64
  | .par | .xor | .hamdist | .mod255 => 1

/-- The algorithm has a context, which `main` initialises. -/
def Algo.hasContext : Algo → Bool
  | .md5 | .sha1 | .sha256 | .sha384 | .sha512 => true
  | _ => false

/-- What the algorithms compute. -/
structure Hashes where
  /-- The digest of the algorithms without a context. -/
  sum : Algo → List u8 → List u8
  Ctx : Type
  init : Algo → Ctx
  update : Algo → Ctx → List u8 → Ctx
  /-- The digest, and the context it leaves. -/
  final : Algo → Ctx → List u8 × Ctx
  /-- `SHA1_Final` initialises the context again. -/
  sha1_final : ∀ c, (final .sha1 c).2 = init .sha1

/-- `digest`, of which the size of the algorithm is set to 0 at first. -/
def digestArray (a : Algo) (digest : List u8) : List u8 :=
  (digest ++ List.replicate a.size 0).take a.size

/-- One case of the switch: the digest of some bytes, and the context
behind. -/
def Hashes.turn (H : Hashes) (a : Algo) (ctx : H.Ctx) (data : List u8) : List u8 × H.Ctx :=
  if a.hasContext then
    let (digest, ctx) := H.final a (H.update a ctx data)
    (digestArray a digest, ctx)
  else (digestArray a (H.sum a data), ctx)

/-- The digest of some bytes. -/
def Hashes.digest (H : Hashes) (a : Algo) (data : List u8) : List u8 :=
  (H.turn a (H.init a) data).1

/-! ## `hash.c` and `hamdist.c` -/

/-- The bits of a byte that are set. -/
def ones (c : u8) : ℕ := (List.range 8).countP fun i => c.toNat.testBit i

def hashPar (buffer : List u8) : u8 := UInt8.ofNat ((buffer.map ones).sum % 2)

def hashXor (b : List u8) : u8 := b.foldl (· ^^^ ·) 0

/-- The two bytes of the result, as they lie in memory. -/
def hashXorpair : List u8 → u8 × u8
  | a :: b :: rest =>
    let (x, y) := hashXorpair rest
    (a ^^^ x, b ^^^ y)
  | _ => (0, 0)

def hashMod255 (b : List u8) : u8 := UInt8.ofNat ((b.map UInt8.toNat).sum % 255)

/-- `hamdist`, of an `int` and a `char`. -/
def hamdist (x : ℕ) (y : u8) : ℕ :=
  let y : ℕ := if y < 128 then y.toNat else 2 ^ 32 - 256 + y.toNat
  (List.range 32).countP fun i => (x ^^^ y).testBit i

def hashHamdist (buf : List u8) : u8 := UInt8.ofNat (buf.foldl hamdist 0)

/-- The functions from elsewhere. -/
structure Vendored where
  mdfour : List u8 → List u8
  /-- In network order. -/
  crc16 : List u8 → List u8
  crc32 : List u8 → List u8
  /-- As it is printed. -/
  entropy : List u8 → List u8
  Ctx : Type
  init : Algo → Ctx
  update : Algo → Ctx → List u8 → Ctx
  final : Algo → Ctx → List u8 × Ctx
  sha1_final : ∀ c, (final .sha1 c).2 = init .sha1

/-- The algorithms of `rahash`. -/
def Vendored.hashes (V : Vendored) : Hashes where
  sum
    | .par, data => [hashPar data]
    | .xor, data => [hashXor data]
    | .xorpair, data => [(hashXorpair data).1, (hashXorpair data).2]
    | .hamdist, data => [hashHamdist data]
    | .mod255, data => [hashMod255 data]
    | .md4, data => V.mdfour data
    | .crc16, data => V.crc16 data
    | .crc32, data => V.crc32 data
    | .entropy, data => V.entropy data
    | _, _ => []
  Ctx := V.Ctx
  init := V.init
  update := V.update
  final := V.final
  sha1_final := V.sha1_final

/-! ## The header -/

/-- The machine the program runs on. -/
structure Machine where
  bigEndian : Bool
  /-- In a struct, 8 bytes are at a multiple of 8, and not of 4. -/
  aligned : Bool
  /-- The bytes of a pointer. -/
  pointer : ℕ
  pointer_le : pointer ≤ 8

/-- `struct header_t`. -/
structure Header where
  magic : List u8
  headerSize : ut64
  version : u8
  offsz : u8
  endian : Bool
  fileSize : ut64
  from_ : ut64
  to_ : ut64
  length : ut64
  algorithm : Algo
  blockSize : ut64
  fileName : List u8
deriving DecidableEq

/-- `MAGIC`. -/
def magic : List u8 := [82, 35, 2, 0]

/-- `sizeof(struct header_t)`. -/
def Machine.headerSize (m : Machine) : ut64 := if m.aligned then 200 else 188

/-- `htonl` and `ntohl`, of a number that is first made one of 32 bits. -/
def htonl (m : Machine) (x : ut64) : ut64 :=
  let bytes := bytesOf 4 x.toNat
  UInt64.ofNat (ofBytes (if m.bigEndian then bytes else bytes.reverse))

/-- `endian_header` and `unendian_header`. -/
def endianHeader (m : Machine) (h : Header) : Header :=
  { h with
    headerSize := htonl m h.headerSize
    fileSize := htonl m h.fileSize
    from_ := htonl m h.from_
    to_ := htonl m h.to_
    length := htonl m h.length
    blockSize := htonl m h.blockSize }

/-- The header as `main` has it, with the options. -/
def mainHeader (m : Machine) (a : Algo) (from_ to_ length blockSize : ut64) : Header where
  magic := magic
  headerSize := 0
  version := 1
  offsz := 8
  endian := m.bigEndian
  fileSize := 0
  from_ := from_
  to_ := to_
  length := length
  algorithm := a
  blockSize := blockSize
  fileName := []

/-- A file of digests. -/
structure HashFile where
  header : Header
  digests : List u8

/-! ## `radare_hash_generate` -/

/-- The header for a file of a size: the range is cut to the file; `none`
where there is no such range. -/
def hashRange (m : Machine) (h : Header) (fileSize : ut64) : Option Header :=
  let h : Header := { h with headerSize := m.headerSize, fileSize := fileSize }
  let h : Header := if h.length ≠ 0 then { h with to_ := h.from_ + h.length } else h
  -- `Initial seek out of range.`
  if h.from_ ≠ 0 ∧ h.from_ > h.fileSize then none
  else
    -- the length too far and any other come to the same
    let h : Header := { h with length := h.fileSize - h.from_ }
    let h : Header := if h.to_ ≠ 0 then
        let h : Header := if h.to_ > h.fileSize then { h with to_ := h.fileSize } else h
        { h with length := h.to_ - h.from_ }
      else { h with to_ := h.fileSize }
    -- `Initial seek cannot be greater than end.`
    if h.from_ ≠ 0 ∧ h.from_ ≥ h.to_ then none
    else some (if h.fileSize = 0 then { h with fileSize := -1 } else h)

/-- A number of bytes that is negative as an `int`. -/
def negativeInt (n : ℕ) : Bool := 2 ^ 31 ≤ n % 2 ^ 32

/-- The loop over the blocks, at most `fuel` turns of it, with what is not
read yet: the digests, and whether all could be read. -/
def generateLoop (H : Hashes) (h : Header) :
    ℕ → ut64 → List u8 → List u8 → H.Ctx → Option (List (List u8) × Bool)
  | 0, _, _, _, _ => none
  | fuel + 1, ptr, rest, buffer, ctx =>
    if h.fileSize ≠ -1 ∧ h.to_ ≤ ptr then some ([], true)
    else
      let data := rest.take h.blockSize.toNat
      if data = [] then some ([], true)
      -- `Unexpected error reading from the source file.`
      else if negativeInt data.length then some ([], false)
      else
        let len := if h.length ≠ -1 ∧ h.blockSize > h.length then h.length.toNat else data.length
        let buffer := overlay buffer data
        if h.from_.toNat + len ≤ buffer.length then
          let (digest, ctx) := H.turn h.algorithm ctx ((buffer.drop h.from_.toNat).take len)
          (generateLoop H h fuel (ptr + h.blockSize) (rest.drop h.blockSize.toNat) buffer ctx).map
            fun (digests, ok) => (digest :: digests, ok)
        else none

/-- What `radare_hash_generate` leaves: the header, the digests and the
value returned. -/
structure Generated where
  header : Header
  digests : List (List u8)
  ret : ℕ

/-- `radare_hash_generate`, of a file with a name. With a file to write to
it goes on with the header that it wrote, turned back. Every turn reads
on, so one for each byte is enough, and one more. -/
def radareHashGenerate (H : Hashes) (m : Machine) (fresh : ℕ → u8) (ctx : H.Ctx) (h : Header)
    (src : List u8) (name : List u8) (dst : Bool) : Option Generated :=
  match hashRange m h (UInt64.ofNat src.length) with
  | none => some ⟨h, [], 1⟩
  | some h =>
    let h := { h with fileName := name.take 128 }
    -- `print_header` divides by it
    if h.blockSize = 0 then none
    else
      let h' := if dst then endianHeader m (endianHeader m h) else h
      let buffer := malloc fresh h'.blockSize.toNat
      (generateLoop H h' (src.length + 1) h'.from_ src buffer ctx).map fun (digests, ok) =>
        ⟨h, digests, if ok then 0 else 1⟩

/-- What is written of a digest: that of `entropy` is printed alone. -/
def writtenDigest (a : Algo) (digest : List u8) : List u8 :=
  if a = .entropy then List.replicate a.size 0 else digest

/-- The file written. -/
def Generated.file (m : Machine) (g : Generated) : HashFile where
  header := endianHeader m g.header
  digests := g.digests.flatMap (writtenDigest g.header.algorithm)

/-! ## `radare_hash_check` -/

/-- What `hsize` is read as, which is the first four of the bytes read, from behind
the magic. -/
def readHsize (m : Machine) (h : Header) : ut64 :=
  let size := bytesOf 8 h.headerSize.toNat
  let size := if m.bigEndian then size.reverse else size
  -- what is between the fields was never written
  let bytes := ((if m.aligned then List.replicate 4 0 else []) ++ size).take 4
  htonl m (UInt64.ofNat (ofBytes (if m.bigEndian then bytes.reverse else bytes)))

/-- How many of the bytes in the block are read for a digest. -/
def Algo.reads (a : Algo) (len : ℕ) : ℕ := if a = .xorpair then len / 2 * 2 else len

/-- The algorithms of the check. -/
def Algo.checked : Algo → Bool
  | .md5 | .sha1 | .par | .xor | .xorpair | .crc16 | .crc32 => true
  | _ => false

/-- The switch of the check. The block was read over `buffer` itself, the
variable: `md5` and `sha1` take it from there, the others from where
the bytes point to, unless they need none. -/
def checkTurn (H : Hashes) (a : Algo) (ctx : H.Ctx) (digest data : List u8) :
    Option (List u8 × H.Ctx) :=
  match a with
  | .md5 | .sha1 => some (H.turn a ctx data)
  | .par | .xor | .xorpair | .crc16 | .crc32 =>
    if a.reads data.length = 0 then some (H.turn a ctx []) else none
  -- `Unimplemented`
  | _ => some (digest, ctx)

/-- The loop over the blocks: where the digests differ. -/
def checkLoop (H : Hashes) (m : Machine) (h : Header) :
    ℕ → ut64 → List u8 → List u8 → List u8 → List u8 → H.Ctx → Option (List ut64)
  | 0, _, _, _, _, _, _ => none
  | fuel + 1, ptr, rest, digests, digest, hashed, ctx =>
    if h.fileSize ≠ -1 ∧ h.fileSize ≤ ptr then some []
    else
      let size := h.algorithm.size
      let hashed := overlay hashed (digests.take size)
      let data := rest.take h.blockSize.toNat
      if data.length > m.pointer then none
      else do
        let (digest, ctx) ← checkTurn H h.algorithm ctx digest data
        let differ := if digest.take size = hashed.take size then [] else [ptr]
        if UInt64.ofNat data.length < h.blockSize then return differ
        let rest ← checkLoop H m h fuel (ptr + h.blockSize) (rest.drop h.blockSize.toNat)
          (digests.drop size) digest hashed ctx
        return differ ++ rest

/-- How a check ends. -/
inductive Checked where
  /-- `Invalid MAGIC signature.` -/
  | invalid
  /-- `Incompatible header size.` -/
  | incompatible
  | done (header : Header) (mismatches : List ut64)
deriving DecidableEq

/-- `radare_hash_check`, of a file and a file of digests. `digest_hashed`
is not initialised. The read into `hsize` stores eight bytes in four: if what is
behind it on the stack is not `spare`, but of something that is used again, there is
no result. -/
def radareHashCheck (H : Hashes) (m : Machine) (spare : Bool) (ctx : H.Ctx) (hashed : List u8)
    (src : List u8) (dst : HashFile) : Option Checked :=
  if dst.header.magic ≠ magic then some .invalid
  else if spare = false then none
  else if readHsize m dst.header ≠ m.headerSize then some .incompatible
  else
    let h := endianHeader m dst.header
    if h.blockSize = 0 then none
    else
      (checkLoop H m h (src.length + 2) 0 src dst.digests (List.replicate h.algorithm.size 0) hashed
        ctx).map (.done h)

end Radare
