import Radare.Common.Duplex
import Radare.Model.Bytes
/-!
# The remote protocol

A client sends a request over a connection and reads a reply, and the loop
of `remote_handle_client` reads requests and sends replies. Each of the
requests has a layout of its own, in both places. What a request makes the
server do is a matter of the server (`ServerEnv`).

Memory is not modelled, but where bytes are written behind it: there a
party has no further behaviour. Such a byte is also the NUL that the server puts
behind a command and behind its output; whether it is of something else there depends
on `malloc` (`ServerEnv.spare`).
-/

namespace Radare

open Common

/-! ## Numbers as bytes -/

/-- How a side orders bytes. -/
structure Order where
  /-- The machine has the lowest byte first. -/
  lowFirst : Bool
  /-- `cfg.bigendian`. -/
  bigendian : Bool

/-- `endian_memcpy`, to or from the bytes in memory. -/
def endianMemcpy (o : Order) (orig : List u8) : List u8 := if o.bigendian then orig else orig.reverse

/-- A number of so many bytes, copied out of its variable. -/
def encode (o : Order) (k n : ℕ) : List u8 :=
  endianMemcpy o (if o.lowFirst then bytesOf k n else (bytesOf k n).reverse)

/-- A number, copied into its variable. -/
def decode (o : Order) (buf : List u8) : ℕ :=
  let mem := endianMemcpy o buf
  ofBytes (if o.lowFirst then mem else mem.reverse)

/-- An `int` of four bytes. -/
def toInt (n : ℕ) : ℤ := (n : ℤ).bmod (2 ^ 32)

def rmtOpen : u8 := 0x01
def rmtRead : u8 := 0x02
def rmtWrite : u8 := 0x03
def rmtSeek : u8 := 0x04
def rmtClose : u8 := 0x05
def rmtSystem : u8 := 0x06
def rmtCmd : u8 := 0x07
def rmtReply : u8 := 0x80

/-! ## The client -/

/-- A command that fits the buffer of `remote_system`. -/
structure RemoteCommand where
  text : List u8
  nul : 0 ∉ text
  fits : text.length ≤ 1019

/-- The calls. -/
inductive RemoteCall where
  | read (count : ℕ)
  | write (buf : List u8)
  | lseek (offset : ut64) (whence : u8)
  | system (command : RemoteCommand)

/-- What `remote_read` sends. -/
def readRequest (o : Order) (count : ℕ) : List u8 := rmtRead :: encode o 4 count

/-- What `remote_write` sends: `size + 5` bytes, where `size` is an
`unsigned int`. -/
def writeRequest (o : Order) (buf : List u8) : List u8 :=
  let size := buf.length % 2 ^ 32
  (rmtWrite :: encode o 4 size ++ buf.take size).take ((size + 5) % 2 ^ 32)

/-- What `remote_lseek` sends. -/
def lseekRequest (o : Order) (offset : ut64) (whence : u8) : List u8 :=
  rmtSeek :: whence :: encode o 8 offset.toNat

/-- What `remote_system` sends. -/
def systemRequest (o : Order) (command : List u8) : List u8 :=
  rmtSystem :: encode o 4 command.length ++ command

/-- What `remote_read` reads, into a buffer of `count` bytes. -/
def readReply (o : Order) (count : ℕ) : Talk u8 :=
  .recv 5 fun tmp =>
    if tmp.head? ≠ some (rmtRead ||| rmtReply) then .done
    else
      let i := toInt (decode o tmp.tail)
      if 0 ≤ i ∧ i ≤ count then .recv i.toNat fun _ => .done else .stop

/-- What `remote_system` reads, into a buffer of its own. -/
def systemReply (o : Order) : Talk u8 :=
  .recv 5 fun buf =>
    if buf.head? ≠ some (rmtSystem ||| rmtReply) then .done
    else
      let i := toInt (decode o buf.tail)
      if i = -1 then .done
      else if 0 ≤ i then .recv i.toNat fun _ => .done
      else .stop

/-- The call has a message; a command that begins with `!` is not sent. -/
def RemoteCall.sends : RemoteCall → Bool
  | .system command => command.text.head? ≠ some 33
  | _ => true

/-- `remote_read`, `remote_write`, `remote_lseek` and `remote_system`. -/
def RemoteCall.talk (o : Order) : RemoteCall → Talk u8
  | .read count => .send (readRequest o count) (readReply o count)
  | .write buf => .send (writeRequest o buf) (.recv 5 fun _ => .done)
  | .lseek offset whence => .send (lseekRequest o offset whence) (.recv 9 fun _ => .done)
  | .system command => .send (systemRequest o command.text) (systemReply o)

/-! ## The server -/

/-- What a request finds at the server. -/
structure ServerEnv where
  /-- `config.block`, of `config.block_size` bytes, as `radare_read` leaves it. -/
  block : List u8
  block_fits : block.length < 2 ^ 31
  /-- The variable `x`. -/
  x : ut64
  ioLseek : ut64 → u8 → ut64
  /-- What a command prints to the temporary file. -/
  tmpfile : List u8 → List u8
  tmpfile_fits : ∀ command, (tmpfile command).length < 2 ^ 31
  /-- The byte behind a block of so many bytes is of nothing else. -/
  spare : ℕ → Bool
  radareOpen : u8 → List u8 → ℕ
  radareCmdStr : List u8 → List u8
  close : ℕ → ℕ

/-- `RMT_OPEN`. -/
def handleOpen (o : Order) (env : ServerEnv) : Talk u8 :=
  .get fun flg => .get fun len => .recv len.toNat fun name =>
    .send ((rmtOpen ||| rmtReply) :: encode o 4 (env.radareOpen flg name)) .done

/-- `RMT_READ`. The block is copied into `block_size + i + 5` bytes, which is an
`int`, behind the five of the header. -/
def handleRead (o : Order) (env : ServerEnv) : Talk u8 :=
  .recv 4 fun buf =>
    let i := toInt (decode o buf)
    if i < 0 ∨ 2 ^ 31 ≤ env.block.length + i + 5 then .stop
    else
      let i := if i > env.block.length then (env.block.length : ℤ) else i
      .send ((rmtRead ||| rmtReply) :: encode o 4 i.toNat ++ env.block.take i.toNat) .done

/-- `RMT_CMD`. -/
def handleCmd (o : Order) (env : ServerEnv) : Talk u8 :=
  .recv 4 fun bufr =>
    let i := toInt (decode o bufr)
    if i < 1 then .done
    else .recv i.toNat fun cmd =>
      if env.spare i.toNat = false then .stop
      else
        let output := env.radareCmdStr cmd
        .send ((rmtCmd ||| rmtReply) :: encode o 4 output.length ++ output) .done

/-- `RMT_WRITE`. Four bytes are copied into the eight of `x`. -/
def handleWrite (o : Order) (env : ServerEnv) : Talk u8 :=
  .recv 5 fun buf =>
    let size := decode o buf.tail
    let x := if o.lowFirst then env.x.toNat / 2 ^ 32 * 2 ^ 32 + size
      else size * 2 ^ 32 + env.x.toNat % 2 ^ 32
    .recv x fun _ => .done

/-- `RMT_SEEK`. -/
def handleSeek (o : Order) (env : ServerEnv) : Talk u8 :=
  .get fun whence => .recv 8 fun buf =>
    let seek := env.ioLseek (UInt64.ofNat (decode o buf)) whence
    let x := UInt64.ofInt (toInt seek.toNat)
    .send ((rmtSeek ||| rmtReply) :: encode o 8 x.toNat) .done

/-- `RMT_CLOSE`. -/
def handleClose (o : Order) (env : ServerEnv) : Talk u8 :=
  .recv 4 fun buf =>
    .send ((rmtClose ||| rmtReply) :: encode o 4 (env.close (decode o buf))) .done

/-- There is room for a command and its output, each with a NUL, where one byte less is
asked for, in an `int`. -/
def ServerEnv.Fits (env : ServerEnv) (size : ℕ) (output : List u8) : Prop :=
  env.spare (size + 6) = true ∧ output.length + 5 < 2 ^ 31 ∧ env.spare (output.length + 5) = true

instance ServerEnv.decidableFits (env : ServerEnv) (size : ℕ) (output : List u8) :
    Decidable (env.Fits size output) :=
  inferInstanceAs (Decidable (_ ∧ _ ∧ _))

/-- `RMT_SYSTEM`. -/
def handleSystem (o : Order) (env : ServerEnv) : Talk u8 :=
  .recv 4 fun buf =>
    let i := toInt (decode o buf)
    if i < 0 ∨ 2 ^ 31 ≤ i + 6 then .stop
    else .recv i.toNat fun command =>
      let output := env.tmpfile command
      if env.Fits i.toNat output then
        .send ((rmtSystem ||| rmtReply) :: encode o 4 output.length ++ output) .done
      else .stop

/-- A turn of the loop of `remote_handle_client`. -/
def remoteHandleClient (o : Order) (env : ServerEnv) : Talk u8 :=
  .get fun cmd =>
    if cmd = rmtOpen then handleOpen o env
    else if cmd = rmtRead then handleRead o env
    else if cmd = rmtCmd then handleCmd o env
    else if cmd = rmtWrite then handleWrite o env
    else if cmd = rmtSeek then handleSeek o env
    else if cmd = rmtClose then handleClose o env
    else if cmd = rmtSystem then handleSystem o env
    else .stop

/-! ## Both -/

/-- A connection: how both sides order bytes, what each request finds at
the server, and the calls of the client. -/
structure Rap where
  client : Order
  server : Order
  env : ℕ → ServerEnv
  calls : List RemoteCall

/-- The calls that have a message. -/
def Rap.messages (rap : Rap) : List RemoteCall := rap.calls.filter (·.sends)

def Rap.clientScript (rap : Rap) (k : ℕ) : Option (Talk u8) :=
  rap.messages[k]?.map (·.talk rap.client)

def Rap.serverScript (rap : Rap) (k : ℕ) : Option (Talk u8) :=
  some (remoteHandleClient rap.server (rap.env k))

end Radare
