import Radare.Remote.Model
/-!
# The framing of the protocol

Both sides know the layout of each request and of each reply, but for
`RMT_WRITE`: the server reads one byte more than the client writes in front
of the data, takes the length from the wrong bytes, and sends no reply,
which the client waits for. So client and server are in step exactly as
long as nothing is written, each length is the same number on both sides, and the
server has the memory that it writes to (`framing_iff`).
-/

namespace Radare

open Common

variable {o c s : Order} {env : ServerEnv} {k n : ℕ} {rap : Rap} {call : RemoteCall}
variable {bs xs ys : List u8} {t t' : Talk u8}

/-! ## Numbers as bytes -/

@[simp] theorem length_encode (o : Order) (k n : ℕ) : (encode o k n).length = k := by
  unfold encode endianMemcpy
  cases o.lowFirst <;> cases o.bigendian <;> simp [length_bytesOf]

/-- **A number is the same in the same order.** -/
theorem decode_encode (o : Order) (k n : ℕ) : decode o (encode o k n) = n % 256 ^ k := by
  rw [← ofBytes_bytesOf]
  unfold decode encode endianMemcpy
  cases o.lowFirst <;> cases o.bigendian <;> simp

theorem toInt_of_lt (h : n < 2 ^ 31) : toInt n = n := Int.bmod_eq_of_le (by omega) (by omega)

/-- The `int` that the other side takes a number for. -/
def crossed (c s : Order) (n : ℕ) : ℤ := toInt (decode s (encode c 4 n))

theorem crossed_self (h : n < 2 ^ 31) : crossed o o n = n := by
  unfold crossed
  rw [decode_encode, Nat.mod_eq_of_lt (by omega), toInt_of_lt h]

/-! ## When a call is in step -/

/-- How many bytes `RMT_READ` sends back. -/
def ServerEnv.readSize (env : ServerEnv) (i : ℤ) : ℤ :=
  if i > env.block.length then env.block.length else i

/-- **A call whose request and reply are read as they were written**: no
data is written, and each length is the same number on the other side, or
for a read at least one that is there to be sent and fits the buffer; and the server
does not write behind its memory. -/
def RemoteCall.Framed (c s : Order) (env : ServerEnv) : RemoteCall → Prop
  | .read count =>
    let size := env.readSize (crossed c s count)
    (0 ≤ crossed c s count ∧ env.block.length + crossed c s count + 5 < 2 ^ 31) ∧
      crossed s c size.toNat = size ∧ size ≤ count
  | .write _ => False
  | .lseek _ _ => True
  | .system command =>
    crossed c s command.text.length = command.text.length ∧
      env.Fits command.text.length (env.tmpfile command.text) ∧
      crossed s c (env.tmpfile command.text).length = (env.tmpfile command.text).length

/-- With one order of bytes on both sides, all calls are but writes, and
those that the server has no memory for. -/
theorem framed_of_same_order
    (hread : ∀ count, call = .read count → env.block.length + count + 5 < 2 ^ 31)
    (hsystem : ∀ command, call = .system command →
      env.Fits command.text.length (env.tmpfile command.text))
    (hwrite : ∀ buf, call ≠ .write buf) : call.Framed o o env := by
  have hblock := env.block_fits
  cases call with
  | read count =>
    have hcount := hread count rfl
    have hsize : env.readSize count = (min count env.block.length : ℕ) := by
      unfold ServerEnv.readSize
      split_ifs <;> omega
    unfold RemoteCall.Framed
    dsimp only
    rw [crossed_self (by omega), hsize, Int.toNat_natCast, crossed_self (by omega)]
    exact ⟨⟨by omega, by omega⟩, rfl, by omega⟩
  | write buf => exact absurd rfl (hwrite buf)
  | lseek offset whence => exact trivial
  | system command =>
    have hfits := command.fits
    have htmpfile := env.tmpfile_fits command.text
    exact ⟨crossed_self (by omega), hsystem command rfl, crossed_self htmpfile⟩

/-! ## What each side does with what it gets -/

theorem feed_recv_append {next : List u8 → Talk u8} (hn : xs.length = n) :
    (Talk.recv n next).feed (xs ++ ys) = (next xs).feed ys := by
  subst hn
  exact feed_append (feed_recv next)

theorem feed_recv_self {next : List u8 → Talk u8} (hn : xs.length = n) :
    (Talk.recv n next).feed xs = some (next xs) := by
  subst hn
  exact feed_recv next

/-- A header of five bytes. -/
theorem feed_header {next : List u8 → Talk u8} {cmd : u8} :
    (Talk.recv 5 next).feed (cmd :: encode o 4 n ++ ys) = (next (cmd :: encode o 4 n)).feed ys :=
  feed_recv_append (by rw [List.length_cons, length_encode])

/-- The header of a reply. -/
def replyHeader (s : Order) (cmd : u8) (size : ℕ) : List u8 := (cmd ||| rmtReply) :: encode s 4 size

/-- The reply of `RMT_READ`. -/
def readAnswer (s : Order) (env : ServerEnv) (size : ℤ) : List u8 :=
  replyHeader s rmtRead size.toNat ++ env.block.take size.toNat

/-- The reply of `RMT_SYSTEM`. -/
def systemAnswer (s : Order) (output : List u8) : List u8 :=
  replyHeader s rmtSystem output.length ++ output

theorem serve_read (c s : Order) (env : ServerEnv) (count : ℕ) :
    (remoteHandleClient s env).feed (readRequest c count) =
      some (if crossed c s count < 0 ∨ 2 ^ 31 ≤ env.block.length + crossed c s count + 5 then .stop
        else .send (readAnswer s env (env.readSize (crossed c s count))) .done) :=
  feed_recv_self (length_encode c 4 count)

theorem serve_seek (c s : Order) (env : ServerEnv) (offset : ut64) (whence : u8) :
    ∃ x, (remoteHandleClient s env).feed (lseekRequest c offset whence) =
      some (.send ((rmtSeek ||| rmtReply) :: encode s 8 x) .done) :=
  ⟨_, feed_recv_self (length_encode c 8 offset.toNat)⟩

theorem serve_system (c s : Order) (env : ServerEnv) (len : ℕ) (bs : List u8) :
    (remoteHandleClient s env).feed (rmtSystem :: encode c 4 len ++ bs) =
      (if crossed c s len < 0 ∨ 2 ^ 31 ≤ crossed c s len + 6 then Talk.stop
        else .recv (crossed c s len).toNat fun command =>
          if env.Fits (crossed c s len).toNat (env.tmpfile command) then
            .send (systemAnswer s (env.tmpfile command)) .done
          else .stop).feed bs :=
  feed_recv_append (length_encode c 4 len)

/-- What the client does with the reply of `RMT_READ`. -/
theorem hear_read (c s : Order) (count size : ℕ) (bs : List u8) :
    (readReply c count).feed (replyHeader s rmtRead size ++ bs) =
      (if 0 ≤ crossed s c size ∧ crossed s c size ≤ count then
        Talk.recv (crossed s c size).toNat fun _ => .done else .stop).feed bs := by
  unfold readReply replyHeader crossed
  rw [feed_header, List.head?_cons, if_neg (not_not_intro rfl), List.tail_cons]

theorem hear_system (c s : Order) (size : ℕ) (bs : List u8) :
    (systemReply c).feed (replyHeader s rmtSystem size ++ bs) =
      (if crossed s c size = -1 then Talk.done
        else if 0 ≤ crossed s c size then .recv (crossed s c size).toNat fun _ => .done
        else .stop).feed bs := by
  unfold systemReply replyHeader crossed
  rw [feed_header, List.head?_cons, if_neg (not_not_intro rfl), List.tail_cons]

/-! ## Calls that are in step -/

theorem clientScript_eq (h : rap.messages[k]? = some call) :
    rap.clientScript k = some (call.talk rap.client) := by
  unfold Rap.clientScript
  rw [h, Option.map_some]

theorem length_readAnswer {size : ℤ} (hle : size ≤ env.block.length) :
    (env.block.take size.toNat).length = size.toNat := by
  rw [List.length_take]
  omega

theorem readSize_le (i : ℤ) : env.readSize i ≤ env.block.length := by
  unfold ServerEnv.readSize
  split_ifs <;> omega

theorem readSize_nonneg (env : ServerEnv) {i : ℤ} (h : 0 ≤ i) : 0 ≤ env.readSize i := by
  unfold ServerEnv.readSize
  split_ifs <;> omega

/-- **A call that is in step** is a question and its answer. -/
theorem answers_of_framed (hcall : rap.messages[k]? = some call)
    (h : call.Framed rap.client rap.server (rap.env k)) :
    ∃ req rep, Answers rap.clientScript rap.serverScript k req rep := by
  have hl := clientScript_eq hcall
  cases call with
  | read count =>
    obtain ⟨⟨hpos, hroom⟩, hsize, hle⟩ := h
    have hnonneg := readSize_nonneg (rap.env k) hpos
    refine ⟨readRequest rap.client count,
      readAnswer rap.server (rap.env k) ((rap.env k).readSize (crossed rap.client rap.server count)),
      ⟨_, hl, ?_⟩, ⟨_, rfl, ?_⟩, List.cons_ne_nil _ _, List.cons_ne_nil _ _⟩
    · unfold readAnswer
      rw [hear_read, hsize, if_pos ⟨hnonneg, hle⟩]
      exact feed_recv_self (length_readAnswer (readSize_le _))
    · rw [serve_read, if_neg (by omega)]
  | write buf => exact absurd h not_false
  | lseek offset whence =>
    obtain ⟨x, hx⟩ := serve_seek rap.client rap.server (rap.env k) offset whence
    refine ⟨_, _, ⟨_, hl, ?_⟩, ⟨_, rfl, hx⟩, List.cons_ne_nil _ _, List.cons_ne_nil _ _⟩
    exact feed_recv_self (by rw [List.length_cons, length_encode])
  | system command =>
    obtain ⟨hlen, hfits, hout⟩ := h
    have hshort := command.fits
    refine ⟨systemRequest rap.client command.text,
      systemAnswer rap.server ((rap.env k).tmpfile command.text),
      ⟨_, hl, ?_⟩, ⟨_, rfl, ?_⟩, List.cons_ne_nil _ _, List.cons_ne_nil _ _⟩
    · unfold systemAnswer
      rw [hear_system, hout, if_neg (by omega), if_pos (by omega)]
      exact feed_recv_self (Int.toNat_natCast _).symm
    · unfold systemRequest
      rw [serve_system, hlen, if_neg (by omega)]
      refine (feed_recv_self (Int.toNat_natCast _).symm).trans ?_
      rw [Int.toNat_natCast, if_pos hfits]

/-! ## Calls that are not -/

theorem recv_waits (next : List u8 → Talk u8) (h : xs.length < n) :
    ∃ t, (Talk.recv n next).feed xs = some t ∧ t.Waits [] := by
  obtain ⟨next', hfeed⟩ := feed_recv_short next h
  exact ⟨_, hfeed, Or.inr ⟨rfl, _, rfl⟩⟩

/-- A header that is awaited. -/
theorem header_waits {next : List u8 → Talk u8} : (Talk.recv (n + 1) next).Waits [] :=
  Or.inr ⟨rfl, _, rfl⟩

theorem crossed_zero (c s : Order) : crossed c s 0 = 0 := by
  have h : ∀ a b d e : Bool, crossed ⟨a, b⟩ ⟨d, e⟩ 0 = 0 := by decide
  exact h c.lowFirst c.bigendian s.lowFirst s.bigendian

/-- The parties are not in step in some interleaving. -/
def Rap.Parts (rap : Rap) : Prop :=
  ¬∀ d, Reaches rap.clientScript rap.serverScript (Duplex.start rap.clientScript rap.serverScript) d →
    d.InStep rap.clientScript rap.serverScript

variable {req rep : ℕ → List u8}

/-- A request of which the server takes all, and sends nothing; the client
waits. -/
theorem parts_of_silence {t₃ : Talk u8}
    (hprev : ∀ i < k, Answers rap.clientScript rap.serverScript i (req i) (rep i))
    (hl : rap.clientScript k = some (.send xs t)) (hne : xs ≠ []) (hwaits : t.Waits [])
    (hserve : (remoteHandleClient rap.server (rap.env k)).feed xs = some t₃)
    (hend : t₃.Waits [] ∨ t₃ = .done) : rap.Parts := by
  rw [← List.append_nil xs] at hl hne
  refine not_inStep_of_fails [] [] hprev hl rfl hne hserve (fun h => by cases h) (feed_nil _) ?_
  rcases hend with hwaits₃ | hdone
  · exact .waits hwaits hwaits₃
  · exact .unanswered hwaits hdone rfl ⟨_, rfl⟩

/-- A request of another length than the server takes. -/
theorem parts_of_request {head body : List u8} {next : List u8 → Talk u8}
    (hprev : ∀ i < k, Answers rap.clientScript rap.serverScript i (req i) (rep i))
    (hl : rap.clientScript k = some (.send (head ++ body) t)) (hne : head ++ body ≠ [])
    (hwaits : t.Waits [])
    (hserve : ∀ bs, (remoteHandleClient rap.server (rap.env k)).feed (head ++ bs) =
      (Talk.recv n next).feed bs)
    (hnext : ∀ bs, next bs = .stop ∨ ∃ vs, next bs = .send vs .done) (hn : n ≠ body.length) :
    rap.Parts := by
  rcases Nat.lt_or_gt_of_ne hn with hlt | hgt
  · -- the server takes less than was sent
    have htake : (body.take n).length = n := by
      rw [List.length_take]
      omega
    have hsplit : head ++ body = (head ++ body.take n) ++ body.drop n := by
      rw [List.append_assoc, List.take_append_drop]
    have htaken := (hserve (body.take n)).trans (feed_recv_self htake)
    rw [hsplit] at hl hne
    obtain hstop | ⟨vs, hvs⟩ := hnext (body.take n)
    · rw [hstop] at htaken
      exact not_inStep_of_fails [] [] hprev hl rfl hne htaken (fun h => by cases h) (feed_nil _)
        (.waits hwaits (Or.inl rfl))
    rw [hvs] at htaken
    refine not_inStep_of_fails [] vs hprev hl rfl hne htaken (fun h => by cases h) (feed_nil _)
      (.question rfl ?_)
    rw [Ne, List.drop_eq_nil_iff]
    omega
  · -- the server waits for more than was sent
    obtain ⟨t₃, hfeed, hwaits₃⟩ := recv_waits next hgt
    exact parts_of_silence hprev hl hne hwaits ((hserve body).trans hfeed) (Or.inl hwaits₃)

/-- What the client does with fewer or more bytes than were sent. -/
theorem parts_of_reply (us vs : List u8) {t₂ : Talk u8}
    (hprev : ∀ i < k, Answers rap.clientScript rap.serverScript i (req i) (rep i))
    (hl : rap.clientScript k = some (.send xs t)) (hne : xs ≠ [])
    (hserve : (remoteHandleClient rap.server (rap.env k)).feed xs = some (.send (us ++ vs) .done))
    (hhear : t.feed us = some t₂) (hend : t₂ = .stop ∨ t₂ = .done ∧ vs ≠ [] ∨ t₂.Waits [] ∧ vs = []) :
    rap.Parts := by
  rw [← List.append_nil xs] at hl hne
  refine not_inStep_of_fails us vs hprev hl rfl hne hserve (fun h => by cases h) hhear ?_
  rcases hend with rfl | ⟨hdone, hvs⟩ | ⟨hwaits, rfl⟩
  · exact .unanswered (Or.inl rfl) rfl rfl ⟨_, rfl⟩
  · exact .answer hdone hvs
  · exact .unanswered hwaits rfl rfl ⟨_, rfl⟩

/-- A reply of another length than the client reads. -/
theorem parts_of_length {head body : List u8}
    (hprev : ∀ i < k, Answers rap.clientScript rap.serverScript i (req i) (rep i))
    (hl : rap.clientScript k = some (.send xs t)) (hne : xs ≠ [])
    (hserve : (remoteHandleClient rap.server (rap.env k)).feed xs =
      some (.send (head ++ body) .done))
    (hhear : ∀ bs, t.feed (head ++ bs) = (Talk.recv n fun _ => .done).feed bs)
    (hn : n ≠ body.length) : rap.Parts := by
  rcases Nat.lt_or_gt_of_ne hn with hlt | hgt
  · have htake : (body.take n).length = n := by
      rw [List.length_take]
      omega
    refine parts_of_reply (head ++ body.take n) (body.drop n) hprev hl hne ?_
      ((hhear _).trans (feed_recv_self htake)) (Or.inr (Or.inl ⟨rfl, ?_⟩))
    · rw [List.append_assoc, List.take_append_drop]
      exact hserve
    · rw [Ne, List.drop_eq_nil_iff]
      omega
  · obtain ⟨t₂, hfeed, hwaits⟩ := recv_waits (fun _ => Talk.done) hgt
    refine parts_of_reply (head ++ body) [] hprev hl hne ?_ ((hhear body).trans hfeed)
      (Or.inr (Or.inr ⟨hwaits, rfl⟩))
    rw [List.append_nil]
    exact hserve

/-- **A read that is not in step.** -/
theorem parts_of_read {count : ℕ}
    (hprev : ∀ i < k, Answers rap.clientScript rap.serverScript i (req i) (rep i))
    (hcall : rap.messages[k]? = some (.read count))
    (h : ¬(RemoteCall.read count).Framed rap.client rap.server (rap.env k)) : rap.Parts := by
  have hl : rap.clientScript k =
      some (.send (readRequest rap.client count) (readReply rap.client count)) :=
    clientScript_eq hcall
  have hserve := serve_read rap.client rap.server (rap.env k) count
  by_cases hneg : crossed rap.client rap.server count < 0 ∨
      2 ^ 31 ≤ (rap.env k).block.length + crossed rap.client rap.server count + 5
  · -- the server has written behind its memory
    rw [if_pos hneg] at hserve
    exact parts_of_silence hprev hl (List.cons_ne_nil _ _) header_waits hserve (Or.inl (Or.inl rfl))
  · rw [if_neg hneg] at hserve
    generalize hi : crossed rap.client rap.server count = i at *
    have hhear := hear_read rap.client rap.server count ((rap.env k).readSize i).toNat
    by_cases hfits : 0 ≤ crossed rap.server rap.client ((rap.env k).readSize i).toNat ∧
        crossed rap.server rap.client ((rap.env k).readSize i).toNat ≤ count
    · simp only [if_pos hfits] at hhear
      refine parts_of_length hprev hl (List.cons_ne_nil _ _) hserve hhear fun hlen => h ?_
      have hnonneg := readSize_nonneg (rap.env k) (i := i) (by omega)
      rw [length_readAnswer (readSize_le i)] at hlen
      unfold RemoteCall.Framed
      dsimp only
      rw [hi]
      exact ⟨⟨by omega, by omega⟩, by omega, by omega⟩
    · simp only [if_neg hfits] at hhear
      exact parts_of_reply _ _ hprev hl (List.cons_ne_nil _ _) hserve
        ((congrArg _ (List.append_nil _).symm).trans ((hhear []).trans (feed_nil _))) (Or.inl rfl)

/-- **A command that is not in step.** -/
theorem parts_of_system {command : RemoteCommand}
    (hprev : ∀ i < k, Answers rap.clientScript rap.serverScript i (req i) (rep i))
    (hcall : rap.messages[k]? = some (.system command))
    (h : ¬(RemoteCall.system command).Framed rap.client rap.server (rap.env k)) : rap.Parts := by
  have hl : rap.clientScript k =
      some (.send (systemRequest rap.client command.text) (systemReply rap.client)) :=
    clientScript_eq hcall
  have hserve := serve_system rap.client rap.server (rap.env k) command.text.length
  have hne : systemRequest rap.client command.text ≠ [] := List.cons_ne_nil _ _
  generalize hi : crossed rap.client rap.server command.text.length = i at *
  by_cases hneg : i < 0 ∨ 2 ^ 31 ≤ i + 6
  · -- the server has written behind its memory
    simp only [if_pos hneg] at hserve
    exact not_inStep_of_fails [] [] hprev hl rfl hne
      ((congrArg _ (List.append_nil _).symm).trans ((hserve []).trans (feed_nil _)))
      (fun h => by cases h) (feed_nil _) (.waits header_waits (Or.inl rfl))
  · simp only [if_neg hneg] at hserve
    by_cases hlen : i.toNat = command.text.length
    · have hanswer := (hserve command.text).trans (feed_recv_self hlen.symm)
      by_cases hfits : (rap.env k).Fits i.toNat ((rap.env k).tmpfile command.text)
      swap
      · -- and here with a NUL
        rw [if_neg hfits] at hanswer
        exact parts_of_silence hprev hl hne header_waits hanswer (Or.inl (Or.inl rfl))
      rw [if_pos hfits] at hanswer
      have hcross : ¬crossed rap.server rap.client ((rap.env k).tmpfile command.text).length =
          ((rap.env k).tmpfile command.text).length := by
        intro hout
        refine h ⟨?_, hlen ▸ hfits, hout⟩
        rw [hi]
        omega
      clear hfits
      have hhear := hear_system rap.client rap.server ((rap.env k).tmpfile command.text).length
      generalize (rap.env k).tmpfile command.text = out at hanswer hcross hhear
      by_cases hgone : crossed rap.server rap.client out.length = -1
      · -- the client takes the reply for a failure
        simp only [if_pos hgone] at hhear
        refine parts_of_reply _ _ hprev hl hne hanswer
          ((congrArg _ (List.append_nil _).symm).trans ((hhear []).trans (feed_nil _)))
          (Or.inr (Or.inl ⟨rfl, ?_⟩))
        rintro rfl
        rw [List.length_nil, crossed_zero] at hgone
        omega
      · simp only [if_neg hgone] at hhear
        by_cases hpos : 0 ≤ crossed rap.server rap.client out.length
        · simp only [if_pos hpos] at hhear
          exact parts_of_length hprev hl hne hanswer hhear fun hlen => hcross (by omega)
        · simp only [if_neg hpos] at hhear
          exact parts_of_reply _ _ hprev hl hne hanswer
            ((congrArg _ (List.append_nil _).symm).trans ((hhear []).trans (feed_nil _)))
            (Or.inl rfl)
    · refine parts_of_request hprev hl hne header_waits hserve (fun bs => ?_) hlen
      split_ifs
      · exact Or.inr ⟨_, rfl⟩
      · exact Or.inl rfl

/-- **A write is never in step.** -/
theorem parts_of_write {buf : List u8}
    (hprev : ∀ i < k, Answers rap.clientScript rap.serverScript i (req i) (rep i))
    (hcall : rap.messages[k]? = some (.write buf)) : rap.Parts := by
  have hl : rap.clientScript k = some (.send (writeRequest rap.client buf) (.recv 5 fun _ => .done)) :=
    clientScript_eq hcall
  have hwaits : (Talk.recv 5 fun _ : List u8 => Talk.done).Waits [] := header_waits
  have hfirst : ∀ x ∈ (writeRequest rap.client buf).head?, x = rmtWrite := by
    intro x hx
    unfold writeRequest at hx
    dsimp only at hx
    rw [List.head?_take] at hx
    split_ifs at hx
    · cases hx
    · exact (Option.some.inj hx).symm
  cases hsent : writeRequest rap.client buf with
  | nil =>
    -- nothing is sent, and the client waits for the reply
    intro hall
    rw [hsent] at hl
    refine not_inStep_of_waits (d := Duplex.between rap.clientScript rap.serverScript req rep k) ?_ ?_
      (hall _ (reaches_between hprev))
    · exact ⟨_, hl, hwaits⟩
    · exact ⟨_, rfl, Or.inr ⟨rfl, _, rfl⟩⟩
  | cons x rest =>
    rw [hsent] at hl hfirst
    obtain rfl : x = rmtWrite := hfirst x rfl
    have hserve : ∀ bs, (remoteHandleClient rap.server (rap.env k)).feed (rmtWrite :: bs) =
        (handleWrite rap.server (rap.env k)).feed bs := fun bs => rfl
    have hne : ∀ bs : List u8, rmtWrite :: bs ≠ [] := fun bs => List.cons_ne_nil _ _
    rcases Nat.lt_or_ge rest.length 5 with hlt | hge
    · -- the server waits for the byte that the client does not write
      obtain ⟨t₃, hfeed, hwaits₃⟩ := recv_waits _ hlt
      exact parts_of_silence hprev hl (hne rest) hwaits ((hserve rest).trans hfeed) (Or.inl hwaits₃)
    · have hhead : (rest.take 5).length = 5 := by
        rw [List.length_take]
        omega
      have hsize : ∃ x, ∀ bs, (handleWrite rap.server (rap.env k)).feed (rest.take 5 ++ bs) =
          (Talk.recv x fun _ => .done).feed bs := ⟨_, fun bs => feed_recv_append hhead⟩
      obtain ⟨x, hdata⟩ := hsize
      have hrest : rest.take 5 ++ rest.drop 5 = rest := List.take_append_drop 5 rest
      generalize rest.take 5 = header at hdata hrest
      generalize rest.drop 5 = data at hrest
      subst hrest
      by_cases hlen : x = data.length
      · -- the server has all of it, and sends no reply
        exact parts_of_silence hprev hl (hne _) hwaits
          ((hserve _).trans ((hdata data).trans (feed_recv_self hlen.symm))) (Or.inr rfl)
      · have htaken : ∀ bs, (remoteHandleClient rap.server (rap.env k)).feed
            (rmtWrite :: header ++ bs) = (Talk.recv x fun _ => .send [] .done).feed bs :=
          fun bs => (hserve _).trans (hdata bs)
        exact parts_of_request hprev hl (hne _) hwaits htaken (fun _ => Or.inr ⟨[], rfl⟩) hlen

/-! ## Every sequence of calls -/

/-- The first call that is not in step parts the two sides. -/
theorem framed_of_inStep {n : ℕ} (h : ¬rap.Parts) (hn : n ≤ rap.messages.length) :
    ∀ k < n, ∀ call, rap.messages[k]? = some call →
      call.Framed rap.client rap.server (rap.env k) := by
  induction n with
  | zero => exact fun k hk => absurd hk (Nat.not_lt_zero k)
  | succ n ih =>
    specialize ih (Nat.le_of_succ_le hn)
    have hanswers : ∀ i, ∃ req rep, i < n → Answers rap.clientScript rap.serverScript i req rep := by
      intro i
      by_cases hi : i < n
      · obtain ⟨call, hcall⟩ : ∃ call, rap.messages[i]? = some call :=
          ⟨_, List.getElem?_eq_getElem (by omega)⟩
        obtain ⟨req, rep, hreq⟩ := answers_of_framed hcall (ih i hi call hcall)
        exact ⟨req, rep, fun _ => hreq⟩
      · exact ⟨[], [], fun h => absurd h hi⟩
    choose req rep hprev using hanswers
    intro k hk call hcall
    rcases Nat.lt_or_eq_of_le (Nat.le_of_lt_succ hk) with hlt | rfl
    · exact ih k hlt call hcall
    · by_contra hnot
      refine h ?_
      cases call with
      | read count => exact parts_of_read hprev hcall hnot
      | write buf => exact parts_of_write hprev hcall
      | lseek offset whence => exact absurd trivial hnot
      | system command => exact parts_of_system hprev hcall hnot

/-- **When requests and replies are framed**: for every sequence of calls
and every interleaving of the two sides, each request is taken as it was
sent and so is each reply, and neither side is left waiting, if and only
if no call is a write, each length is the same number on both sides and the server
has the memory that it writes to. -/
theorem framing_iff (rap : Rap) :
    (∀ d, Reaches rap.clientScript rap.serverScript
        (Duplex.start rap.clientScript rap.serverScript) d →
      d.InStep rap.clientScript rap.serverScript) ↔
      ∀ (k : ℕ) (call : RemoteCall), rap.messages[k]? = some call →
        call.Framed rap.client rap.server (rap.env k) := by
  constructor
  · intro h k call hcall
    have hk := (List.getElem?_eq_some_iff.mp hcall).1
    exact framed_of_inStep (not_not_intro h) le_rfl k hk call hcall
  · intro h d hd
    have hanswers : ∀ i, ∃ req rep, i < rap.messages.length →
        Answers rap.clientScript rap.serverScript i req rep := by
      intro i
      by_cases hi : i < rap.messages.length
      · obtain ⟨req, rep, hreq⟩ := answers_of_framed (List.getElem?_eq_getElem hi)
          (h i _ (List.getElem?_eq_getElem hi))
        exact ⟨req, rep, fun _ => hreq⟩
      · exact ⟨[], [], fun h => absurd h hi⟩
    choose req rep hscene using hanswers
    have hscene : Scene rap.clientScript rap.serverScript req rep rap.messages.length := by
      refine ⟨hscene, ?_, ⟨_, rfl⟩⟩
      unfold Rap.clientScript
      rw [List.getElem?_eq_none le_rfl, Option.map_none]
    exact hscene.inStep hd

/-- **One byte written**, by a client and a server that order bytes in the
same way. -/
theorem write_of_one_byte :
    let env : ServerEnv := ⟨[], by decide, 0, fun x _ => x, fun _ => [], fun _ => by decide,
      fun _ => true, fun _ _ => 0, fun _ => [], fun _ => 0⟩
    let rap : Rap := ⟨⟨true, false⟩, ⟨true, false⟩, fun _ => env, [.write [0]]⟩
    ¬∀ d, Reaches rap.clientScript rap.serverScript
        (Duplex.start rap.clientScript rap.serverScript) d →
      d.InStep rap.clientScript rap.serverScript := by
  intro env rap
  let none : ℕ → List u8 := fun _ => []
  have hprev : ∀ i < 0, Answers rap.clientScript rap.serverScript i (none i) (none i) :=
    fun i hi => absurd hi (Nat.not_lt_zero i)
  exact parts_of_write hprev rfl

end Radare
