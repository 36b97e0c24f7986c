import Mathlib.Data.List.Basic
import Mathlib.Logic.Relation
import Mathlib.Tactic.Common
/-!
# Two parties over two streams

Each of two parties puts bytes into a stream to the other one and gets
bytes out of the stream from it, one at a time and in any interleaving; a
party that wants a byte waits until there is one. What a party does in one
exchange after the other is its script, and it keeps a log of the bytes of
each exchange.

The parties are in step if each exchange of one of them takes what the
other one gives in its own exchange of that number, and if none is ever
left waiting. Where the left party asks and the right one answers, that is
so in every interleaving if it is so of each exchange on its own
(`Scene.inStep`).
-/

namespace Radare

namespace Common

variable {β : Type*}

/-- What a party does in an exchange. -/
inductive Talk (β : Type*) where
  | put (b : β) (next : Talk β)
  | get (next : β → Talk β)
  /-- The exchange is over. -/
  | done
  /-- The party is gone. -/
  | stop

/-- Bytes put one after another. -/
def Talk.send (bs : List β) (t : Talk β) : Talk β := bs.foldr .put t

/-- So many bytes. -/
def Talk.recv : ℕ → (List β → Talk β) → Talk β
  | 0, next => next []
  | n + 1, next => .get fun b => recv n fun bs => next (b :: bs)

/-- The talk behind bytes that it gets. -/
def Talk.feed : Talk β → List β → Option (Talk β)
  | t, [] => some t
  | .get next, b :: bs => (next b).feed bs
  | _, _ :: _ => none

/-- The bytes of an exchange: those taken, and those given. -/
structure Exchange (β : Type*) where
  taken : List β := []
  given : List β := []

/-- A party. -/
structure Side (β : Type*) where
  /-- The exchanges that are over. -/
  log : List (Exchange β)
  now : Exchange β
  /-- What is left of this one; nothing, if there are no more. -/
  rest : Option (Talk β)

/-- All exchanges, the last one as far as it is. -/
def Side.exchanges (s : Side β) : List (Exchange β) := s.log ++ [s.now]

/-- A party goes on, with the next exchange if this one is over. -/
def Side.goOn (script : ℕ → Option (Talk β)) (s : Side β) : Talk β → Side β
  | .done => ⟨s.log ++ [s.now], {}, script (s.log.length + 1)⟩
  | t => { s with rest := some t }

def Side.take (s : Side β) (bs : List β) : Side β :=
  { s with now := { s.now with taken := s.now.taken ++ bs } }

def Side.give (s : Side β) (bs : List β) : Side β :=
  { s with now := { s.now with given := s.now.given ++ bs } }

/-- What a party does with the stream that it gets from: what is left of
it, and what is put into the other one. -/
def sideStep (script : ℕ → Option (Talk β)) (s : Side β) (stream : List β) :
    Option (Side β × List β × List β) :=
  match s.rest, stream with
  | some (.put b t), _ => some ((s.give [b]).goOn script t, stream, [b])
  | some (.get next), b :: bs => some ((s.take [b]).goOn script (next b), bs, [])
  | _, _ => none

/-- The parties, and what is on its way. -/
structure Duplex (β : Type*) where
  left : Side β
  right : Side β
  toRight : List β := []
  toLeft : List β := []

/-- A step of one of them. -/
inductive DuplexStep (l r : ℕ → Option (Talk β)) (d : Duplex β) : Duplex β → Prop
  | left (s : Side β) (xs out : List β) (h : sideStep l d.left d.toLeft = some (s, xs, out)) :
      DuplexStep l r d ⟨s, d.right, d.toRight ++ out, xs⟩
  | right (s : Side β) (xs out : List β) (h : sideStep r d.right d.toRight = some (s, xs, out)) :
      DuplexStep l r d ⟨d.left, s, xs, d.toLeft ++ out⟩

/-- Any number of steps. -/
abbrev Reaches (l r : ℕ → Option (Talk β)) : Duplex β → Duplex β → Prop :=
  Relation.ReflTransGen (DuplexStep l r)

/-- Before the first exchange. -/
def Duplex.start (l r : ℕ → Option (Talk β)) : Duplex β := ⟨⟨[], {}, l 0⟩, ⟨[], {}, r 0⟩, [], []⟩

/-- **In step**: an exchange that is over took what the other party gave in
its exchange of that number; and if the left party is not through with its
script, one of the two can go on. -/
structure Duplex.InStep (l r : ℕ → Option (Talk β)) (d : Duplex β) : Prop where
  right : ∀ (i : ℕ) (e : Exchange β), d.right.log[i]? = some e →
    ∃ e' : Exchange β, d.left.exchanges[i]? = some e' ∧ e'.given = e.taken
  left : ∀ (i : ℕ) (e : Exchange β), d.left.log[i]? = some e →
    ∃ e' : Exchange β, d.right.exchanges[i]? = some e' ∧ e'.given = e.taken
  progress : d.left.rest = none ∨ ∃ d', DuplexStep l r d d'

/-! ## One party by itself -/

/-- What a party does by itself. -/
inductive SideRun (script : ℕ → Option (Talk β)) :
    Side β → List β → Side β → List β → List β → Prop
  | refl (s : Side β) (xs : List β) : SideRun script s xs s xs []
  | step (s s' s'' : Side β) (xs ys zs out out' : List β)
      (h : sideStep script s xs = some (s', ys, out)) (h' : SideRun script s' ys s'' zs out') :
      SideRun script s xs s'' zs (out ++ out')

variable {l r script : ℕ → Option (Talk β)} {s s' s'' left right : Side β}
variable {t t' : Talk β} {bs xs ys zs out out' : List β} {n : ℕ} {d d' : Duplex β}

theorem SideRun.trans (h : SideRun script s xs s' ys out)
    (h' : SideRun script s' ys s'' zs out') : SideRun script s xs s'' zs (out ++ out') := by
  induction h with
  | refl => exact h'
  | step _ _ _ _ _ _ _ _ hstep _ ih =>
    rw [List.append_assoc]
    exact .step _ _ _ _ _ _ _ _ hstep (ih h')

/-- The left party does something by itself. -/
theorem reaches_left (right : Side β) (zs : List β) (h : SideRun l s xs s' ys out) :
    Reaches l r ⟨s, right, zs, xs⟩ ⟨s', right, zs ++ out, ys⟩ := by
  induction h generalizing zs with
  | refl =>
    rw [List.append_nil]
  | step _ _ _ _ _ _ out _ hstep _ ih =>
    rw [← List.append_assoc]
    exact .head (.left (d := ⟨_, _, _, _⟩) _ _ _ hstep) (ih (zs ++ out))

/-- The right party does something by itself. -/
theorem reaches_right (left : Side β) (zs : List β) (h : SideRun r s xs s' ys out) :
    Reaches l r ⟨left, s, xs, zs⟩ ⟨left, s', ys, zs ++ out⟩ := by
  induction h generalizing zs with
  | refl =>
    rw [List.append_nil]
  | step _ _ _ _ _ _ out _ hstep _ ih =>
    rw [← List.append_assoc]
    exact .head (.right (d := ⟨_, _, _, _⟩) _ _ _ hstep) (ih (zs ++ out))

@[simp] theorem Side.take_nil (s : Side β) : s.take [] = s := by
  unfold Side.take
  rw [List.append_nil]

@[simp] theorem Side.give_nil (s : Side β) : s.give [] = s := by
  unfold Side.give
  rw [List.append_nil]

theorem Side.take_take (s : Side β) (xs ys : List β) : (s.take xs).take ys = s.take (xs ++ ys) := by
  unfold Side.take
  rw [List.append_assoc]

theorem Side.give_give (s : Side β) (xs ys : List β) : (s.give xs).give ys = s.give (xs ++ ys) := by
  unfold Side.give
  rw [List.append_assoc]

/-- **A party sends.** -/
theorem sideRun_send (script : ℕ → Option (Talk β)) (s : Side β) (xs bs : List β) (t : Talk β) :
    SideRun script (s.goOn script (.send bs t)) xs ((s.give bs).goOn script t) xs bs := by
  induction bs generalizing s with
  | nil =>
    rw [Side.give_nil]
    exact .refl _ _
  | cons b bs ih =>
    have hrest := ih (s.give [b])
    rw [Side.give_give, List.singleton_append] at hrest
    exact .step _ _ _ _ _ _ [b] bs rfl hrest

/-- **A party takes what it gets.** -/
theorem sideRun_feed (script : ℕ → Option (Talk β)) (s : Side β) (ys : List β)
    (h : t.feed xs = some t') :
    SideRun script (s.goOn script t) (xs ++ ys) ((s.take xs).goOn script t') ys [] := by
  induction xs generalizing s t with
  | nil =>
    obtain rfl := Option.some.inj (show some t = some t' by cases t <;> exact h)
    rw [Side.take_nil]
    exact .refl _ _
  | cons b xs ih =>
    cases t with
    | get next =>
      have hrest := ih (s.take [b]) (t := next b) h
      rw [Side.take_take, List.singleton_append] at hrest
      exact .step _ _ _ _ _ _ [] [] rfl hrest
    | put | done | stop => cases h

theorem feed_nil (t : Talk β) : t.feed [] = some t := by
  cases t <;> rfl

theorem feed_append (h : t.feed xs = some t') : t.feed (xs ++ ys) = t'.feed ys := by
  induction xs generalizing t with
  | nil =>
    rw [feed_nil] at h
    rw [List.nil_append, Option.some.inj h]
  | cons b xs ih =>
    cases t with
    | get next => exact ih h
    | put | done | stop => cases h

/-- So many bytes are taken. -/
theorem feed_recv (next : List β → Talk β) : (Talk.recv xs.length next).feed xs = some (next xs) := by
  induction xs generalizing next with
  | nil => exact feed_nil _
  | cons b xs ih => exact ih fun bs => next (b :: bs)

/-- Fewer bytes than that are taken, and more are awaited. -/
theorem feed_recv_short (next : List β → Talk β) (h : xs.length < n) :
    ∃ next', (Talk.recv n next).feed xs = some (.get next') := by
  induction xs generalizing n next with
  | nil =>
    obtain ⟨n, rfl⟩ := Nat.exists_eq_add_one_of_ne_zero (Nat.ne_zero_of_lt h)
    exact ⟨_, rfl⟩
  | cons b xs ih =>
    obtain ⟨n, rfl⟩ := Nat.exists_eq_add_one_of_ne_zero (Nat.ne_zero_of_lt h)
    exact ih _ (Nat.lt_of_succ_lt_succ h)

theorem eq_get_of_feed (h : t.feed xs = some t') (hxs : xs ≠ []) : ∃ next, t = .get next := by
  cases xs with
  | nil => exact absurd rfl hxs
  | cons b xs =>
    cases t with
    | get next => exact ⟨next, rfl⟩
    | put | done | stop => cases h

theorem ne_done_of_feed (h : t.feed xs = some t') (ht' : t' ≠ .done) : t ≠ .done := by
  rintro rfl
  cases xs with
  | nil => exact ht' (Option.some.inj h).symm
  | cons => cases h

theorem send_ne_done (h : bs ≠ [] ∨ t ≠ .done) : Talk.send bs t ≠ .done := by
  cases bs with
  | nil => exact h.resolve_left fun hne => hne rfl
  | cons b bs => exact fun heq => by cases heq

theorem goOn_of_ne_done (h : t ≠ .done) : s.goOn script t = ⟨s.log, s.now, some t⟩ := by
  cases t with
  | done => exact absurd rfl h
  | put | get | stop => rfl

/-! ## Questions and answers -/

/-- **A question and its answer**: the left party sends the one and takes
the other, and the right party takes the one and sends the other. -/
structure Answers (l r : ℕ → Option (Talk β)) (k : ℕ) (req rep : List β) : Prop where
  ask : ∃ t, l k = some (.send req t) ∧ t.feed rep = some .done
  answer : ∃ t, r k = some t ∧ t.feed req = some (.send rep .done)
  req_ne : req ≠ []
  rep_ne : rep ≠ []

/-- The log of the one who asks. -/
def askLog (req rep : ℕ → List β) (n : ℕ) : List (Exchange β) :=
  (List.range n).map fun i => ⟨rep i, req i⟩

/-- The log of the one who answers. -/
def answerLog (req rep : ℕ → List β) (n : ℕ) : List (Exchange β) :=
  (List.range n).map fun i => ⟨req i, rep i⟩

/-- Between two exchanges. -/
def Duplex.between (l r : ℕ → Option (Talk β)) (req rep : ℕ → List β) (n : ℕ) : Duplex β :=
  ⟨⟨askLog req rep n, {}, l n⟩, ⟨answerLog req rep n, {}, r n⟩, [], []⟩

variable {req rep : ℕ → List β} {k : ℕ}

theorem askLog_succ : askLog req rep k ++ [⟨rep k, req k⟩] = askLog req rep (k + 1) := by
  unfold askLog
  rw [List.range_succ, List.map_append, List.map_singleton]

theorem answerLog_succ : answerLog req rep k ++ [⟨req k, rep k⟩] = answerLog req rep (k + 1) := by
  unfold answerLog
  rw [List.range_succ, List.map_append, List.map_singleton]

theorem length_askLog : (askLog req rep k).length = k := by
  unfold askLog
  rw [List.length_map, List.length_range]

theorem length_answerLog : (answerLog req rep k).length = k := by
  unfold answerLog
  rw [List.length_map, List.length_range]

/-- The end of an exchange of the left party. -/
theorem goOn_ask (rest : Option (Talk β)) :
    (⟨askLog req rep k, ⟨rep k, req k⟩, rest⟩ : Side β).goOn l .done =
      ⟨askLog req rep (k + 1), {}, l (k + 1)⟩ := by
  rw [Side.goOn, askLog_succ, length_askLog]

/-- The end of an exchange of the right party. -/
theorem goOn_answer (rest : Option (Talk β)) :
    (⟨answerLog req rep k, ⟨req k, rep k⟩, rest⟩ : Side β).goOn r .done =
      ⟨answerLog req rep (k + 1), {}, r (k + 1)⟩ := by
  rw [Side.goOn, answerLog_succ, length_answerLog]

/-- **How far an exchange comes**: the left party sends its question, of
which the right party takes what it wants and gives what it has, and of that
the left party takes what it wants. -/
theorem exchange_from_between {us vs : List β} {t₂ t₃ : Talk β}
    (hl : l k = some (.send (xs ++ ys) t)) (hr : r k = some t₂) (hne : xs ++ ys ≠ [])
    (ht₂ : t₂.feed xs = some (.send (us ++ vs) t₃)) (hopen : t₂ ≠ .done) (ht : t.feed us = some t') :
    Reaches l r (Duplex.between l r req rep k)
      ⟨(⟨askLog req rep k, ⟨us, xs ++ ys⟩, none⟩ : Side β).goOn l t',
        (⟨answerLog req rep k, ⟨xs, us ++ vs⟩, none⟩ : Side β).goOn r t₃, ys, vs⟩ := by
  have hask : SideRun l ⟨askLog req rep k, {}, l k⟩ []
      ((⟨askLog req rep k, ⟨[], xs ++ ys⟩, none⟩ : Side β).goOn l t) [] (xs ++ ys) := by
    have hsend := sideRun_send l ⟨askLog req rep k, {}, none⟩ [] (xs ++ ys) t
    rw [goOn_of_ne_done (send_ne_done (Or.inl hne)), ← hl] at hsend
    exact hsend
  have htake : SideRun r ⟨answerLog req rep k, {}, r k⟩ (xs ++ ys)
      ((⟨answerLog req rep k, ⟨xs, []⟩, none⟩ : Side β).goOn r (.send (us ++ vs) t₃)) ys [] := by
    have hfeed := sideRun_feed r ⟨answerLog req rep k, {}, none⟩ ys ht₂
    rw [goOn_of_ne_done hopen, ← hr] at hfeed
    exact hfeed
  have hanswer := sideRun_send r ⟨answerLog req rep k, ⟨xs, []⟩, none⟩ ys (us ++ vs) t₃
  have hhear := sideRun_feed l ⟨askLog req rep k, ⟨[], xs ++ ys⟩, none⟩ vs ht
  have hlast := reaches_left (r := r) (Side.goOn r ⟨answerLog req rep k, ⟨xs, us ++ vs⟩, none⟩ t₃) ys
    hhear
  rw [List.append_nil] at hlast
  exact ((reaches_left _ [] hask).trans (reaches_right _ [] (htake.trans hanswer))).trans hlast

/-- **The exchanges can be made** one after another. -/
theorem reaches_between (h : ∀ k < n, Answers l r k (req k) (rep k)) :
    Reaches l r (Duplex.start l r) (Duplex.between l r req rep n) := by
  induction n with
  | zero => exact .refl
  | succ n ih =>
    obtain ⟨⟨t, hl, hrep⟩, ⟨t₂, hr, hreq⟩, hreq_ne, hrep_ne⟩ := h n (Nat.lt_succ_self n)
    have hopen : t₂ ≠ .done := ne_done_of_feed hreq (send_ne_done (Or.inl hrep_ne))
    refine (ih fun k hk => h k (Nat.lt_succ_of_lt hk)).trans ?_
    rw [← List.append_nil (req n)] at hl hreq_ne
    rw [← List.append_nil (rep n)] at hreq
    have hwhole : Reaches l r (Duplex.between l r req rep n) _ :=
      exchange_from_between hl hr hreq_ne hreq hopen hrep
    rw [List.append_nil, List.append_nil, goOn_ask, goOn_answer] at hwhole
    exact hwhole

/-! ## Every interleaving

Within one exchange the question is on its way to the right party first and
the answer on its way back then. -/

/-- **How far an exchange may be.** -/
inductive Duplex.Within (l r : ℕ → Option (Talk β)) (req rep : ℕ → List β) (n : ℕ) :
    Duplex β → Prop
  /-- Of the question, `a` was taken, `b` is on its way and `c` not yet sent. -/
  | asking (k : ℕ) (a b c : List β) (t t₂ : Talk β) (hk : k < n) (hreq : req k = a ++ b ++ c)
      (hrest : b ++ c ≠ []) (ht : t.feed (rep k) = some .done)
      (ht₂ : t₂.feed (b ++ c) = some (.send (rep k) .done)) :
      Within l r req rep n ⟨⟨askLog req rep k, ⟨[], a ++ b⟩, some (.send c t)⟩,
        ⟨answerLog req rep k, ⟨a, []⟩, some t₂⟩, b, []⟩
  /-- And so of the answer. -/
  | answering (k : ℕ) (a b c : List β) (t : Talk β) (hk : k < n) (hrep : rep k = a ++ b ++ c)
      (hrest : c ≠ []) (ht : t.feed (b ++ c) = some .done) :
      Within l r req rep n ⟨⟨askLog req rep k, ⟨a, req k⟩, some t⟩,
        ⟨answerLog req rep k, ⟨req k, a ++ b⟩, some (.send c .done)⟩, [], b⟩
  /-- All of the answer was sent. -/
  | answered (k : ℕ) (a b : List β) (t : Talk β) (hk : k < n) (hrep : rep k = a ++ b)
      (hrest : b ≠ []) (ht : t.feed b = some .done) :
      Within l r req rep n ⟨⟨askLog req rep k, ⟨a, req k⟩, some t⟩,
        ⟨answerLog req rep (k + 1), {}, r (k + 1)⟩, [], b⟩
  | ended : Within l r req rep n (Duplex.between l r req rep n)

/-- A script of questions and answers that has an end. -/
structure Scene (l r : ℕ → Option (Talk β)) (req rep : ℕ → List β) (n : ℕ) : Prop where
  answers : ∀ k < n, Answers l r k (req k) (rep k)
  ends : l n = none
  waits : ∃ next, r n = some (.get next)

theorem ne_done_of_get (h : t.feed xs = some t') (hxs : xs ≠ []) : t ≠ .done := by
  obtain ⟨next, rfl⟩ := eq_get_of_feed h hxs
  exact fun heq => by cases heq

/-- A party that puts a byte. -/
theorem step_put {log : List (Exchange β)} {now : Exchange β} {x : β}
    (hstep : sideStep script ⟨log, now, some (.put x t)⟩ zs = some (s, xs, out)) (ht : t ≠ .done) :
    s = ⟨log, ⟨now.taken, now.given ++ [x]⟩, some t⟩ ∧ xs = zs ∧ out = [x] := by
  cases hstep
  exact ⟨goOn_of_ne_done ht, rfl, rfl⟩

/-- A party that puts the last byte of an exchange. -/
theorem step_put_last {log : List (Exchange β)} {now : Exchange β} {x : β}
    (hstep : sideStep script ⟨log, now, some (.put x .done)⟩ zs = some (s, xs, out)) :
    s = ⟨log ++ [⟨now.taken, now.given ++ [x]⟩], {}, script (log.length + 1)⟩ ∧ xs = zs ∧
      out = [x] := by
  cases hstep
  exact ⟨rfl, rfl, rfl⟩

/-- A party that gets a byte, of talk that has to get more, is behind it. -/
theorem step_get {log : List (Exchange β)} {now : Exchange β}
    (hstep : sideStep script ⟨log, now, some t⟩ zs = some (s, ys, out))
    (ht : t.feed (zs ++ xs) = some t') (hne : zs ++ xs ≠ []) :
    ∃ b t'', zs = b :: ys ∧ out = [] ∧ t''.feed (ys ++ xs) = some t' ∧
      s = (⟨log, ⟨now.taken ++ [b], now.given⟩, none⟩ : Side β).goOn script t'' := by
  obtain ⟨next, rfl⟩ := eq_get_of_feed ht hne
  cases zs with
  | nil => cases hstep
  | cons b zs =>
    cases hstep
    refine ⟨b, next b, rfl, rfl, ht, ?_⟩
    cases next b <;> rfl

/-- Between two exchanges. -/
theorem Scene.within_between (h : Scene l r req rep n) (hk : k ≤ n) :
    Duplex.Within l r req rep n (Duplex.between l r req rep k) := by
  rcases Nat.lt_or_eq_of_le hk with hlt | rfl
  · obtain ⟨⟨t, hl, hrep⟩, ⟨t₂, hr, hreq⟩, hreq_ne, -⟩ := h.answers k hlt
    unfold Duplex.between
    rw [hl, hr]
    exact .asking k [] [] (req k) t t₂ hlt rfl hreq_ne hrep hreq
  · exact .ended

/-- The right party waits for a question. -/
theorem Scene.right_waits (h : Scene l r req rep n) (hk : k ≤ n) : ∃ next, r k = some (.get next) := by
  rcases Nat.lt_or_eq_of_le hk with hlt | rfl
  · obtain ⟨-, ⟨t₂, hr, hreq⟩, hreq_ne, -⟩ := h.answers k hlt
    obtain ⟨next, rfl⟩ := eq_get_of_feed hreq hreq_ne
    exact ⟨next, hr⟩
  · exact h.waits

/-- A step of the left party stays within an exchange. -/
theorem Scene.within_left (h : Scene l r req rep n) (hd : d.Within l r req rep n)
    (hstep : sideStep l d.left d.toLeft = some (s, xs, out)) :
    Duplex.Within l r req rep n ⟨s, d.right, d.toRight ++ out, xs⟩ := by
  cases hd with
  | asking k a b c t t₂ hk hreq hrest ht ht₂ =>
    have hrep_ne := (h.answers k hk).rep_ne
    cases c with
    | nil =>
      -- the question is sent, and no answer has come
      obtain ⟨next, rfl⟩ := eq_get_of_feed ht hrep_ne
      cases hstep
    | cons x c =>
      obtain ⟨rfl, rfl, rfl⟩ := step_put hstep (send_ne_done (Or.inr (ne_done_of_get ht hrep_ne)))
      have hwhole : b ++ x :: c = (b ++ [x]) ++ c := by
        rw [List.append_assoc, List.singleton_append]
      rw [hwhole] at hrest ht₂
      rw [List.append_assoc, hwhole, ← List.append_assoc] at hreq
      rw [List.append_assoc a b [x]]
      exact .asking k a (b ++ [x]) c t t₂ hk hreq hrest ht ht₂
  | answering k a b c t hk hrep hrest ht =>
    obtain ⟨x, t', rfl, rfl, ht', rfl⟩ := step_get hstep ht (List.append_ne_nil_of_right_ne_nil b hrest)
    rw [goOn_of_ne_done (ne_done_of_get ht' (List.append_ne_nil_of_right_ne_nil xs hrest)),
      List.append_nil]
    have hwhole : a ++ x :: xs = (a ++ [x]) ++ xs := by rw [List.append_assoc, List.singleton_append]
    rw [hwhole] at hrep ⊢
    exact .answering k (a ++ [x]) xs c t' hk hrep hrest ht'
  | answered k a b t hk hrep hrest ht =>
    rw [← List.append_nil b] at ht hrest
    obtain ⟨x, t', rfl, rfl, ht', rfl⟩ := step_get hstep ht hrest
    have hwhole : a ++ x :: xs = (a ++ [x]) ++ xs := by rw [List.append_assoc, List.singleton_append]
    rw [hwhole] at hrep
    rw [List.append_nil] at ht' ⊢
    by_cases hxs : xs = []
    · -- the answer is complete
      subst hxs
      rw [feed_nil] at ht'
      obtain rfl := Option.some.inj ht'
      rw [List.append_nil] at hrep
      rw [← hrep, goOn_ask none]
      exact h.within_between hk
    · rw [goOn_of_ne_done (ne_done_of_get ht' hxs)]
      exact .answered k (a ++ [x]) xs t' hk hrep hxs ht'
  | ended =>
    unfold Duplex.between at hstep
    rw [h.ends] at hstep
    cases hstep

/-- A step of the right party stays within an exchange. -/
theorem Scene.within_right (h : Scene l r req rep n) (hd : d.Within l r req rep n)
    (hstep : sideStep r d.right d.toRight = some (s, xs, out)) :
    Duplex.Within l r req rep n ⟨d.left, s, xs, d.toLeft ++ out⟩ := by
  cases hd with
  | asking k a b c t t₂ hk hreq hrest ht ht₂ =>
    have hrep_ne := (h.answers k hk).rep_ne
    obtain ⟨x, t', rfl, rfl, ht', rfl⟩ := step_get hstep ht₂ hrest
    have hne : t' ≠ .done := ne_done_of_feed ht' (send_ne_done (Or.inl hrep_ne))
    have hwhole : a ++ x :: xs = (a ++ [x]) ++ xs := by rw [List.append_assoc, List.singleton_append]
    rw [hwhole] at hreq ⊢
    rw [goOn_of_ne_done hne]
    by_cases hend : xs ++ c = []
    · -- the question is complete
      obtain ⟨rfl, rfl⟩ := List.append_eq_nil_iff.mp hend
      rw [List.append_nil, feed_nil] at ht'
      obtain rfl := Option.some.inj ht'
      rw [List.append_nil, List.append_nil] at hreq
      rw [List.append_nil, ← hreq]
      exact .answering k [] [] (rep k) t hk rfl hrep_ne ht
    · exact .asking k (a ++ [x]) xs c t t' hk hreq hend ht ht'
  | answering k a b c t hk hrep hrest ht =>
    cases c with
    | nil => exact absurd rfl hrest
    | cons x c =>
      have hwhole : b ++ x :: c = (b ++ [x]) ++ c := by
        rw [List.append_assoc, List.singleton_append]
      rw [hwhole] at ht
      rw [List.append_assoc, hwhole, ← List.append_assoc] at hrep
      by_cases hc : c = []
      · -- the answer is sent
        subst hc
        rw [List.append_nil] at ht hrep
        obtain ⟨rfl, rfl, rfl⟩ := step_put_last hstep
        rw [List.append_assoc, ← hrep, answerLog_succ, length_answerLog]
        refine .answered k a (b ++ [x]) t hk hrep ?_ ht
        exact List.append_ne_nil_of_right_ne_nil b (List.cons_ne_nil x [])
      · obtain ⟨rfl, rfl, rfl⟩ := step_put hstep (send_ne_done (Or.inl hc))
        rw [List.append_assoc a b [x]]
        exact .answering k a (b ++ [x]) c t hk hrep hc ht
  | answered k a b t hk hrep hrest ht =>
    obtain ⟨next, hr⟩ := h.right_waits hk
    rw [hr] at hstep
    cases hstep
  | ended =>
    obtain ⟨next, hr⟩ := h.waits
    unfold Duplex.between at hstep
    rw [hr] at hstep
    cases hstep

/-- **Every state is within an exchange.** -/
theorem Scene.within (h : Scene l r req rep n) (hd : Reaches l r (Duplex.start l r) d) :
    Duplex.Within l r req rep n d := by
  induction hd with
  | refl => exact h.within_between (Nat.zero_le n)
  | tail _ hstep ih =>
    cases hstep with
    | left s xs out hleft => exact h.within_left ih hleft
    | right s xs out hright => exact h.within_right ih hright

theorem getElem?_askLog : (askLog req rep n)[k]? = if k < n then some ⟨rep k, req k⟩ else none := by
  unfold askLog
  rw [List.getElem?_map]
  split_ifs with hk
  · rw [List.getElem?_range hk, Option.map_some]
  · rw [List.getElem?_eq_none (by rw [List.length_range]; omega), Option.map_none]

theorem getElem?_answerLog :
    (answerLog req rep n)[k]? = if k < n then some ⟨req k, rep k⟩ else none := by
  unfold answerLog
  rw [List.getElem?_map]
  split_ifs with hk
  · rw [List.getElem?_range hk, Option.map_some]
  · rw [List.getElem?_eq_none (by rw [List.length_range]; omega), Option.map_none]

/-- Exchanges that are over agree, whatever there is behind them. -/
theorem agree_answerLog {i : ℕ} {e : Exchange β} (rest : List (Exchange β))
    (he : (answerLog req rep n)[i]? = some e) :
    ∃ e' : Exchange β, (askLog req rep n ++ rest)[i]? = some e' ∧ e'.given = e.taken := by
  rw [getElem?_answerLog] at he
  split_ifs at he with hi
  obtain rfl := Option.some.inj he
  refine ⟨⟨rep i, req i⟩, ?_, rfl⟩
  rw [List.getElem?_append_left (by rw [length_askLog]; exact hi), getElem?_askLog, if_pos hi]

theorem agree_askLog {i : ℕ} {e : Exchange β} (rest : List (Exchange β))
    (he : (askLog req rep n)[i]? = some e) :
    ∃ e' : Exchange β, (answerLog req rep n ++ rest)[i]? = some e' ∧ e'.given = e.taken := by
  rw [getElem?_askLog] at he
  split_ifs at he with hi
  obtain rfl := Option.some.inj he
  refine ⟨⟨req i, rep i⟩, ?_, rfl⟩
  rw [List.getElem?_append_left (by rw [length_answerLog]; exact hi), getElem?_answerLog, if_pos hi]

/-- **In every interleaving the parties are in step.** -/
theorem Scene.inStep (h : Scene l r req rep n) (hd : Reaches l r (Duplex.start l r) d) :
    d.InStep l r := by
  cases h.within hd with
  | asking k a b c t t₂ hk hreq hrest ht ht₂ =>
    refine ⟨fun i e => agree_answerLog _, fun i e => agree_askLog _, Or.inr ?_⟩
    cases c with
    | cons x c => exact ⟨_, .left _ _ _ rfl⟩
    | nil =>
      obtain ⟨next, rfl⟩ := eq_get_of_feed ht₂ hrest
      rw [List.append_nil] at hrest
      obtain ⟨x, b, rfl⟩ := List.exists_cons_of_ne_nil hrest
      exact ⟨_, .right _ _ _ rfl⟩
  | answering k a b c t hk hrep hrest ht =>
    refine ⟨fun i e => agree_answerLog _, fun i e => agree_askLog _, Or.inr ?_⟩
    obtain ⟨x, c, rfl⟩ := List.exists_cons_of_ne_nil hrest
    exact ⟨_, .right _ _ _ rfl⟩
  | answered k a b t hk hrep hrest ht =>
    refine ⟨fun i e he => ?_, fun i e he => ?_, Or.inr ?_⟩
    · dsimp only at he
      rw [getElem?_answerLog] at he
      split_ifs at he with hi
      obtain rfl := Option.some.inj he
      unfold Side.exchanges
      dsimp only
      rcases Nat.lt_or_eq_of_le (Nat.le_of_lt_succ hi) with hlt | rfl
      · refine ⟨⟨rep i, req i⟩, ?_, rfl⟩
        rw [List.getElem?_append_left (by rw [length_askLog]; exact hlt), getElem?_askLog,
          if_pos hlt]
      · refine ⟨⟨a, req i⟩, ?_, rfl⟩
        rw [List.getElem?_append_right (Nat.le_of_eq length_askLog), length_askLog, Nat.sub_self]
        rfl
    · dsimp only at he
      unfold Side.exchanges
      dsimp only
      rw [← answerLog_succ, List.append_assoc]
      exact agree_askLog _ he
    · obtain ⟨next, rfl⟩ := eq_get_of_feed ht hrest
      obtain ⟨x, b, rfl⟩ := List.exists_cons_of_ne_nil hrest
      exact ⟨_, .left _ _ _ rfl⟩
  | ended =>
    refine ⟨fun i e => agree_answerLog _, fun i e => agree_askLog _, Or.inl ?_⟩
    exact h.ends

/-! ## An exchange that goes wrong -/

/-- The talk is at an end, or waits for a byte that is not there. -/
def Talk.Waits (t : Talk β) (stream : List β) : Prop :=
  t = .stop ∨ stream = [] ∧ ∃ next, t = .get next

/-- So is a party, in the exchange that it is in or before the next one. -/
def Side.Waits (s : Side β) (stream : List β) : Prop := ∃ t, s.rest = some t ∧ t.Waits stream

theorem Talk.Waits.goOn (h : t.Waits xs) : (s.goOn script t).Waits xs := by
  rcases h with rfl | ⟨hxs, next, rfl⟩
  · exact ⟨.stop, rfl, Or.inl rfl⟩
  · exact ⟨.get next, rfl, Or.inr ⟨hxs, next, rfl⟩⟩

theorem Side.Waits.step (h : s.Waits xs) : sideStep script s xs = none := by
  obtain ⟨t, hrest, rfl | ⟨rfl, next, rfl⟩⟩ := h
  all_goals
    unfold sideStep
    rw [hrest]

/-- **Two parties that wait for each other** are not in step. -/
theorem not_inStep_of_waits (hl : d.left.Waits d.toLeft) (hr : d.right.Waits d.toRight) :
    ¬d.InStep l r := by
  intro h
  rcases h.progress with hnone | ⟨d', hstep⟩
  · obtain ⟨t, hrest, -⟩ := hl
    rw [hnone] at hrest
    cases hrest
  · cases hstep with
    | left _ _ _ h => rw [hl.step] at h; cases h
    | right _ _ _ h => rw [hr.step] at h; cases h

/-- An exchange behind others that went well. -/
theorem reaches_exchange {us vs : List β} {t₂ t₃ : Talk β} (h : ∀ i < k, Answers l r i (req i) (rep i))
    (hl : l k = some (.send (xs ++ ys) t)) (hr : r k = some t₂) (hne : xs ++ ys ≠ [])
    (ht₂ : t₂.feed xs = some (.send (us ++ vs) t₃)) (hopen : t₂ ≠ .done) (ht : t.feed us = some t') :
    Reaches l r (Duplex.start l r)
      ⟨(⟨askLog req rep k, ⟨us, xs ++ ys⟩, none⟩ : Side β).goOn l t',
        (⟨answerLog req rep k, ⟨xs, us ++ vs⟩, none⟩ : Side β).goOn r t₃, ys, vs⟩ :=
  (reaches_between h).trans (exchange_from_between hl hr hne ht₂ hopen ht)

theorem exchanges_goOn (script : ℕ → Option (Talk β)) (s : Side β) (t : Talk β) :
    (s.goOn script t).exchanges[s.log.length]? = some s.now := by
  unfold Side.exchanges
  cases t with
  | done =>
    rw [Side.goOn, List.append_assoc, List.getElem?_append_right (Nat.le_refl _), Nat.sub_self]
    rfl
  | put | get | stop =>
    rw [Side.goOn, List.getElem?_append_right (Nat.le_refl _), Nat.sub_self]
    · rfl
    · exact fun heq => by cases heq

theorem log_goOn_done (script : ℕ → Option (Talk β)) (s : Side β) :
    (s.goOn script .done).log[s.log.length]? = some s.now := by
  rw [Side.goOn, List.getElem?_append_right (Nat.le_refl _), Nat.sub_self]
  rfl

/-- How an exchange goes wrong: both wait; the right party is through and
did not take all of the question; or the left party is through and did not
take all of the answer. -/
inductive Fails (r : ℕ → Option (Talk β)) (k : ℕ) (t : Talk β) (vs : List β) (t₃ : Talk β)
    (ys : List β) : Prop
  | waits (hl : t.Waits vs) (hr : t₃.Waits ys)
  | unanswered (hl : t.Waits vs) (hr : t₃ = .done) (hys : ys = [])
      (hnext : ∃ next, r (k + 1) = some (.get next))
  | question (hr : t₃ = .done) (hys : ys ≠ [])
  | answer (hl : t = .done) (hvs : vs ≠ [])

/-- **An exchange that goes wrong** behind others that went well. -/
theorem not_inStep_of_fails (us vs : List β) {t₂ t₃ : Talk β}
    (h : ∀ i < k, Answers l r i (req i) (rep i)) (hl : l k = some (.send (xs ++ ys) t))
    (hr : r k = some t₂) (hne : xs ++ ys ≠ []) (ht₂ : t₂.feed xs = some (.send (us ++ vs) t₃))
    (hopen : t₂ ≠ .done) (ht : t.feed us = some t') (hfails : Fails r k t' vs t₃ ys) :
    ¬∀ d, Reaches l r (Duplex.start l r) d → d.InStep l r := by
  intro hall
  have hstep := hall _ (reaches_exchange h hl hr hne ht₂ hopen ht)
  have hleft : (Side.goOn l ⟨askLog req rep k, ⟨us, xs ++ ys⟩, none⟩ t').exchanges[k]? =
      some ⟨us, xs ++ ys⟩ := by
    have := exchanges_goOn l ⟨askLog req rep k, ⟨us, xs ++ ys⟩, none⟩ t'
    rwa [length_askLog] at this
  have hright : (Side.goOn r ⟨answerLog req rep k, ⟨xs, us ++ vs⟩, none⟩ t₃).exchanges[k]? =
      some ⟨xs, us ++ vs⟩ := by
    have := exchanges_goOn r ⟨answerLog req rep k, ⟨xs, us ++ vs⟩, none⟩ t₃
    rwa [length_answerLog] at this
  cases hfails with
  | waits hwl hwr => exact not_inStep_of_waits hwl.goOn hwr.goOn hstep
  | unanswered hwl hdone hys hnext =>
    subst hdone hys
    obtain ⟨next, hnext⟩ := hnext
    refine not_inStep_of_waits hwl.goOn ⟨.get next, ?_, Or.inr ⟨rfl, next, rfl⟩⟩ hstep
    dsimp only
    rw [Side.goOn, length_answerLog]
    exact hnext
  | question hdone hys =>
    subst hdone
    have hlog := log_goOn_done r ⟨answerLog req rep k, ⟨xs, us ++ vs⟩, none⟩
    rw [length_answerLog] at hlog
    obtain ⟨e, he, heq⟩ := hstep.right k _ hlog
    obtain rfl := Option.some.inj (hleft.symm.trans he)
    exact hys (List.append_right_eq_self.mp heq)
  | answer hdone hvs =>
    subst hdone
    have hlog := log_goOn_done l ⟨askLog req rep k, ⟨us, xs ++ ys⟩, none⟩
    rw [length_askLog] at hlog
    obtain ⟨e, he, heq⟩ := hstep.left k _ hlog
    obtain rfl := Option.some.inj (hright.symm.trans he)
    exact hvs (List.append_right_eq_self.mp heq)

end Common

end Radare
