import Radare.Model.Word
/-!
# The keyword automaton

`binparse.c` keeps one number for each keyword, `estat`: how many of its
tokens the bytes read last have matched. `update_tlist` reads one byte and
moves every keyword in turn; a keyword whose number reaches `numtok` is
handed to the callback, and a callback that returns 0 ends the turn there
and then, with the number where it is and the keywords behind unmoved.

The number is used as an index before it is checked, and the check lets
`numtok` through. So a keyword's tokens are a map from every index: what
`tl` holds up to `numtok`, and the memory behind them from there on. A
write behind the 300 bytes of `actp` is another matter: `estat` itself
lies there, and the source has no meaning from then on (`overruns`).

The parsing of keywords and the text of names are elsewhere.
-/

namespace Radare

/-- `struct _token`. -/
structure Token where
  mintok : u8
  range : u8
  mask : u8
deriving DecidableEq, Repr

/-- `struct _tokenlist`: a keyword, and how far it has got. -/
structure TokenList where
  /-- The tokens, and the memory behind them. -/
  tl : ℕ → Token
  numtok : ℕ
  estat : ℕ

/-- The size of `actp`. -/
def actpSize : ℕ := 300

/-- An access to one of the two arrays of a keyword. -/
inductive Access where
  | tl (i : ℕ)
  | actp (i : ℕ)
deriving DecidableEq, Repr

/-- The access lies inside its array. -/
def Access.InBounds (numtok : ℕ) : Access → Prop
  | .tl i => i < numtok
  | .actp i => i < actpSize

instance (numtok : ℕ) : DecidablePred (Access.InBounds numtok)
  | .tl i => inferInstanceAs (Decidable (i < numtok))
  | .actp i => inferInstanceAs (Decidable (i < actpSize))

/-- A keyword at rest, with zeros behind its tokens. -/
def TokenList.ofTokens (tl : List Token) : TokenList :=
  ⟨fun k => tl.getD k ⟨0, 0, 0⟩, tl.length, 0⟩

namespace TokenList

variable (tk : TokenList) (inchar : u8)

/-- The index left after the range check, which comes after the first
read and lets `numtok` through. -/
def index : ℕ := if tk.estat > tk.numtok then 0 else tk.estat

/-- The comparison. Its lower end and the kind of the token are read at
the index before the check, the width and the mask after it. -/
def compares : Bool :=
  let cmin := (tk.tl tk.estat).mintok
  if (tk.tl tk.estat).range > 0 then
    let cmax := cmin + (tk.tl tk.index).range
    inchar ≥ cmin ∧ inchar ≤ cmax
  else
    let cmask := (tk.tl tk.index).mask
    inchar &&& cmask = cmin &&& cmask

/-- The number after the byte. -/
def advance : ℕ := if tk.compares inchar then tk.index + 1 else 0

/-- The byte completes the keyword. -/
def completes : Bool := tk.advance inchar = tk.numtok

/-- The accesses of the turn: the three reads, the byte stored in `actp`,
and the two bytes a completed keyword clears there. -/
def accesses : List Access :=
  [.tl tk.estat, .tl tk.estat, .tl tk.index] ++
    (if tk.compares inchar then [.actp tk.index] else []) ++
    (if tk.completes inchar then [.actp (tk.numtok + 1), .actp 0] else [])

/-- The turn writes behind `actp`. -/
def overruns : Bool :=
  (tk.compares inchar ∧ tk.index ≥ actpSize) ∨
    (tk.completes inchar ∧ tk.numtok + 1 ≥ actpSize)

/-- Where the callback is told the keyword was found. -/
def found (where_ : ut64) : ut64 := where_ - (UInt64.ofNat tk.numtok - 1)

end TokenList

/-- `tokenizer.callback`, over the state of whoever supplies it. -/
abbrev Callback (σ : Type) := σ → ℕ → ut64 → σ × ℤ

/-- A callback that accepts every hit. -/
def acceptAll : Callback Unit := fun s _ _ => (s, 0)

/-- A keyword handed to the callback. -/
structure Hit (σ : Type) where
  s : σ
  calls : List (ℕ × ut64)
  /-- The callback has returned 0. -/
  accepted : Bool

variable {σ : Type}

/-- The call of the callback, where there is one. -/
def hit (callback : Option (Callback σ)) (s : σ) (i : ℕ) (p : ut64) : Hit σ :=
  match callback with
  | none => ⟨s, [], false⟩
  | some f =>
    let (s', ret) := f s i p
    ⟨s', [(i, p)], ret = 0⟩

/-- What a call of `update_tlist` does. -/
structure Update (σ : Type) where
  tls : List TokenList
  s : σ
  /-- The hits given to the callback. -/
  calls : List (ℕ × ut64)
  /-- The accesses made, each with the index of its keyword. -/
  accesses : List (ℕ × Access)
  /-- Whether `config.interrupted` is set. -/
  interrupted : Bool
  /-- The value returned; `none` where a turn wrote behind `actp`. -/
  ret : Option ℤ

/-- A turn that goes on to the next keyword, before the turns behind. -/
def Update.after (tk : TokenList) (calls : List (ℕ × ut64)) (accesses : List (ℕ × Access))
    (u : Update σ) : Update σ :=
  { u with tls := tk :: u.tls, calls := calls ++ u.calls, accesses := accesses ++ u.accesses }

/-- The loop of `update_tlist`, from keyword `i` on. -/
def updateLoop (callback : Option (Callback σ)) (inchar : u8) (where_ : ut64) :
    ℕ → σ → List TokenList → Update σ
  | _, s, [] => ⟨[], s, [], [], false, some 0⟩
  | i, s, tk :: rest =>
    let accesses := (tk.accesses inchar).map fun a => (i, a)
    let tk' := { tk with estat := tk.advance inchar }
    if tk.overruns inchar then ⟨tk' :: rest, s, [], accesses, false, none⟩
    else if tk.completes inchar then
      let h := hit callback s i (tk.found where_)
      if h.accepted then ⟨tk' :: rest, h.s, h.calls, accesses, false, some 1⟩
      else (updateLoop callback inchar where_ (i + 1) h.s rest).after
        { tk with estat := 0 } h.calls accesses
    else (updateLoop callback inchar where_ (i + 1) s rest).after tk' [] accesses

/-- `tolower`. -/
def tolower (c : u8) : u8 := if 65 ≤ c ∧ c ≤ 90 then c + 32 else c

/-- The byte compared, under `search_nocase` or not. -/
def fold (nocase : Bool) (inchar : u8) : u8 := if nocase then tolower inchar else inchar

/-- `update_tlist`: -1 without keywords, 1 for a hit the callback has
accepted, 0 otherwise. -/
def updateTlist (nocase : Bool) (callback : Option (Callback σ)) (tls : List TokenList) (s : σ)
    (inchar : u8) (where_ : ut64) : Update σ :=
  if tls = [] then ⟨tls, s, [], [], true, some (-1)⟩
  else updateLoop callback (fold nocase inchar) where_ 0 s tls

/-! ## Runs -/

/-- A tokenizer that has been fed some bytes. -/
structure Search (σ : Type) where
  tls : List TokenList
  s : σ
  calls : List (ℕ × ut64) := []
  accesses : List (ℕ × Access) := []
  /-- No turn has written behind `actp`. -/
  defined : Bool := true

/-- One byte more. -/
def Search.step (nocase : Bool) (callback : Option (Callback σ)) (st : Search σ)
    (inchar : u8) (where_ : ut64) : Search σ :=
  if st.defined then
    let u := updateTlist nocase callback st.tls st.s inchar where_
    ⟨u.tls, u.s, st.calls ++ u.calls, st.accesses ++ u.accesses, u.ret.isSome⟩
  else st

/-- A stream fed byte by byte, its first byte at `base`. -/
def feed (nocase : Bool) (callback : Option (Callback σ)) (tls : List TokenList) (s : σ)
    (base : ut64) (stream : List u8) : Search σ :=
  stream.zipIdx.foldl (fun st (c, k) => st.step nocase callback c (base + UInt64.ofNat k))
    ⟨tls, s, [], [], true⟩

end Radare
