import Mathlib.Logic.Function.Basic
import Radare.Common.Overlay
import Radare.Model.Text
/-!
# The constant pool of a class file

`java_classdump` reads the entries of the pool into `cp_items`, and `get_cp` and
`java_resolve` look them up. A `Long` and a `Double` take two indices. The loop goes on by
three from one, so the entries behind it are one slot too far for each
(`poolRight_iff`); and the bound of the lookups lets one slot through that no entry is
stored in (`not_lookupsRight`).
-/

namespace Radare

open Common

/-- A text as its bytes. -/
def ascii (s : String) : List u8 := s.toList.map fun c => UInt8.ofNat c.toNat

/-- `struct constant_t`. -/
structure Constant where
  name : List u8
  tag : ℤ
  len : ℕ
deriving DecidableEq

/-- `constants`. -/
def constants : List Constant :=
  [⟨ascii "Class", 7, 2⟩, ⟨ascii "FieldRef", 9, 4⟩, ⟨ascii "MethodRef", 10, 4⟩,
    ⟨ascii "InterfaceMethodRef", 11, 4⟩, ⟨ascii "String", 8, 2⟩, ⟨ascii "Integer", 3, 4⟩,
    ⟨ascii "Float", 4, 4⟩, ⟨ascii "Long", 5, 8⟩, ⟨ascii "Double", 6, 8⟩,
    ⟨ascii "NameAndType", 12, 4⟩, ⟨ascii "Utf8", 1, 2⟩]

/-- `struct cp_item`. -/
structure CpItem where
  tag : ℤ
  name : List u8
  value : Option (List u8)
  bytes : List u8
  off : ℕ

/-- `USHORT`. -/
def ushort (x : List u8) (y : ℕ) : ℕ := (x.getD y 0).toNat * 256 + (x.getD (y + 1) 0).toNat

/-- The loop of `java_classdump`: the slot it is at, the buffer, where the file stands and
what there is from there on, and the slots that are filled. -/
structure PoolState where
  i : ℕ
  buf : List u8
  pos : ℕ
  rest : List u8
  items : ℕ → Option CpItem

namespace PoolState

/-- `fread` of so many bytes. -/
def fread (n : ℕ) (s : PoolState) : PoolState :=
  { s with
    buf := Common.overlay s.buf 0 (s.rest.take n)
    pos := s.pos + (s.rest.take n).length
    rest := s.rest.drop n }

/-- The bytes of an entry behind its tag. -/
def freadEntry (c : Constant) (s : PoolState) : PoolState :=
  if c.tag = 1 then
    let s := s.fread 2
    let sz := ushort s.buf 0
    let s := if sz > 0 then s.fread sz else s
    { s with buf := s.buf.set sz 0 }
  else s.fread c.len

/-- An entry of the pool, behind its tag. -/
def entry (c : Constant) (s : PoolState) : PoolState :=
  let off := s.pos - 1
  let s := s.freadEntry c
  let item : CpItem :=
    ⟨c.tag, c.name, if c.tag = 1 then some (cstr s.buf) else none, s.buf.take 5, off⟩
  { s with
    items := Function.update s.items s.i (some item)
    -- the loop adds one more
    i := (if c.tag = 5 ∨ c.tag = 6 then s.i + 2 else s.i) + 1 }

theorem i_freadEntry (c : Constant) (s : PoolState) : (s.freadEntry c).i = s.i := by
  unfold freadEntry
  dsimp only
  split_ifs <;> rfl

theorem items_freadEntry (c : Constant) (s : PoolState) : (s.freadEntry c).items = s.items := by
  unfold freadEntry
  dsimp only
  split_ifs <;> rfl

/-- How far the loop goes on. -/
theorem i_entry (c : Constant) (s : PoolState) :
    (s.entry c).i = s.i + if c.tag = 5 ∨ c.tag = 6 then 3 else 1 := by
  rw [entry]
  dsimp only
  rw [i_freadEntry]
  split_ifs <;> rfl

end PoolState

/-- The loop of `java_classdump` over the pool. There is no result if a tag is not known. -/
def poolLoop (cpCount : ℕ) (s : PoolState) : Option PoolState :=
  if _h : s.i < cpCount then
    match s.rest with
    | [] => some s
    | tag :: _ =>
      match constants.find? (·.tag = (tag.toNat : ℤ)) with
      | none => none
      | some c => poolLoop cpCount ((s.fread 1).entry c)
  else some s
termination_by cpCount - s.i
decreasing_by
  rw [PoolState.i_entry]
  change cpCount - (s.i + _) < cpCount - s.i
  split_ifs <;> omega

/-- What `java_classdump` has of the pool. -/
structure Pool where
  cpCount : ℕ
  state : PoolState

/-- `java_classdump`, up to the end of the pool: where it gets there, what it has. -/
def javaClassdump (buf file : List u8) : Option Pool :=
  let cf := Common.overlay (List.replicate 10 0) 0 (file.take 10)
  if cf.take 4 ≠ [0xca, 0xfe, 0xba, 0xbe] then none
  -- this is a Mach-O
  else if cf.getD 6 0 = cf.getD 7 0 ∧ cf.getD 6 0 = 0 then none
  else
    let cpCount := (UInt16.ofNat (ushort cf 8) - 1).toNat
    (poolLoop cpCount ⟨0, buf, (file.take 10).length, file.drop 10, fun _ => none⟩).map fun s =>
      ⟨cpCount, s⟩

namespace Pool

/-- `get_cp`: a slot of `cp_items`, or none for `cp_null_item`. -/
def getCp (p : Pool) (i : ℤ) : Option ℕ := if i < 0 ∨ i > p.cpCount then none else some i.toNat

/-- `cp_null_item`. -/
def cpNullItem : CpItem := ⟨-1, ascii "(null)", some (ascii "(null)"), List.replicate 5 0, 0⟩

/-- What is in a slot, where `left` is what `malloc` left there. -/
def item (left : ℕ → CpItem) (p : Pool) : Option ℕ → CpItem
  | none => cpNullItem
  | some i => (p.state.items i).getD (left i)

/-- `%s` of a value. -/
def valueText (item : CpItem) : List u8 := item.value.getD (ascii "(null)")

/-- `java_resolve`: the slots it reads, and `str`. -/
def javaResolve (left : ℕ → CpItem) (p : Pool) (idx : ℤ) : List (Option ℕ) × List u8 :=
  if idx < 0 ∨ idx > p.cpCount then ([], [])
  else
    let at_ := p.item left (some idx.toNat)
    if at_.name = ascii "MethodRef" ∨ at_.name = ascii "FieldRef" then
      let cls := p.getCp (ushort (p.item left (p.getCp idx)).bytes 0)
      let classStr := p.getCp (ushort (p.item left cls).bytes 0 - 1)
      let nametStr := p.getCp (ushort (p.item left cls).bytes 2 - 1)
      ([some idx.toNat, p.getCp idx, cls, classStr, nametStr],
        valueText (p.item left classStr) ++ 32 :: valueText (p.item left nametStr))
    else if at_.name = ascii "String" then
      let value := p.getCp (ushort (p.item left (p.getCp idx)).bytes 0 - 1)
      ([some idx.toNat, p.getCp idx, value], 34 :: valueText (p.item left value) ++ [34])
    else if at_.name = ascii "Utf8" then
      ([some idx.toNat, p.getCp idx], 34 :: valueText (p.item left (p.getCp idx)) ++ [34])
    else
      ([some idx.toNat, p.getCp idx],
        [48, 120] ++ hexText 4 (UInt64.ofNat (ushort (p.item left (p.getCp idx)).bytes 0)))

end Pool

/-! ## Class files -/

/-- An entry of the pool, as the format has it. -/
inductive CpEntry where
  | utf8 (text : List u8) (fits : text.length < 2 ^ 16)
  | other (c : Constant) (data : List u8) (known : c ∈ constants) (tag_ne : c.tag ≠ 1)
      (length : data.length = c.len)

namespace CpEntry

def constant : CpEntry → Constant
  | utf8 _ _ => ⟨ascii "Utf8", 1, 2⟩
  | other c _ _ _ _ => c

/-- What is behind the tag. -/
def data : CpEntry → List u8
  | utf8 text _ => UInt8.ofNat (text.length / 256) :: UInt8.ofNat text.length :: text
  | other _ data _ _ _ => data

def bytes (e : CpEntry) : List u8 := UInt8.ofNat e.constant.tag.toNat :: e.data

/-- It takes two indices. -/
def Wide (e : CpEntry) : Prop := e.constant.tag = 5 ∨ e.constant.tag = 6

instance (e : CpEntry) : Decidable e.Wide := inferInstanceAs (Decidable (_ ∨ _))

def width (e : CpEntry) : ℕ := if e.Wide then 2 else 1

/-- The item is that of the entry, which is at an offset of the file. -/
structure Stored (e : CpEntry) (off : ℕ) (item : CpItem) : Prop where
  tag : item.tag = e.constant.tag
  name : item.name = e.constant.name
  off : item.off = off
  value : item.value = match e with
    | utf8 text _ => some (cstr text)
    | other _ _ _ _ _ => none
  bytes : ∀ c data known tag_ne length, e = other c data known tag_ne length →
    item.bytes.take data.length = data.take 5

end CpEntry

/-- The indices that entries take. -/
def poolWidth : List CpEntry → ℕ
  | [] => 0
  | e :: es => e.width + poolWidth es

/-- A class file. -/
structure ClassFile where
  minor0 : u8
  minor1 : u8
  major0 : u8
  major1 : u8
  entries : List CpEntry
  rest : List u8
  fits : 1 + poolWidth entries < 2 ^ 16
  version : ¬(major0 = major1 ∧ major0 = 0)

namespace ClassFile

/-- The count in the header. -/
def count (f : ClassFile) : ℕ := 1 + poolWidth f.entries

def bytes (f : ClassFile) : List u8 :=
  [0xca, 0xfe, 0xba, 0xbe, f.minor0, f.minor1, f.major0, f.major1, UInt8.ofNat (f.count / 256),
    UInt8.ofNat f.count] ++ (f.entries.flatMap CpEntry.bytes ++ f.rest)

/-- The loop reads the pool and nothing else, and the entry with the index `k` is stored in
the slot `k - 1`. -/
def PoolRight (f : ClassFile) (buf : List u8) : Prop :=
  ∃ p, javaClassdump buf f.bytes = some p ∧ p.state.rest = f.rest ∧
    ∀ pre e post, f.entries = pre ++ e :: post → ∃ item,
      p.state.items (1 + poolWidth pre - 1) = some item ∧
      e.Stored (10 + (pre.flatMap CpEntry.bytes).length) item

/-- What is looked up for an index below the count is in a slot that is filled, or the null
item. -/
def LookupsRight (f : ClassFile) (left : ℕ → CpItem) (buf : List u8) : Prop :=
  ∃ p, javaClassdump buf f.bytes = some p ∧ ∀ i < (f.count : ℤ),
    ∀ slot, slot = p.getCp i ∨ slot ∈ (p.javaResolve left i).1 →
      slot = none ∨ ∃ n, slot = some n ∧ (p.state.items n).isSome

/-- No entry is behind one that takes two indices. -/
def NoneBehindWide (es : List CpEntry) : Prop :=
  ∀ pre e post, es = pre ++ e :: post → e.Wide → post = []

end ClassFile

/-! ## Reading an entry -/

section Entry

variable {s : PoolState} {cpCount i : ℕ} {e : CpEntry} {data rest text : List u8} {c : Constant}

/-- **What there is is read.** -/
theorem fread_of_rest (h : s.rest = data ++ rest) :
    s.fread data.length =
      { s with buf := data ++ s.buf.drop data.length, pos := s.pos + data.length, rest := rest } := by
  have htake : s.rest.take data.length = data := by rw [h, List.take_left]
  have hdrop : s.rest.drop data.length = rest := by rw [h, List.drop_left]
  rw [PoolState.fread, htake, hdrop, Common.overlay, List.take_zero, List.nil_append, Nat.zero_add]

theorem length_front (data : List u8) (hle : data.length ≤ s.buf.length) :
    (data ++ s.buf.drop data.length).length = s.buf.length := by
  rw [List.length_append, List.length_drop]
  omega

/-- A number as two bytes. -/
theorem ushort_two {n : ℕ} (hn : n < 2 ^ 16) (l : List u8) :
    ushort (UInt8.ofNat (n / 256) :: UInt8.ofNat n :: l) 0 = n := by
  change (UInt8.ofNat (n / 256)).toNat * 256 + (UInt8.ofNat n).toNat = n
  rw [UInt8.toNat_ofNat', UInt8.toNat_ofNat']
  omega

/-- The tag is that of the entry's kind. -/
theorem find_constant (e : CpEntry) :
    constants.find? (·.tag = ((UInt8.ofNat e.constant.tag.toNat).toNat : ℤ)) = some e.constant := by
  have hall : ∀ c ∈ constants,
      constants.find? (·.tag = ((UInt8.ofNat c.tag.toNat).toNat : ℤ)) = some c := by decide +kernel
  cases e with
  | utf8 text fits => exact hall ⟨ascii "Utf8", 1, 2⟩ (by decide)
  | other c data known tag_ne length => exact hall c known

/-- The buffer and the file behind an entry. -/
structure EntryRead (s s' : PoolState) (e : CpEntry) (rest : List u8) : Prop where
  buf : s'.buf.length = s.buf.length
  pos : s'.pos = s.pos + e.data.length
  rest : s'.rest = rest
  value : ∀ text fits, e = .utf8 text fits → cstr s'.buf = cstr text
  bytes : ∀ c data known tag_ne length, e = .other c data known tag_ne length →
    (s'.buf.take 5).take data.length = data.take 5

theorem cstr_append_zero : cstr (text ++ 0 :: rest) = cstr text := by
  rw [cstr, cstr]
  induction text with
  | nil => rfl
  | cons c text ih =>
    rw [List.cons_append, List.takeWhile_cons, List.takeWhile_cons, ih]

/-- A text behind its length, with a NUL put at its end. -/
theorem freadEntry_utf8 {n : ℕ} (hn : n = text.length) (fits : n < 2 ^ 16)
    (h : s.rest = [UInt8.ofNat (n / 256), UInt8.ofNat n] ++ (text ++ rest))
    (hbuf : s.buf.length = 0x10000) (htag : c.tag = 1) :
    ∃ behind, (text ++ 0 :: behind).length = 0x10000 ∧ s.freadEntry c =
      { s with buf := text ++ 0 :: behind, pos := s.pos + 2 + n, rest := rest } := by
  have htwo : s.fread 2 = { s with
      buf := [UInt8.ofNat (n / 256), UInt8.ofNat n] ++ s.buf.drop 2
      pos := s.pos + 2
      rest := text ++ rest } := fread_of_rest h
  have hlength : (s.fread 2).buf.length = 0x10000 := by
    rw [htwo]
    exact (length_front [_, _] (show 2 ≤ s.buf.length by omega)).trans hbuf
  have hsz : ushort (s.fread 2).buf 0 = n := by
    rw [htwo]
    exact ushort_two fits _
  have htext : (if n > 0 then (s.fread 2).fread n else s.fread 2) = { s.fread 2 with
      buf := text ++ (s.fread 2).buf.drop n
      pos := (s.fread 2).pos + n
      rest := rest } := by
    have hrest : (s.fread 2).rest = text ++ rest := by rw [htwo]
    split_ifs with hpos
    · rw [hn]
      exact fread_of_rest hrest
    · obtain rfl : text = [] := List.length_eq_zero_iff.mp (by omega)
      rw [List.nil_append, List.length_nil] at *
      subst hn
      rw [← hrest]
      rfl
  -- there is room for the NUL
  obtain ⟨x, behind, hbehind⟩ : ∃ x behind, (s.fread 2).buf.drop n = x :: behind :=
    List.exists_cons_of_ne_nil fun hnil => by
      have := List.drop_eq_nil_iff.mp hnil
      omega
  have hend := congrArg List.length hbehind
  rw [List.length_drop, List.length_cons] at hend
  refine ⟨behind, ?_, ?_⟩
  · rw [List.length_append, List.length_cons]
    omega
  · rw [PoolState.freadEntry, if_pos htag]
    dsimp only
    rw [hsz, htext, hbehind, hn, set_front, htwo]

/-- **An entry is read as a whole.** -/
theorem freadEntry_read (h : s.rest = e.data ++ rest) (hbuf : s.buf.length = 0x10000) :
    EntryRead s (s.freadEntry e.constant) e rest := by
  cases e with
  | other c data known tag_ne length =>
    have hle : c.len ≤ 8 := by
      have hall : ∀ c ∈ constants, c.len ≤ 8 := by decide
      exact hall c known
    have hrun : s.freadEntry c = s.fread data.length := by
      rw [PoolState.freadEntry, if_neg tag_ne, length]
    have hdata : s.rest = data ++ rest := h
    change EntryRead s (s.freadEntry c) _ rest
    rw [hrun, fread_of_rest hdata]
    refine ⟨length_front _ (by omega), rfl, rfl, nofun, fun c' data' _ _ _ heq => ?_⟩
    obtain ⟨rfl, rfl⟩ := (CpEntry.other.injEq ..).mp heq
    rw [List.take_take, Nat.min_comm, ← List.take_take, List.take_left]
  | utf8 text fits =>
    obtain ⟨behind, hlength, hrun⟩ := freadEntry_utf8 (c := ⟨ascii "Utf8", 1, 2⟩) rfl fits h hbuf rfl
    change EntryRead s (s.freadEntry ⟨ascii "Utf8", 1, 2⟩) _ rest
    rw [hrun]
    refine ⟨hlength.trans hbuf.symm, ?_, rfl, fun text' fits' heq => ?_, nofun⟩
    · change s.pos + 2 + text.length = s.pos + (text.length + 2)
      omega
    · obtain rfl := (CpEntry.utf8.injEq ..).mp heq
      exact cstr_append_zero

/-! ## The loop -/

/-- The loop behind an entry. -/
structure PoolNext (s s' : PoolState) (e : CpEntry) (rest : List u8) : Prop where
  i : s'.i = s.i + if e.Wide then 3 else 1
  buf : s'.buf.length = 0x10000
  pos : s'.pos = s.pos + e.bytes.length
  rest : s'.rest = rest
  items : ∃ item, s'.items = Function.update s.items s.i (some item) ∧ e.Stored s.pos item

/-- **An entry is stored in the slot the loop is at.** -/
theorem poolLoop_entry (cpCount : ℕ) (hi : s.i < cpCount) (h : s.rest = e.bytes ++ rest)
    (hbuf : s.buf.length = 0x10000) :
    ∃ s', poolLoop cpCount s = poolLoop cpCount s' ∧ PoolNext s s' e rest := by
  have htag : s.rest = [UInt8.ofNat e.constant.tag.toNat] ++ (e.data ++ rest) := h
  have hone : s.fread 1 = { s with
      buf := [UInt8.ofNat e.constant.tag.toNat] ++ s.buf.drop 1
      pos := s.pos + 1
      rest := e.data ++ rest } := fread_of_rest htag
  have hlength : (s.fread 1).buf.length = 0x10000 := by
    rw [hone]
    exact (length_front [_] (show 1 ≤ s.buf.length by omega)).trans hbuf
  have hread : EntryRead (s.fread 1) ((s.fread 1).freadEntry e.constant) e rest :=
    freadEntry_read (by rw [hone]) hlength
  have hpos : (s.fread 1).pos = s.pos + 1 := by rw [hone]
  refine ⟨(s.fread 1).entry e.constant, ?_, ?_, ?_, ?_, hread.rest, ?_⟩
  · rw [poolLoop, dif_pos hi, htag]
    change (match constants.find? (·.tag = ((UInt8.ofNat e.constant.tag.toNat).toNat : ℤ)) with
      | none => none
      | some c => poolLoop cpCount ((s.fread 1).entry c)) = _
    rw [find_constant]
  · rw [PoolState.i_entry]
    rfl
  · exact hread.buf.trans hlength
  · change ((s.fread 1).freadEntry e.constant).pos = _
    rw [hread.pos, hpos, CpEntry.bytes, List.length_cons, Nat.add_assoc, Nat.add_comm 1]
  · have hitems : ((s.fread 1).entry e.constant).items = Function.update
        ((s.fread 1).freadEntry e.constant).items ((s.fread 1).freadEntry e.constant).i _ := rfl
    rw [PoolState.items_freadEntry, PoolState.i_freadEntry] at hitems
    refine ⟨_, hitems, rfl, rfl, ?_, ?_, ?_⟩
    · change (s.fread 1).pos - 1 = s.pos
      rw [hpos, Nat.add_sub_cancel]
    · cases e with
      | utf8 text fits => exact congrArg some (hread.value text fits rfl)
      | other c data known tag_ne length => exact if_neg tag_ne
    · exact hread.bytes

theorem poolLoop_done (hi : cpCount ≤ s.i) : poolLoop cpCount s = some s := by
  rw [poolLoop, dif_neg (by omega)]

/-- **What is stored is stored from where the loop is on, and in front of the count.** -/
theorem poolLoop_frame {s' : PoolState} (h : poolLoop cpCount s = some s')
    (hi : i < s.i ∨ cpCount ≤ i) : s'.items i = s.items i := by
  induction hd : cpCount - s.i using Nat.strong_induction_on generalizing s with
  | _ d ih =>
    rw [poolLoop] at h
    split at h
    · rename_i hlt
      split at h
      · exact Option.some.inj h ▸ rfl
      · split at h
        · exact absurd h.symm (Option.some_ne_none _)
        · rename_i c _
          have hnext := PoolState.i_entry c (s.fread 1)
          have hsame : (s.fread 1).i = s.i := rfl
          have hfar : s.i < ((s.fread 1).entry c).i := by
            rw [hnext, hsame]
            split_ifs <;> omega
          have hitems : ((s.fread 1).entry c).items i = s.items i := by
            change Function.update ((s.fread 1).freadEntry c).items
              ((s.fread 1).freadEntry c).i _ i = _
            rw [PoolState.items_freadEntry, PoolState.i_freadEntry, Function.update_of_ne]
            · rfl
            · rw [hsame]
              omega
          exact (ih _ (by omega) h (by omega) rfl).trans hitems
    · exact Option.some.inj h ▸ rfl

/-! ## The pool -/

variable {es : List CpEntry} {s' : PoolState}

theorem noneBehindWide_cons (h : ClassFile.NoneBehindWide (e :: es)) :
    ClassFile.NoneBehindWide es := fun pre e' post heq => h (e :: pre) e' post (by rw [heq]; rfl)

/-- A list taken apart behind its first entry, or in front of it. -/
theorem cons_eq_append {pre post : List CpEntry} {e' : CpEntry}
    (heq : e :: es = pre ++ e' :: post) :
    pre = [] ∧ e = e' ∧ es = post ∨ ∃ pre', pre = e :: pre' ∧ es = pre' ++ e' :: post := by
  cases pre with
  | nil => exact .inl ⟨rfl, List.cons.inj heq⟩
  | cons e₀ pre' =>
    obtain ⟨rfl, htail⟩ := List.cons.inj heq
    exact .inr ⟨pre', rfl, htail⟩

/-- **A pool without entries behind wide ones is stored as it should be.** -/
theorem poolLoop_right (hnone : ClassFile.NoneBehindWide es)
    (hi : s.i + poolWidth es = cpCount) (h : s.rest = es.flatMap CpEntry.bytes ++ rest)
    (hbuf : s.buf.length = 0x10000) :
    ∃ s', poolLoop cpCount s = some s' ∧ s'.rest = rest ∧
      ∀ pre e post, es = pre ++ e :: post → ∃ item,
        s'.items (s.i + poolWidth pre) = some item ∧
        e.Stored (s.pos + (pre.flatMap CpEntry.bytes).length) item := by
  induction es generalizing s with
  | nil =>
    refine ⟨s, poolLoop_done (Nat.le_of_eq hi.symm), h, fun pre e post heq => ?_⟩
    exact absurd heq.symm (List.append_ne_nil_of_right_ne_nil _ (List.cons_ne_nil _ _))
  | cons e es ih =>
    have hwidth : 1 ≤ e.width := by
      unfold CpEntry.width
      split_ifs <;> omega
    change s.i + (e.width + poolWidth es) = cpCount at hi
    rw [List.flatMap_cons, List.append_assoc] at h
    obtain ⟨s₁, hstep, hnext⟩ := poolLoop_entry cpCount (by omega) h hbuf
    obtain ⟨item, hitems, hstored⟩ := hnext.items
    have hrun : ∃ s', poolLoop cpCount s₁ = some s' ∧ s'.rest = rest ∧
        ∀ pre e' post, es = pre ++ e' :: post → ∃ item,
          s'.items (s.i + (e.width + poolWidth pre)) = some item ∧
          e'.Stored (s.pos + (e.bytes.length + (pre.flatMap CpEntry.bytes).length)) item := by
      by_cases hwide : e.Wide
      · -- it is the last one
        obtain rfl : es = [] := hnone [] e es rfl hwide
        have hend : cpCount ≤ s₁.i := by
          rw [hnext.i, if_pos hwide]
          rw [CpEntry.width, if_pos hwide] at hi
          change s.i + (2 + 0) = cpCount at hi
          omega
        refine ⟨s₁, poolLoop_done hend, hnext.rest, fun pre e' post heq => ?_⟩
        exact absurd heq.symm (List.append_ne_nil_of_right_ne_nil _ (List.cons_ne_nil _ _))
      · have hone : e.width = 1 := if_neg hwide
        have hi₁ : s₁.i = s.i + 1 := by rw [hnext.i, if_neg hwide]
        obtain ⟨s', hrun, hrest, hall⟩ := ih (noneBehindWide_cons hnone) (by omega) hnext.rest hnext.buf
        refine ⟨s', hrun, hrest, fun pre e' post heq => ?_⟩
        rw [hone, ← Nat.add_assoc, ← Nat.add_assoc, ← hi₁, ← hnext.pos]
        exact hall pre e' post heq
    obtain ⟨s', hrun, hrest, hall⟩ := hrun
    refine ⟨s', hstep.trans hrun, hrest, fun pre e' post heq => ?_⟩
    obtain ⟨rfl, rfl, -⟩ | ⟨pre', rfl, heq'⟩ := cons_eq_append heq
    · refine ⟨item, ?_, hstored⟩
      change s'.items s.i = some item
      have hfar : s.i < s₁.i := by
        rw [hnext.i]
        split_ifs <;> omega
      rw [poolLoop_frame hrun (.inl hfar), hitems]
      exact Function.update_self ..
    · rw [List.flatMap_cons, List.length_append]
      exact hall pre' e' post heq'

/-- **In any other an entry is missing from its slot.** -/
theorem poolLoop_skips (hsome : ¬ClassFile.NoneBehindWide es)
    (hi : s.i + poolWidth es ≤ cpCount) (h : s.rest = es.flatMap CpEntry.bytes ++ rest)
    (hbuf : s.buf.length = 0x10000) (hrun : poolLoop cpCount s = some s') :
    ∃ pre e post, es = pre ++ e :: post ∧
      s'.items (s.i + poolWidth pre) = s.items (s.i + poolWidth pre) := by
  induction es generalizing s with
  | nil =>
    refine absurd (fun pre e post heq _ => ?_) hsome
    exact absurd heq.symm (List.append_ne_nil_of_right_ne_nil _ (List.cons_ne_nil _ _))
  | cons e es ih =>
    have hwidth : 1 ≤ e.width := by
      unfold CpEntry.width
      split_ifs <;> omega
    change s.i + (e.width + poolWidth es) ≤ cpCount at hi
    rw [List.flatMap_cons, List.append_assoc] at h
    obtain ⟨s₁, hstep, hnext⟩ := poolLoop_entry cpCount (by omega) h hbuf
    obtain ⟨item, hitems, hstored⟩ := hnext.items
    rw [hstep] at hrun
    by_cases hwide : e.Wide
    · have htwo : e.width = 2 := if_pos hwide
      cases es with
      | nil =>
        refine absurd (fun pre e' post heq _ => ?_) hsome
        obtain ⟨-, -, rfl⟩ | ⟨pre', -, heq⟩ := cons_eq_append heq
        · rfl
        · exact absurd heq.symm (List.append_ne_nil_of_right_ne_nil _ (List.cons_ne_nil _ _))
      | cons e' es =>
        -- the loop goes on behind the slot of the next one
        refine ⟨[e], e', es, rfl, ?_⟩
        change s'.items (s.i + (e.width + 0)) = s.items (s.i + (e.width + 0))
        rw [htwo, poolLoop_frame hrun (.inl (by rw [hnext.i, if_pos hwide]; omega)), hitems,
          Function.update_of_ne (by omega)]
    · have hi₁ : s₁.i = s.i + 1 := by rw [hnext.i, if_neg hwide]
      have hone : e.width = 1 := if_neg hwide
      have hsome' : ¬ClassFile.NoneBehindWide es := by
        intro hes
        refine hsome fun pre e' post heq hwide' => ?_
        obtain ⟨-, rfl, -⟩ | ⟨pre', -, heq⟩ := cons_eq_append heq
        · exact absurd hwide' hwide
        · exact hes pre' e' post heq hwide'
      obtain ⟨pre, e', post, rfl, hsame⟩ := ih hsome' (by omega) hnext.rest hnext.buf hrun
      refine ⟨e :: pre, e', post, rfl, ?_⟩
      change s'.items (s.i + (e.width + poolWidth pre)) = s.items (s.i + (e.width + poolWidth pre))
      rw [hone, ← Nat.add_assoc, ← hi₁, hsame, hitems, Function.update_of_ne (by omega)]

end Entry

namespace ClassFile

variable {f : ClassFile} {buf : List u8} {left : ℕ → CpItem}

/-- Behind the header. -/
def poolStart (f : ClassFile) (buf : List u8) : PoolState :=
  ⟨0, buf, 10, f.entries.flatMap CpEntry.bytes ++ f.rest, fun _ => none⟩

theorem javaClassdump_bytes (f : ClassFile) (buf : List u8) :
    javaClassdump buf f.bytes = (poolLoop (poolWidth f.entries) (f.poolStart buf)).map fun s =>
      ⟨poolWidth f.entries, s⟩ := by
  have hfits := f.fits
  have hcount : f.count = 1 + poolWidth f.entries := rfl
  have htake : f.bytes.take 10 = [0xca, 0xfe, 0xba, 0xbe, f.minor0, f.minor1, f.major0, f.major1,
    UInt8.ofNat (f.count / 256), UInt8.ofNat f.count] := rfl
  have hover : Common.overlay (List.replicate 10 0) 0 (f.bytes.take 10) = f.bytes.take 10 := rfl
  have hshort : ushort (f.bytes.take 10) 8 = f.count := ushort_two (by omega) []
  have hsub : (UInt16.ofNat f.count - 1).toNat = poolWidth f.entries := by
    rw [UInt16.toNat_sub, UInt16.toNat_ofNat', hcount]
    change (2 ^ 16 - 1 + (1 + poolWidth f.entries) % 2 ^ 16) % 2 ^ 16 = _
    omega
  have hversion : ¬((f.bytes.take 10).getD 6 0 = (f.bytes.take 10).getD 7 0 ∧
      (f.bytes.take 10).getD 6 0 = 0) := f.version
  have hmagic : (f.bytes.take 10).take 4 = [0xca, 0xfe, 0xba, 0xbe] := rfl
  rw [javaClassdump, hover]
  dsimp only
  rw [if_neg (not_not.mpr hmagic), if_neg hversion, hshort, hsub]
  rfl

/-- **The pool is read and stored as it should be just where no entry is behind a wide one.** -/
theorem poolRight_iff (hbuf : buf.length = 0x10000) :
    f.PoolRight buf ↔ NoneBehindWide f.entries := by
  rw [PoolRight, javaClassdump_bytes]
  constructor
  · rintro ⟨p, hp, -, hall⟩
    by_contra hsome
    obtain ⟨s', hrun, rfl⟩ := Option.map_eq_some_iff.mp hp
    obtain ⟨pre, e, post, heq, hsame⟩ := poolLoop_skips (s := f.poolStart buf) hsome
      (Nat.le_of_eq (Nat.zero_add _)) rfl hbuf hrun
    obtain ⟨item, hitem, -⟩ := hall pre e post heq
    have hslot : (f.poolStart buf).i + poolWidth pre = 1 + poolWidth pre - 1 := by
      rw [Nat.add_sub_cancel_left]
      exact Nat.zero_add _
    rw [hslot] at hsame
    exact Option.some_ne_none item (hitem.symm.trans hsame)
  · intro hnone
    obtain ⟨s', hrun, hrest, hall⟩ := poolLoop_right (s := f.poolStart buf) hnone
      (Nat.zero_add _) rfl hbuf
    refine ⟨_, by rw [hrun]; rfl, hrest, fun pre e post heq => ?_⟩
    obtain ⟨item, hitem, hstored⟩ := hall pre e post heq
    rw [Nat.add_sub_cancel_left]
    exact ⟨item, (congrArg s'.items (Nat.zero_add _)).symm.trans hitem, hstored⟩

/-- **The last slot is looked up, and never filled.** -/
theorem not_lookupsRight (f : ClassFile) (left : ℕ → CpItem) (buf : List u8) :
    ¬f.LookupsRight left buf := by
  rintro ⟨p, hp, hall⟩
  rw [javaClassdump_bytes] at hp
  obtain ⟨s', hrun, rfl⟩ := Option.map_eq_some_iff.mp hp
  have hin : ¬((poolWidth f.entries : ℤ) < 0 ∨ (poolWidth f.entries : ℤ) > poolWidth f.entries) := by
    omega
  have hlast : (⟨poolWidth f.entries, s'⟩ : Pool).getCp (poolWidth f.entries) =
      some (poolWidth f.entries) := if_neg hin
  have hcount : (poolWidth f.entries : ℤ) < f.count := by
    rw [count]
    omega
  obtain hnull | ⟨n, hn, hsome⟩ := hall _ hcount _ (.inl rfl)
  · exact Option.some_ne_none _ (hlast.symm.trans hnull)
  · obtain rfl := Option.some.inj (hlast.symm.trans hn)
    rw [poolLoop_frame hrun (.inr (Nat.le_refl _))] at hsome
    exact Bool.false_ne_true hsome

/-- **The pool is stored as it should be just where no entry is behind a wide one, and what is
looked up in it is never all stored.** -/
theorem pool_never_right (f : ClassFile) (left : ℕ → CpItem) (buf : List u8)
    (hbuf : buf.length = 0x10000) :
    ¬(f.PoolRight buf ∧ f.LookupsRight left buf) ∧
      (f.PoolRight buf ↔ NoneBehindWide f.entries) ∧ ¬f.LookupsRight left buf :=
  ⟨fun h => not_lookupsRight f left buf h.2, poolRight_iff hbuf, not_lookupsRight f left buf⟩

/-! ### A class file with a `Long` in front of a text -/

theorem longThenText_known : (⟨ascii "Long", 5, 8⟩ : Constant) ∈ constants := by decide

/-- The number one, and the text `"A"` with the index three. -/
def longThenText : ClassFile where
  minor0 := 0
  minor1 := 0
  major0 := 0
  major1 := 50
  entries := [.other ⟨ascii "Long", 5, 8⟩ [0, 0, 0, 0, 0, 0, 0, 1] longThenText_known nofun rfl,
    .utf8 [65] (by decide)]
  rest := []
  fits := by decide
  version := by decide

theorem longThenText_not_noneBehindWide : ¬NoneBehindWide longThenText.entries := by
  intro h
  exact List.cons_ne_nil _ _ (h [] _ _ rfl (.inl rfl))

/-- The text is not in the slot of its index, and the slot of the last index is read without
anything in it. -/
theorem longThenText_wrong :
    ¬longThenText.PoolRight (List.replicate 0x10000 0) ∧
      ¬longThenText.LookupsRight (fun _ => Pool.cpNullItem) (List.replicate 0x10000 0) := by
  refine ⟨fun h => ?_, not_lookupsRight _ _ _⟩
  exact longThenText_not_noneBehindWide ((poolRight_iff List.length_replicate).mp h)

theorem pool_never_right_longThenText :
    (List.replicate 0x10000 (0 : u8)).length = 0x10000 ∧
      ¬(longThenText.PoolRight (List.replicate 0x10000 0) ∧
        longThenText.LookupsRight (fun _ => Pool.cpNullItem) (List.replicate 0x10000 0)) :=
  ⟨List.length_replicate,
    (pool_never_right longThenText (fun _ => Pool.cpNullItem) (List.replicate 0x10000 0)
      List.length_replicate).1⟩

end ClassFile

end Radare
