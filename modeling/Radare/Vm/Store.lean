import Radare.Common.Lines
import Radare.Vm.Alias
/-!
# Stores and copies

`vm_eval_eq` has a branch for each way in which memory is assigned to: a store of a
number, one with a size in front of the address, and a copy. With cached memory each
is a write of a record (`vmEval_store`, `vmEval_sized`, `vmEval_copy`), but only the first
one writes the number to the address. The second one looks for the size in the value
and writes an array that nothing was put into, and the third one writes back to where
it has read. And of what is written, as much is read as no older record answers
(`vmStores_iff`).
-/

namespace Radare

open Common

/-- A number as it is written, that `sscanf` reads as what it is. -/
structure Numeral extends Literal where
  fits : toLiteral.val < toLiteral.bound

/-- The number. -/
def Numeral.value (x : Numeral) : ut64 := UInt64.ofNat x.toLiteral.val

/-- The sizes that can be in front of an address, in bytes. -/
inductive StoreSize where
  | one
  | two
  | four
  | eight
deriving DecidableEq

namespace StoreSize

/-- How many bytes. -/
def bytes : StoreSize → ℕ
  | one => 1
  | two => 2
  | four => 4
  | eight => 8

/-- How it is written, in bits. -/
def text (n : StoreSize) : List u8 := decText 0 (8 * n.bytes)

end StoreSize

/-- `[a]=v` -/
def storeText (a v : Numeral) : List u8 := 91 :: a.text ++ 93 :: 61 :: v.text

/-- `[n:a]=v` -/
def sizedText (n : StoreSize) (a v : Numeral) : List u8 :=
  91 :: (n.text ++ 58 :: a.text) ++ 93 :: 61 :: v.text

/-- `[a]=[b]` -/
def copyText (a b : Numeral) : List u8 := 91 :: a.text ++ 93 :: 61 :: 91 :: (b.text ++ [93])

/-- Memory is cached. -/
structure Vm.Cached (vm : Vm) : Prop where
  now : vm.mem.realio = false
  later : vm.vmRealio = false

/-- So many bytes at an address, as they are read. -/
def Vm.bytesAt (env : VmEnv) (vm : Vm) (a : ut64) (n : ℕ) : List u8 :=
  (vmMmuRead env.behind vm.mem a (List.replicate n 0)).2.1

/-- `[a]=v` makes the four bytes at `a` read back the number. -/
def StoresWord (env : VmEnv) (vm : Vm) (a v : Numeral) : Prop :=
  ∃ vm', vmEval env (vmScripted env) vm (storeText a v) = some vm' ∧
    vm'.bytesAt env a.value 4 = bytesOf 4 v.value.toNat

/-- `[n:a]=v` writes as many bytes of the number at `a`, and no more, and they are read
back. -/
def StoresSized (env : VmEnv) (vm : Vm) (n : StoreSize) (a v : Numeral) : Prop :=
  ∃ vm', vmEval env (vmScripted env) vm (sizedText n a v) = some vm' ∧
    vm' = vm.write env a.value (bytesOf n.bytes v.value.toNat) ∧
    vm'.bytesAt env a.value n.bytes = bytesOf n.bytes v.value.toNat

/-- `[a]=[b]` makes the four bytes at `a` those at `b`, and keeps these. -/
def CopiesWord (env : VmEnv) (vm : Vm) (a b : Numeral) : Prop :=
  ∃ vm', vmEval env (vmScripted env) vm (copyText a b) = some vm' ∧
    vm'.bytesAt env a.value 4 = vm'.bytesAt env b.value 4 ∧
    vm'.bytesAt env b.value 4 = vm.bytesAt env b.value 4

/-- No record in the cache keeps bytes that are written from being read back. -/
def Vm.ReadsBack (env : VmEnv) (vm : Vm) (a : ut64) (data : List u8) : Prop :=
  ∀ old, vmMmuCacheRead env.behind vm.mem.cache a data.length = some old → old = data

variable {env : VmEnv} {acc : VmAccess} {vm : Vm} {l r w val signs : List u8} {c : u8}

/-! ## Statements -/

theorem vmSqueeze_of_notMem (hl : 32 ∉ l) : vmSqueeze l = l := by
  fun_induction vmSqueeze l with
  | case1 c rest ih => exact absurd List.mem_cons_self hl
  | case2 => exact absurd List.mem_cons_self hl
  | case3 c rest _ _ ih => rw [ih fun h => hl (List.mem_cons_of_mem _ h)]
  | case4 => rfl

theorem behindChar_append (hl : c ∉ l) (r : List u8) : behindChar c (l ++ c :: r) = some r := by
  rw [behindChar, if_pos (List.mem_append_right l List.mem_cons_self), dropWhile_ne_cons hl,
    List.tail_cons]

theorem behindChar_none (hl : c ∉ l) : behindChar c l = none := if_neg hl

theorem dropWhile_blank (hl : 32 ∉ l) : l.dropWhile (· = 32) = l := by
  cases l with
  | nil => rfl
  | cons c l =>
    have hc : c ≠ 32 := fun h => hl (h ▸ List.mem_cons_self)
    exact List.dropWhile_cons_of_neg (by simpa using hc)

/-- None of the characters is in the text. -/
def Without (signs str : List u8) : Prop := ∀ c ∈ str, c ∉ signs

/-- What `vm_eval` and `vm_eval_single` look for. -/
def cutSigns : List u8 := [32, 44, 61]

/-- What `vm_get_math` looks for. -/
def mathSigns : List u8 := vmOperators.map Prod.fst

instance decidableWithout (signs str : List u8) : Decidable (Without signs str) :=
  inferInstanceAs (Decidable (∀ c ∈ str, c ∉ signs))

theorem Without.append (hl : Without signs l) (hr : Without signs r) : Without signs (l ++ r) := by
  intro c hc
  rcases List.mem_append.mp hc with hc | hc
  · exact hl c hc
  · exact hr c hc

theorem Without.cons (hc : c ∉ signs) (hl : Without signs l) : Without signs (c :: l) :=
  List.forall_mem_cons.mpr ⟨hc, hl⟩

theorem Without.not_mem (h : Without signs l) (hc : c ∈ signs) : c ∉ l := fun hl => h c hl hc

/-- What is looked for are no brackets. -/
theorem cut_brackets : 91 ∉ cutSigns ∧ 58 ∉ cutSigns ∧ Without cutSigns [93] := by decide +kernel

theorem math_brackets : 58 ∉ mathSigns ∧ Without mathSigns [93] := by decide +kernel

theorem cut_bracketed (hw : Without cutSigns w) : Without cutSigns (91 :: (w ++ [93])) :=
  (hw.append cut_brackets.2.2).cons cut_brackets.1

/-- **One assignment** is evaluated as one. -/
theorem vmEval_assign (hl : Without cutSigns l) (hr : Without cutSigns r) :
    vmEval env acc vm (l ++ 61 :: r) = vmAssign env acc vm.evaluated l r := by
  have hsign : 61 ∉ l := hl.not_mem (by decide)
  have hblank : 32 ∉ l ++ 61 :: r := by
    simp [hl.not_mem (c := 32) (by decide), hr.not_mem (c := 32) (by decide)]
  have hcomma : 44 ∉ l ++ 61 :: r := by
    simp [hl.not_mem (c := 44) (by decide), hr.not_mem (c := 44) (by decide)]
  have hsingle : vmEvalSingle env acc vm.evaluated (l ++ 61 :: r) =
      (vmAssign env acc vm.evaluated l r).map fun vm => (vm, true) := by
    rw [vmEvalSingle]
    dsimp only
    rw [dropWhile_blank hblank, vmSqueeze_of_notMem hblank, behindChar_append hsign,
      takeWhile_ne_cons hsign]
  have hone : vmEvalEach env acc vm.evaluated [l ++ 61 :: r] =
      vmAssign env acc vm.evaluated l r := by
    rw [vmEvalEach, hsingle, Option.bind_map]
    exact Option.bind_fun_some _
  rw [vmEval, List.splitOn_eq_singleton hcomma]
  exact hone

/-- An assignment to memory, of memory or of a number. -/
theorem vmAssign_toMemory (hw : 32 ∉ w) (hval : 32 ∉ val) :
    vmAssign env acc vm (91 :: (w ++ [93])) val =
      if val.head? = some 91 then vmCopy env acc vm val.tail
      else vmStore env acc vm (w ++ [93]) val := by
  have hlast : (91 :: (w ++ [93])).getLast? = some 93 := by
    rw [← List.cons_append, List.getLast?_concat]
  have hptr : 32 ∉ 91 :: (w ++ [93]) := by simp [hw]
  have heq : vmAssign env acc vm (91 :: (w ++ [93])) val =
      vmEvalEq env acc vm (91 :: (w ++ [93])) val := by
    rw [vmAssign, hlast]
    dsimp only
    rw [if_neg (by decide), if_neg (by decide)]
  rw [heq, vmEvalEq]
  dsimp only
  rw [dropWhile_blank hptr, dropWhile_blank hval, List.head?_cons, if_pos rfl, List.tail_cons]

/-! ## Numbers -/

theorem vmGetMath_plain {str : List u8} (hop : Without mathSigns str) :
    vmGetMath env acc vm str = vmGetValue env acc vm str := by
  have hnone : vmOperators.find? (fun o => o.1 ∈ str) = none := by
    refine List.find?_eq_none.mpr fun o ho h => ?_
    exact hop o.1 (of_decide_eq_true h) (List.mem_map_of_mem ho)
  rw [vmGetMath, hnone]

/-- What starts with a digit is a number, and no register. -/
theorem vmGetValue_number {str : List u8} (hc : 48 ≤ c ∧ c ≤ 57) :
    vmGetValue env acc vm (c :: str) = some (vm,
      if decide ((c :: str).take 2 = [48, 120]) then
        (Utils.scanBase 16 ((c :: str).drop 2)).getD 0
      else (Utils.scanDec (c :: str)).getD 0) := by
  have hblank : c ≠ 32 := by
    rintro rfl
    exact absurd hc.1 (by decide)
  have hdollar : c ≠ 36 := by
    rintro rfl
    exact absurd hc.1 (by decide)
  have hdrop : (c :: str).dropWhile (· = 32) = c :: str :=
    List.dropWhile_cons_of_neg (by simpa using hblank)
  have hfront : ((c :: str).head? = some 48 ∧ (c :: str)[1]? = some 120) ↔
      decide ((c :: str).take 2 = [48, 120]) = true := by
    cases str <;> simp
  rw [vmGetValue]
  dsimp only
  rw [hdrop, if_neg (by simp [hdollar]), if_congr hfront rfl rfl]
  split_ifs with hhex hdigit
  · rfl
  · rfl
  · exact absurd (by simpa using hc) hdigit

/-- The first character of a number is a digit. -/
theorem head_text (x : Literal) : ∃ c t, x.text = c :: t ∧ 48 ≤ c ∧ c ≤ 57 := by
  cases hhex : x.hex with
  | true =>
    refine ⟨48, 120 :: x.digits, ?_, by decide⟩
    rw [Literal.text, hhex, if_pos rfl]
  | false =>
    obtain ⟨c, t, hct⟩ := List.exists_cons_of_ne_nil x.text_ne_nil
    exact ⟨c, t, hct, Literal.decimal hhex (hct ▸ List.mem_cons_self)⟩

theorem Numeral.read_eq (x : Numeral) : UInt64.ofNat x.read = x.value := by
  have hle : x.val ≤ x.bound - 1 := Nat.le_sub_one_of_lt x.fits
  rw [Literal.read, Nat.min_eq_left hle]
  rfl

theorem without_text (x : Literal) (hsigns : ∀ c ∈ signs, hexDigit c = none ∧ c ≠ 120) :
    Without signs x.text := by
  intro c hc hsign
  exact Literal.not_mem_text (hsigns c hsign).1 (hsigns c hsign).2 hc

theorem cut_text (x : Literal) : Without cutSigns x.text := without_text x (by decide +kernel)

theorem math_text (x : Literal) : Without mathSigns x.text := without_text x (by decide +kernel)

theorem colon_bracket (x : Literal) : 58 ∉ x.text ++ [93] := by
  intro h
  rcases List.mem_append.mp h with h | h
  · exact Literal.not_mem_text (by decide) (by decide) h
  · exact absurd h (by decide)

theorem endsNumber_bracket : EndsNumber [93] := by
  intro c hc
  obtain rfl := Option.some.inj hc
  decide

/-- **A number is evaluated** up to what is behind it. -/
theorem Numeral.vmGetMath_append (x : Numeral) (hrest : EndsNumber r)
    (hop : Without mathSigns r) :
    vmGetMath env acc vm (x.text ++ r) = some (vm, x.value) := by
  have hscan := x.scan_text_append hrest
  obtain ⟨c, t, hct, hc⟩ := head_text x.toLiteral
  rw [vmGetMath_plain ((math_text x.toLiteral).append hop), hct, List.cons_append,
    vmGetValue_number hc, ← List.cons_append, ← hct, ← apply_ite (fun o => Option.getD o 0), hscan,
    Option.getD_some, x.read_eq]

theorem Numeral.vmGetMath_text (x : Numeral) :
    vmGetMath env acc vm x.text = some (vm, x.value) := by
  have hnil : Without mathSigns [] := fun c hc => by cases hc
  have happend : vmGetMath env acc vm (x.text ++ []) = some (vm, x.value) :=
    x.vmGetMath_append endsNumber_nil hnil
  rwa [List.append_nil] at happend

theorem Numeral.vmGetMath_bracket (x : Numeral) :
    vmGetMath env acc vm (x.text ++ [93]) = some (vm, x.value) :=
  x.vmGetMath_append endsNumber_bracket math_brackets.2

theorem without_size (n : StoreSize) (hsigns : ∀ c ∈ signs, ¬(48 ≤ c ∧ c ≤ 57)) :
    Without signs n.text := fun c hc hsign => hsigns c hsign (of_mem_decText hc)

/-- A size in front of an address is a number too, of no matter here. -/
theorem vmGetMath_size (env : VmEnv) (acc : VmAccess) (vm : Vm) (n : StoreSize) {str : List u8}
    (hop : Without mathSigns str) :
    ∃ x, vmGetMath env acc vm (n.text ++ str) = some (vm, x) := by
  have hsize : ∃ c t, n.text = c :: t ∧ 48 ≤ c ∧ c ≤ 57 := by
    cases n
    · exact ⟨56, [], rfl, by decide⟩
    · exact ⟨49, [54], rfl, by decide⟩
    · exact ⟨51, [50], rfl, by decide⟩
    · exact ⟨54, [52], rfl, by decide⟩
  obtain ⟨c, t, hct, hc⟩ := hsize
  rw [vmGetMath_plain ((without_size n (by decide +kernel)).append hop), hct, List.cons_append,
    vmGetValue_number hc]
  exact ⟨_, rfl⟩

/-! ## The three assignments -/

theorem Vm.Cached.evaluated (h : vm.Cached) : vm.evaluated = vm := by
  have hmem : ({ vm.mem with realio := vm.vmRealio } : VmState) = vm.mem := by
    rw [h.later.trans h.now.symm]
  rw [Vm.evaluated, hmem]

theorem head_text_ne (x : Literal) : x.text.head? ≠ some 91 := by
  intro h
  exact Literal.not_mem_text (by decide) (by decide) (List.mem_of_head? h)

/-- **`[a]=v` writes the number at the address.** -/
theorem vmEval_store (h : vm.Cached) (a v : Numeral) :
    vmEval env acc vm (storeText a v) = some (vm.write env a.value (bytesOf 4 v.value.toNat)) := by
  have htext : storeText a v = 91 :: (a.text ++ [93]) ++ 61 :: v.text := by simp [storeText]
  rw [htext, vmEval_assign (cut_bracketed (cut_text a.toLiteral)) (cut_text v.toLiteral),
    h.evaluated,
    vmAssign_toMemory ((cut_text a.toLiteral).not_mem (by decide))
      ((cut_text v.toLiteral).not_mem (by decide)),
    if_neg (head_text_ne v.toLiteral), vmStore, a.vmGetMath_bracket, Option.bind_some]
  dsimp only
  rw [v.vmGetMath_text, Option.bind_some, behindChar_none (colon_bracket a.toLiteral)]

/-- **`[n:a]=v` writes the array** that nothing is put into, in a size that is in the
value. -/
theorem vmEval_sized (h : vm.Cached) (n : StoreSize) (a v : Numeral) :
    vmEval env acc vm (sizedText n a v) =
      some (vm.write env a.value (malloc env.buf (vmSize (atoi v.text.tail)))) := by
  have htext : sizedText n a v = 91 :: (n.text ++ 58 :: a.text ++ [93]) ++ 61 :: v.text := by
    simp [sizedText]
  have hstr : n.text ++ 58 :: a.text ++ [93] = n.text ++ 58 :: (a.text ++ [93]) := by simp
  have hcut : Without cutSigns (n.text ++ 58 :: a.text) :=
    (without_size n (by decide +kernel)).append
      ((cut_text a.toLiteral).cons cut_brackets.2.1)
  have hop : Without mathSigns (58 :: (a.text ++ [93])) :=
    ((math_text a.toLiteral).append math_brackets.2).cons math_brackets.1
  have hcolon : Without [58] n.text := without_size n (by decide +kernel)
  obtain ⟨x, hx⟩ := vmGetMath_size env acc vm n hop
  rw [htext, vmEval_assign (cut_bracketed hcut) (cut_text v.toLiteral), h.evaluated,
    vmAssign_toMemory (hcut.not_mem (by decide)) ((cut_text v.toLiteral).not_mem (by decide)),
    if_neg (head_text_ne v.toLiteral), vmStore, hstr, hx, Option.bind_some]
  dsimp only
  rw [v.vmGetMath_text, Option.bind_some, behindChar_append (hcolon.not_mem List.mem_cons_self)]
  dsimp only
  rw [a.vmGetMath_bracket, Option.map_some]

/-- **`[a]=[b]` writes back** what is read at `b`. -/
theorem vmEval_copy (env : VmEnv) (acc : VmAccess) (h : vm.Cached) (a b : Numeral) :
    vmEval env acc vm (copyText a b) =
      some ((vm.read env b.value 4).1.write env b.value (vm.bytesAt env b.value 4)) := by
  have htext : copyText a b = 91 :: (a.text ++ [93]) ++ 61 :: 91 :: (b.text ++ [93]) := by
    simp [copyText]
  have hptr : ∀ x : Numeral, Without cutSigns (91 :: (x.text ++ [93])) := fun x =>
    cut_bracketed (cut_text x.toLiteral)
  rw [htext, vmEval_assign (hptr a) (hptr b), h.evaluated,
    vmAssign_toMemory ((cut_text a.toLiteral).not_mem (by decide))
      ((hptr b).not_mem (by decide)),
    List.head?_cons, if_pos rfl, List.tail_cons, vmCopy, b.vmGetMath_bracket, Option.bind_some]
  dsimp only
  rw [behindChar_none (colon_bracket b.toLiteral)]
  rfl

/-! ## Reading back -/

/-- The record of a write. -/
def writeChange (off : ut64) (data : List u8) : VmChange :=
  ⟨off, off + UInt64.ofNat data.length, data⟩

theorem byte_writeChange (behind : VmChange → ℕ → u8) (off : ut64) {data : List u8} {n : ℕ}
    (hlen : data.length = n) :
    (List.range n).map ((writeChange off data).byte behind) = data := by
  rw [← hlen]
  refine List.ext_getElem (by simp) fun k hk hk' => ?_
  rw [List.getElem_map, List.getElem_range]
  exact List.getD_eq_getElem _ _ hk'

/-- What is read of a cache with a record more. -/
theorem vmMmuCacheRead_concat (behind : VmChange → ℕ → u8) (cache : List VmChange)
    (change : VmChange) (x : ut64) (n : ℕ) :
    vmMmuCacheRead behind (cache ++ [change]) x n = (vmMmuCacheRead behind cache x n).or
      (if change.Contains x n then some ((List.range n).map (change.byte behind)) else none) := by
  rw [vmMmuCacheRead, List.find?_append, Option.map_or]
  refine congrArg (Option.or _) ?_
  rw [List.find?_singleton]
  by_cases hin : change.Contains x n
  · rw [if_pos (decide_eq_true hin), if_pos hin, Option.map_some]
  · rw [if_neg (by simpa using hin), if_neg hin, Option.map_none]

theorem write_eq (h : vm.Cached) (off : ut64) (data : List u8) :
    vm.write env off data =
      { vm with mem := { vm.mem with cache := vm.mem.cache ++ [writeChange off data] } } :=
  write_cached h.now off data

theorem bytesAt_cached (h : vm.Cached) (x : ut64) (n : ℕ) : vm.bytesAt env x n =
    (vmMmuCacheRead env.behind vm.mem.cache x n).getD
      (radareReadAt vm.mem.io x (List.replicate n 0)).2 := by
  unfold Vm.bytesAt vmMmuRead
  rw [h.now, if_neg Bool.false_ne_true, List.length_replicate]
  cases vmMmuCacheRead env.behind vm.mem.cache x n <;> rfl

/-- **What is read behind a write**: the write, if it has the bytes and no older
record does, or what was read before. -/
theorem bytesAt_write (h : vm.Cached) (off : ut64) (data : List u8) (x : ut64) (n : ℕ) :
    (vm.write env off data).bytesAt env x n =
      if vmMmuCacheRead env.behind vm.mem.cache x n = none ∧
          (writeChange off data).Contains x n then
        (List.range n).map ((writeChange off data).byte env.behind)
      else vm.bytesAt env x n := by
  have hwritten : Vm.Cached { vm with
      mem := { vm.mem with cache := vm.mem.cache ++ [writeChange off data] } } := ⟨h.now, h.later⟩
  rw [write_eq h, bytesAt_cached hwritten, bytesAt_cached h]
  dsimp only
  rw [vmMmuCacheRead_concat]
  cases hold : vmMmuCacheRead env.behind vm.mem.cache x n with
  | none =>
    rw [Option.none_or]
    by_cases hin : (writeChange off data).Contains x n
    · rw [if_pos hin, if_pos ⟨rfl, hin⟩]
      rfl
    · rw [if_neg hin, if_neg fun hboth => hin hboth.2]
  | some old => rw [Option.some_or, if_neg fun hboth => Option.some_ne_none old hboth.1]

theorem contains_writeChange (off : ut64) (data : List u8) :
    (writeChange off data).Contains off data.length := by
  refine ⟨UInt64.le_refl _, UInt64.le_refl _⟩

/-- **A write is read back** where no older record answers. -/
theorem bytesAt_write_self (env : VmEnv) (h : vm.Cached) (off : ut64) (data : List u8) :
    (vm.write env off data).bytesAt env off data.length =
      (vmMmuCacheRead env.behind vm.mem.cache off data.length).getD data := by
  rw [bytesAt_write h, byte_writeChange env.behind off rfl, bytesAt_cached h]
  cases hold : vmMmuCacheRead env.behind vm.mem.cache off data.length with
  | none => rw [if_pos ⟨rfl, contains_writeChange off data⟩, Option.getD_none]
  | some old =>
    rw [if_neg fun hboth => Option.some_ne_none old hboth.1]
    rfl

theorem readsBack_iff (env : VmEnv) (h : vm.Cached) (off : ut64) (data : List u8) :
    (vm.write env off data).bytesAt env off data.length = data ↔ vm.ReadsBack env off data := by
  rw [bytesAt_write_self env h, Vm.ReadsBack]
  cases vmMmuCacheRead env.behind vm.mem.cache off data.length with
  | none => simp
  | some old => simp

theorem write_inj (h : vm.Cached) {off : ut64} {data data' : List u8} :
    vm.write env off data = vm.write env off data' ↔ data = data' := by
  constructor
  · intro heq
    rw [write_eq h, write_eq h] at heq
    have hcache : vm.mem.cache ++ [writeChange off data] =
        vm.mem.cache ++ [writeChange off data'] :=
      congrArg (fun vm => vm.mem.cache) heq
    exact congrArg VmChange.data (List.singleton_inj.mp (List.append_cancel_left hcache))
  · rintro rfl
    rfl

/-! ## The assignment semantics -/

theorem storesWord_iff (h : vm.Cached) (a v : Numeral) :
    StoresWord env vm a v ↔ vm.ReadsBack env a.value (bytesOf 4 v.value.toNat) := by
  have hback := readsBack_iff env h a.value (bytesOf 4 v.value.toNat)
  rw [length_bytesOf] at hback
  rw [← hback, StoresWord, vmEval_store h]
  constructor
  · rintro ⟨vm', heq, hread⟩
    rwa [← Option.some.inj heq] at hread
  · intro hread
    exact ⟨_, rfl, hread⟩

/-- What is written with a size is right if the size and the array are. -/
theorem malloc_eq_bytesOf {buf : ℕ → u8} {k n m : ℕ} :
    malloc buf k = bytesOf n m ↔ k = n ∧ malloc buf n = bytesOf n m := by
  constructor
  · intro heq
    have hlen : k = n := by rw [← length_malloc buf k, heq, length_bytesOf]
    rw [hlen] at heq
    exact ⟨hlen, heq⟩
  · rintro ⟨rfl, heq⟩
    exact heq

theorem storesSized_iff (h : vm.Cached) (n : StoreSize) (a v : Numeral) :
    StoresSized env vm n a v ↔ (vmSize (atoi v.text.tail) = n.bytes ∧
      malloc env.buf n.bytes = bytesOf n.bytes v.value.toNat) ∧
        vm.ReadsBack env a.value (bytesOf n.bytes v.value.toNat) := by
  have hback := readsBack_iff env h a.value (bytesOf n.bytes v.value.toNat)
  rw [length_bytesOf] at hback
  rw [← hback, ← malloc_eq_bytesOf, StoresSized, vmEval_sized h]
  constructor
  · rintro ⟨vm', heq, hwrite, hread⟩
    rw [← Option.some.inj heq] at hwrite
    have hdata := (write_inj h).mp hwrite
    rw [← Option.some.inj heq, hdata] at hread
    exact ⟨hdata, hread⟩
  · rintro ⟨hdata, hread⟩
    rw [hdata]
    exact ⟨_, rfl, rfl, hread⟩

/-- The VM behind a read of four bytes. -/
def Vm.afterRead (env : VmEnv) (vm : Vm) (b : ut64) : Vm := (vm.read env b 4).1

theorem Vm.Cached.afterRead (env : VmEnv) (h : vm.Cached) (x : ut64) :
    (vm.afterRead env x).Cached ∧ (vm.afterRead env x).mem.cache = vm.mem.cache := by
  have hmem : (vmMmuRead env.behind vm.mem x (List.replicate 4 0)).1.realio = vm.mem.realio ∧
      (vmMmuRead env.behind vm.mem x (List.replicate 4 0)).1.cache = vm.mem.cache := by
    unfold vmMmuRead
    rw [h.now, if_neg Bool.false_ne_true, List.length_replicate]
    cases vmMmuCacheRead env.behind vm.mem.cache x 4 with
    | none => exact ⟨rfl, rfl⟩
    | some data => exact ⟨h.now, rfl⟩
  exact ⟨⟨hmem.1.trans h.now, h.later⟩, hmem.2⟩

theorem length_bytesAt (h : vm.Cached) (x : ut64) (n : ℕ) : (vm.bytesAt env x n).length = n := by
  rw [bytesAt_cached h, vmMmuCacheRead]
  cases vm.mem.cache.find? fun change => change.Contains x n with
  | none => rw [Option.map_none, Option.getD_none, length_radareReadAt, List.length_replicate]
  | some change => rw [Option.map_some, Option.getD_some, List.length_map, List.length_range]

/-- What a copy leaves: the bytes at `b` are as before, and those at `a` are these if the
write has them. -/
theorem bytesAt_copied (env : VmEnv) (h : vm.Cached) (x y : ut64) :
    let vm' := (vm.afterRead env y).write env y (vm.bytesAt env y 4)
    vm'.bytesAt env y 4 = vm.bytesAt env y 4 ∧
      (vm'.bytesAt env x 4 = vm.bytesAt env y 4 ↔
        (vmMmuCacheRead env.behind vm.mem.cache x 4 = none ∧ y ≤ x ∧ x + 4 ≤ y + 4) ∨
          (vm.afterRead env y).bytesAt env x 4 = vm.bytesAt env y 4) := by
  obtain ⟨hread, hcache⟩ := h.afterRead env y
  have hlen : (vm.bytesAt env y 4).length = 4 := length_bytesAt h y 4
  have hin : (writeChange y (vm.bytesAt env y 4)).Contains x 4 ↔ y ≤ x ∧ x + 4 ≤ y + 4 := by
    unfold VmChange.Contains writeChange
    rw [hlen]
    rfl
  have hself := bytesAt_write_self env hread y (vm.bytesAt env y 4)
  rw [hlen, hcache] at hself
  dsimp only
  constructor
  · rw [hself, bytesAt_cached h]
    cases vmMmuCacheRead env.behind vm.mem.cache y 4 <;> rfl
  · rw [bytesAt_write hread, hcache, byte_writeChange env.behind y hlen, ← hin]
    by_cases hwritten : vmMmuCacheRead env.behind vm.mem.cache x 4 = none ∧
        (writeChange y (vm.bytesAt env y 4)).Contains x 4
    · rw [if_pos hwritten]
      exact iff_of_true rfl (Or.inl hwritten)
    · rw [if_neg hwritten, or_iff_right hwritten]

/-- **`[a]=[b]`** is right if the record at `b` has the bytes at `a`, or they are the same
already. -/
theorem copiesWord_iff (h : vm.Cached) (a b : Numeral) :
    CopiesWord env vm a b ↔
      (vmMmuCacheRead env.behind vm.mem.cache a.value 4 = none ∧
        b.value ≤ a.value ∧ a.value + 4 ≤ b.value + 4) ∨
          (vm.afterRead env b.value).bytesAt env a.value 4 = vm.bytesAt env b.value 4 := by
  have hcopy := vmEval_copy env (vmScripted env) h a b
  obtain ⟨hkept, hiff⟩ := bytesAt_copied env h a.value b.value
  rw [CopiesWord, hcopy, ← hiff]
  constructor
  · rintro ⟨vm', heq, hsame, hb⟩
    rw [hb, ← Option.some.inj heq] at hsame
    exact hsame
  · intro hsame
    exact ⟨_, rfl, hsame.trans hkept.symm, hkept⟩

/-- **Stores and copies.** With cached memory `[a]=v` and `[n:a]=v` store the number, and
`[a]=[b]` copies, exactly if no older record keeps what is written from being read back;
and for a size, if the value has it in its text and the array has the bytes; and for a
copy, if the record at `b` has the bytes at `a` as well, or they are the same already. -/
theorem vmStores_iff (env : VmEnv) (h : vm.Cached) (a b v : Numeral) :
    (StoresWord env vm a v ↔ vm.ReadsBack env a.value (bytesOf 4 v.value.toNat)) ∧
      (∀ n, StoresSized env vm n a v ↔ (vmSize (atoi v.text.tail) = n.bytes ∧
        malloc env.buf n.bytes = bytesOf n.bytes v.value.toNat) ∧
          vm.ReadsBack env a.value (bytesOf n.bytes v.value.toNat)) ∧
      (CopiesWord env vm a b ↔
        (vmMmuCacheRead env.behind vm.mem.cache a.value 4 = none ∧
          b.value ≤ a.value ∧ a.value + 4 ≤ b.value + 4) ∨
            (vm.afterRead env b.value).bytesAt env a.value 4 = vm.bytesAt env b.value 4) :=
  ⟨storesWord_iff h a v, fun n => storesSized_iff h n a v, copiesWord_iff h a b⟩

/-- A digit. -/
def digitNumeral (k : Fin 10) : Numeral where
  hex := false
  digits := [digitChar k]
  ne_nil := List.cons_ne_nil _ _
  digit := by revert k; decide +kernel
  fits := by revert k; decide

/-- A VM with 1 written at 0 and 7 at 4. -/
def oneAndSeven : Vm :=
  { registersOnly [] with
    mem := ⟨openFile [] 1 1, false, [⟨0, 4, [1, 0, 0, 0]⟩, ⟨4, 8, [7, 0, 0, 0]⟩]⟩ }

theorem cached_oneAndSeven : oneAndSeven.Cached := ⟨rfl, rfl⟩

/-- At 8 no record answers, and `[8]=2` is a store. -/
theorem vmStores_eight :
    oneAndSeven.Cached ∧ StoresWord zerosOutside oneAndSeven (digitNumeral 8) (digitNumeral 2) := by
  refine ⟨cached_oneAndSeven, (vmStores_iff zerosOutside cached_oneAndSeven (digitNumeral 8)
    (digitNumeral 4) (digitNumeral 2)).1.mpr ?_⟩
  intro old hold
  have hnone : vmMmuCacheRead zerosOutside.behind oneAndSeven.mem.cache (digitNumeral 8).value
      (bytesOf 4 (digitNumeral 2).value.toNat).length = none := by
    decide +kernel
  rw [hnone] at hold
  cases hold

/-- `[0]=[4]` writes 7 to 4 again, and 1 is still at 0; `[8:8]=7` writes four zeros. -/
theorem seven_not_copied :
    oneAndSeven.Cached ∧
      ¬CopiesWord zerosOutside oneAndSeven (digitNumeral 0) (digitNumeral 4) ∧
      ¬StoresSized zerosOutside oneAndSeven .one (digitNumeral 8) (digitNumeral 7) := by
  have hcopy : (vmEval zerosOutside (vmScripted zerosOutside) oneAndSeven
      (copyText (digitNumeral 0) (digitNumeral 4))).map (fun vm =>
        (vm.bytesAt zerosOutside 0 4, vm.bytesAt zerosOutside 4 4)) =
      some ([1, 0, 0, 0], [7, 0, 0, 0]) := by
    decide +kernel
  have hsized : (vmEval zerosOutside (vmScripted zerosOutside) oneAndSeven
      (sizedText .one (digitNumeral 8) (digitNumeral 7))).map (fun vm =>
        vm.bytesAt zerosOutside 8 1) = some [0] := by
    decide +kernel
  refine ⟨cached_oneAndSeven, ?_, ?_⟩
  · rintro ⟨vm', heval, hsame, -⟩
    rw [heval, Option.map_some, Option.some.injEq, Prod.mk.injEq] at hcopy
    exact absurd (hcopy.1.symm.trans (hsame.trans hcopy.2)) (by decide)
  · rintro ⟨vm', heval, -, hread⟩
    rw [heval, Option.map_some, Option.some.injEq] at hsized
    exact absurd (hsized.symm.trans hread) (by decide)

end Radare
