import Radare.Search.Filter
import Radare.Rio.Frame
import Radare.Common.Loop
/-!
# What the drivers feed

A driver that has fed some bytes is told by them: the program shows a
block of the file, and the automaton and the hits are those of the
filter's run over the bytes (`Driver.At`). The next byte is taken from the
block shown (`Driver.At.update`), and so the bytes fed are a list that
continues itself.
-/

namespace Radare

open Common

variable {f : Filter} {s : State} {d d' : Driver} {tls : List TokenList} {file bytes : List u8}
variable {start src seek p : ut64} {i n k b bs : ℕ} {c : u8}

/-- The pairs of a stream fed from a position on. -/
def pairs (start : ut64) (bytes : List u8) : List (u8 × ut64) :=
  bytes.zipIdx.map fun (c, k) => (c, start + UInt64.ofNat k)

theorem pairs_concat :
    pairs start (bytes ++ [c]) = pairs start bytes ++ [(c, start + UInt64.ofNat bytes.length)] := by
  simp [pairs, List.zipIdx_append]

theorem pairs_inj {bytes' : List u8} : pairs start bytes = pairs start bytes' ↔ bytes = bytes' := by
  refine ⟨fun h => ?_, congrArg _⟩
  have hbytes : ∀ l : List u8, (pairs start l).map Prod.fst = l := fun l => by
    rw [pairs, List.map_map]
    exact List.zipIdx_map_fst 0 l
  rw [← hbytes bytes, h, hbytes]

/-- A file open to be searched: nothing stands between a read and the file,
and the block is not empty. -/
structure State.Opened (s : State) : Prop where
  ioMaps : s.ioMaps = []
  vaddr : s.config.vaddr = 0
  debug : s.config.debug = false
  size : s.config.size = UInt64.ofNat s.file.length
  block : 0 < s.config.block.length
  /-- One read takes a block. -/
  most : s.config.block.length ≤ readMost
  /-- The descriptor takes every offset a driver comes to. -/
  small : s.file.length + s.config.block.length < 2 ^ 63

theorem openFile_opened {blockSize : ℕ} {count : ut64} (hbs : 0 < blockSize)
    (hmost : blockSize ≤ readMost) (hsmall : file.length + blockSize < 2 ^ 63) :
    (openFile file blockSize count).Opened where
  ioMaps := rfl
  vaddr := rfl
  debug := rfl
  size := rfl
  block := by simpa [openFile] using hbs
  most := by simpa [openFile] using hmost
  small := by simpa [openFile] using hsmall

/-! ## The program -/

@[simp] theorem load_config_seek : (s.load src seek).config.seek = seek := rfl

@[simp] theorem load_block : (s.load src seek).config.block =
    blockAt s.file src.toNat s.config.block.length := rfl

/-- A read of a block that shows another. -/
theorem radareRead_load (src : ut64) (hs : s.Opened) (next : Bool) (hseek : seek.toNat < 2 ^ 63)
    {off : ut64} (hoff : off = if next then seek + UInt64.ofNat s.config.block.length else seek)
    (hlt : off.toNat < 2 ^ 63) :
    radareRead (s.load src seek) next =
      (s.load off off, ((s.file.drop off.toNat).take s.config.block.length).length) := by
  have hlen : (s.load src seek).config.block.length = s.config.block.length := blockAt_length
  have hread := radareRead_eq (s := s.load src seek) hs.vaddr hs.ioMaps
    (hlen.trans_le hs.most) hseek next (show off = _ by rw [hlen]; exact hoff) hlt
  rw [hread, State.load_load, hlen]
  rfl

/-- A hit shown. -/
theorem showHit_load (hs : s.Opened) {where_ : ut64} (hlt : where_.toNat < 2 ^ 63) :
    (s.load src seek).showHit where_ = s.load where_ seek := by
  have hlen : (blockAt s.file src.toNat s.config.block.length).length = s.config.block.length :=
    blockAt_length
  have hread := radareRead_eq (s := (s.load src seek).seekTo where_) hs.vaddr hs.ioMaps
    (hlen.trans_le hs.most) hlt false (show where_ = _ from rfl) hlt
  unfold State.showHit
  rw [radareSeek_eq (s := s.load src seek) hs.vaddr hlt, hread]
  unfold State.load State.seekTo
  simp only [hlen]

/-! ## One byte -/

/-- **A driver that has been fed some bytes**, with the program showing the
block at `src`. -/
structure Driver.At (f : Filter) (s : State) (tls : List TokenList) (start src seek : ut64)
    (bytes : List u8) (d : Driver) : Prop where
  program : d.s = s.load src seek
  keywords : d.tls = (f.run tls start bytes).tls
  hits : d.nhit = (f.run tls start bytes).s.1
  fed : d.fed = pairs start bytes
  defined : (f.run tls start bytes).defined = true

/-- The block shown after one more byte: the hit's, if the byte makes one
that is accepted. -/
def Filter.shown (f : Filter) (tls : List TokenList) (start src : ut64) (bytes : List u8) (c : u8) :
    ut64 :=
  if (f.run tls start (bytes ++ [c])).s.1 = (f.run tls start bytes).s.1 then src
  else (f.run tls start (bytes ++ [c])).s.2

theorem add_ofNat_eq {j : ℕ} (h : p.toNat + i = start.toNat + j) :
    p + UInt64.ofNat i = start + UInt64.ofNat j := by
  apply UInt64.toNat_inj.mp
  simp only [UInt64.toNat_add, UInt64.toNat_ofNat']
  omega

/-- A position a driver comes to is not wrapped. -/
theorem toNat_add_ofNat (h : p.toNat + n < 2 ^ 64) : (p + UInt64.ofNat n).toNat = p.toNat + n := by
  rw [UInt64.toNat_add, UInt64.toNat_ofNat']
  omega

/-- **A call of `update_tlist` feeds the byte of the block shown.** -/
theorem Driver.At.update (hs : s.Opened) (hrest : ∀ tk ∈ tls, tk.estat = 0) (htls : tls ≠ [])
    (h : d.At f s tls start src seek bytes) (hi : i < s.config.block.length)
    (hseek : seek.toNat + i = start.toNat + bytes.length)
    (hsmall : start.toNat + bytes.length + 1 < 2 ^ 63)
    (hc : s.file.getD (src.toNat + i) 0xff = c) :
    Gives (d.update f i) (f.run tls start (bytes ++ [c])).defined fun (d', ret) =>
      d'.At f s tls start (f.shown tls start src bytes c) seek (bytes ++ [c]) ∧ ret ≠ -1 ∧
        (ret = 0 → f.shown tls start src bytes c = src) := by
  have hwhere := add_ofNat_eq hseek
  obtain ⟨hprogram, hkeywords, hhits, hfed, hdef⟩ := h
  have hinchar : (blockAt s.file src.toNat s.config.block.length).getD i 0 = c := by
    rw [List.getD_eq_getElem?_getD, blockAt_getElem? hi, hc]
    rfl
  have hstep : f.run tls start (bytes ++ [c]) = _ := Filter.run_concat
  have hwithin : f.Within tls start (bytes ++ [c]) := Filter.within hrest
  have hne : (f.run tls start bytes).tls ≠ [] := Filter.run_ne_nil htls
  unfold Search.step at hstep
  rw [if_pos hdef] at hstep
  dsimp only at hstep
  -- the filter's update, and the program's that follows it
  obtain ⟨hinterrupted, hret⟩ := updateTlist_values f.nocase hne
    (some (hitFilter f.align f.count)) (f.run tls start bytes).s c
    (start + UInt64.ofNat bytes.length)
  have htallies := updateTlist_tallies f (f.run tls start bytes).s.1 (f.run tls start bytes).s.2
    (f.run tls start bytes).tls c (start + UInt64.ofNat bytes.length)
  have hfollows := updateTlist_follows f (s.load src seek) (f.run tls start bytes).s.1
    (f.run tls start bytes).s.2 (f.run tls start bytes).tls c (start + UInt64.ofNat bytes.length)
  unfold Driver.update Filter.shown
  rw [hprogram, hkeywords, hhits, hfed]
  simp only [load_block, load_config_seek, hinchar, hwhere]
  simp only [Prod.mk.eta] at htallies hfollows
  generalize updateTlist f.nocase (some (hitFilter f.align f.count)) _ _ _ _ = v at *
  generalize updateTlist f.nocase _ _ _ _ _ = u at *
  obtain ⟨utls, ⟨us, unhit⟩, ucalls, uaccesses, uinterrupted, uret⟩ := u
  obtain ⟨rfl, rfl, hu, haccepted, hunmoved⟩ := hfollows
  obtain rfl : uinterrupted = false := hu.trans hinterrupted
  simp only [Bool.or_false, hstep]
  rcases hret with hret | hret | hret
  · -- the byte is written behind an array
    rw [hret]
    exact ⟨fun h => absurd h (by decide), fun _ => rfl⟩
  · have hv : v.s = (f.run tls start bytes).s := htallies.rest (by rw [hret]; decide)
    obtain ⟨rfl, rfl⟩ := Prod.mk.inj (hunmoved (by rw [hret]; decide))
    rw [hret, hv]
    have hvalue : (0 : ℤ) ≠ -1 := by decide
    refine ⟨fun _ => ⟨_, rfl, ⟨?_, ?_, ?_, ?_, ?_⟩, hvalue, fun _ => if_pos rfl⟩,
      fun h => absurd h (by decide)⟩
    · rw [if_pos rfl]
    · rw [hstep]
    · rw [hstep, hv]
    · rw [pairs_concat]
    · rw [hstep, hret]
      rfl
  · -- a hit is accepted, and its block shown
    obtain ⟨hnhit, -⟩ := htallies.accepted hret
    have hne' : v.s.1 ≠ (f.run tls start bytes).s.1 := by omega
    obtain ⟨m, hm, hlast⟩ := hwithin.last
    rw [hstep] at hlast
    dsimp only at hlast
    have hlt : v.s.2.toNat < 2 ^ 63 := by
      rw [hlast, UInt64.toNat_add, UInt64.toNat_ofNat']
      rw [List.length_append, List.length_singleton] at hm
      omega
    obtain ⟨rfl, rfl⟩ := Prod.mk.inj (haccepted hret)
    rw [hret, showHit_load hs hlt]
    have hvalue : (1 : ℤ) ≠ -1 := by decide
    refine ⟨fun _ => ⟨_, rfl, ⟨?_, ?_, ?_, ?_, ?_⟩, hvalue, fun h => absurd h one_ne_zero⟩,
      fun h => absurd h (by decide)⟩
    · rw [if_neg hne']
    · rw [hstep]
    · rw [hstep]
    · rw [pairs_concat]
    · rw [hstep, hret]
      rfl

/-! ## Reading on -/

theorem Driver.At.setSeek (p : ut64) (h : d.At f s tls start src seek bytes) :
    (d.setSeek p).At f s tls start src p bytes := by
  refine { h with program := ?_ }
  unfold Driver.setSeek
  rw [h.program]
  rfl

theorem Driver.At.reread (hs : s.Opened) (h : d.At f s tls start src seek bytes)
    (hp : p.toNat < 2 ^ 63) : ((d.setSeek p).read false).At f s tls start p p bytes := by
  refine { h.setSeek p with program := ?_ }
  unfold Driver.read
  rw [(h.setSeek p).program, radareRead_load src hs false hp rfl hp]
  rfl

theorem Driver.At.readNext (hs : s.Opened) (h : d.At f s tls start src seek bytes) {off : ut64}
    (hseek : seek.toNat < 2 ^ 63) (hoff : off = seek + UInt64.ofNat s.config.block.length)
    (hlt : off.toNat < 2 ^ 63) :
    (d.read true).At f s tls start off off bytes ∧
      (radareRead d.s true).2 =
        ((s.file.drop off.toNat).take s.config.block.length).length := by
  have hread := radareRead_load src hs true hseek hoff hlt
  rw [← h.program] at hread
  refine ⟨{ h with program := ?_ }, ?_⟩
  · unfold Driver.read
    rw [hread]
  · rw [hread]

/-! ## Without keywords -/

/-- The program told to stop. -/
def State.interrupt (s : State) : State :=
  { s with config := { s.config with interrupted := true } }

theorem State.Opened.interrupt (hs : s.Opened) : s.interrupt.Opened :=
  ⟨hs.ioMaps, hs.vaddr, hs.debug, hs.size, hs.block, hs.most, hs.small⟩

/-- A search stopped in the block at its seek. -/
structure Driver.Stopped (s : State) (p : ut64) (fed : List (u8 × ut64)) (d : Driver) : Prop where
  program : d.s = s.interrupt.load p p
  fed : d.fed = fed

theorem Driver.Stopped.interrupted {fed : List (u8 × ut64)} (h : d.Stopped s p fed) :
    d.s.config.interrupted = true := by
  rw [h.program]
  rfl

/-- The first byte fed stops the search. -/
theorem Driver.update_nil (hs : s.Opened) (h : d.s = s.load p p) (htls : d.tls = []) :
    ∃ d', d.update f 0 = some (d', -1) ∧
      d'.Stopped s p (d.fed ++ [(s.file.getD p.toNat 0xff, p)]) := by
  have hinchar : d.s.config.block.getD 0 0 = s.file.getD p.toNat 0xff := by
    rw [h, load_block, List.getD_eq_getElem?_getD, blockAt_getElem? hs.block]
    rfl
  have hwhere : d.s.config.seek + UInt64.ofNat 0 = p := by
    rw [h]
    simp
  unfold Driver.update
  rw [hinchar, hwhere, htls, h]
  unfold updateTlist
  simp only [if_true, Bool.or_true, Option.map_some]
  exact ⟨_, rfl, rfl, rfl⟩

theorem Driver.Stopped.setSeek {fed : List (u8 × ut64)} (h : d.Stopped s p fed) :
    (d.setSeek p).Stopped s p fed := by
  refine ⟨?_, h.fed⟩
  unfold Driver.setSeek
  rw [h.program]
  rfl

/-- The block read anew. -/
theorem Driver.Stopped.reread {fed : List (u8 × ut64)} (hs : s.Opened) (h : d.Stopped s p fed)
    (hp : p.toNat < 2 ^ 63) : ((d.setSeek p).read false).Stopped s p fed := by
  refine ⟨?_, h.fed⟩
  unfold Driver.read
  rw [h.setSeek.program, radareRead_load p hs.interrupt false hp rfl hp]
  rfl

/-- And the next one. -/
theorem Driver.Stopped.readNext {fed : List (u8 × ut64)} (hs : s.Opened) (h : d.Stopped s p fed)
    {off : ut64} (hp : p.toNat < 2 ^ 63) (hoff : off = p + UInt64.ofNat s.config.block.length)
    (hlt : off.toNat < 2 ^ 63) : (d.read true).Stopped s off fed := by
  have hread := radareRead_load p hs.interrupt true hp hoff hlt
  rw [← h.program] at hread
  refine ⟨?_, h.fed⟩
  unfold Driver.read
  rw [hread]

end Radare
